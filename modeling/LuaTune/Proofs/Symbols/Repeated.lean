import LuaTune.Proofs.Lua.Folding
import LuaTune.Symbols

/-!
# How often a definition is recorded

Each visit of a node records what the node defines, so a survey holds a definition once for every
visit of its node, and lists it as often if it is unused.
-/

namespace LuaTune.Symbols

open Lua Files List

/-! ## Runs and indexes as lists -/

section

variable {α : Type} [DecidableEq α]

theorem Runs.toList_push (x : α) (n : Nat) (rs : Runs α) :
    (rs.push x n).toList = rs.toList ++ List.replicate n x := by
  fun_induction Runs.push x n rs with
  | case1 => simp [Runs.toList]
  | case2 m => simp [Runs.toList, replicate_append_replicate]
  | case3 y m different => simp [Runs.toList]
  | case4 r rs _ ih =>
    simp only [Runs.toList, flatMap_cons, append_assoc] at ih ⊢
    rw [ih]

theorem Runs.toList_append (as bs : Runs α) : (as.append bs).toList = as.toList ++ bs.toList := by
  unfold Runs.append
  split
  · simp [Runs.toList]
  · next x n bs =>
    have split : (as.push x n ++ bs : Runs α).toList = (as.push x n).toList ++ Runs.toList bs :=
      flatMap_append
    rw [split, Runs.toList_push, append_assoc]
    rfl

omit [DecidableEq α] in
theorem Runs.toList_filter (p : α → Bool) (rs : Runs α) :
    Runs.toList (rs.filter fun r => p r.1) = rs.toList.filter p := by
  induction rs with
  | nil => rfl
  | cons r rs ih =>
    have whole : Runs.toList (r :: rs) = List.replicate r.2 r.1 ++ Runs.toList rs := rfl
    rw [whole, filter_append, filter_replicate, ← ih, filter_cons]
    split <;> rfl

def Index.entries (ix : Index α) : List (String × α) := ix.flatMap fun e => e.2.toList.map (e.1, ·)

theorem Index.entries_add (key : String) (rs : Runs α) (ix : Index α) :
    (ix.add key rs).entries.Perm (ix.entries ++ rs.toList.map (key, ·)) := by
  fun_induction Index.add key rs ix with
  | case1 => simp [Index.entries]
  | case2 qs ix =>
    simp only [Index.entries, flatMap_cons, Runs.toList_append, map_append, append_assoc]
    exact .append_left _ perm_append_comm
  | case3 k qs ix _ ih =>
    simp only [Index.entries, flatMap_cons, append_assoc] at ih ⊢
    exact ih.append_left _

theorem Index.entries_append (as bs : Index α) :
    (as.append bs).entries.Perm (as.entries ++ bs.entries) := by
  induction bs generalizing as with
  | nil => simp [Index.append, Index.entries]
  | cons e bs ih =>
    refine (ih (as.add e.1 e.2)).trans (((entries_add e.1 e.2 as).append_right _).trans (.of_eq ?_))
    simp [Index.entries]

end

/-! ## The definitions of a script -/

def entriesOf (ds : List Definition) : List (String × Definition) := ds.map fun d => (d.key, d)

theorem entries_definitionIndex (ds : List Definition) :
    (definitionIndex ds).entries.Perm (entriesOf ds) := by
  have run (ix : Index Definition) :
      (ds.foldl (fun ix d => Index.add d.key [(d, 1)] ix) ix).entries.Perm
        (ix.entries ++ entriesOf ds) := by
    induction ds generalizing ix with
    | nil => simp [entriesOf]
    | cons d ds ih =>
      refine (ih _).trans (((Index.entries_add _ _ ix).append_right _).trans (.of_eq ?_))
      simp [entriesOf, Runs.toList]
  exact run []

def recordedAt (path : Path) (n : Node) : List (String × Definition) :=
  entriesOf (nodeDefinitions path n)

theorem below_nodeVisits (path : Path) (n : Node) (parts : List Visits) :
    (nodeVisits path n parts).below = parts.flatMap fun v => v.all ++ v.below := by
  rw [flatMap_eq_foldl]
  simp only [← append_assoc]
  rfl

theorem entries_visits (path : Path) (r : Rose Node) :
    (r.fold (nodeVisits path)).all.entries.Perm (r.visited.flatMap (recordedAt path)) ∧
      (Index.entries ((r.fold (nodeVisits path)).all ++ (r.fold (nodeVisits path)).below)).Perm
        ((r.subtrees.flatMap Rose.visited).flatMap (recordedAt path)) := by
  induction r using Rose.subtrees.induct with
  | case1 n parts ih =>
    rw [Rose.fold, Rose.subtrees, flatMap_cons, Rose.visited_node]
    generalize hv : nodeVisits path n (parts.map (Rose.fold (nodeVisits path))) = v
    have below : v.below.entries.Perm
        ((parts.flatMap fun p => p.subtrees.flatMap Rose.visited).flatMap (recordedAt path)) := by
      rw [← hv, below_nodeVisits, flatMap_map, Index.entries, flatMap_assoc, flatMap_assoc]
      exact .flatMap_left _ fun p hp => (ih p hp).2
    have all : v.all.entries.Perm (recordedAt path n ++ v.below.entries) := by
      subst hv
      exact (Index.entries_append _ _).trans ((entries_definitionIndex _).append_right _)
    have whole := all.trans (below.append_left _)
    refine ⟨by simpa using whole, ?_⟩
    simpa [Index.entries, flatMap_assoc] using whole.append below

theorem entries_scriptDefinitions (path : Path) (c : Chunk) :
    (scriptDefinitions path c).entries.Perm (c.tree.visited.flatMap (recordedAt path)) := by
  rw [scriptDefinitions, Chunk.fold_eq]
  exact (entries_visits path c.tree).1

/-! ## The survey -/

/-- What one pass over a script records: what a node at depth `d + 1` defines is recorded `2 ^ d`
times. -/
def recordedBy (path : Path) (c : Chunk) : List (String × Definition) :=
  (c.tree.placed 0).flatMap fun x => (List.replicate (2 ^ (x.2 - 1)) (recordedAt path x.1)).flatten

theorem recorded_script (path : Path) (c : Chunk) :
    (scriptDefinitions path c).entries.Perm (recordedBy path c) := by
  refine (entries_scriptDefinitions path c).trans ((c.tree.visited_perm.flatMap_right _).trans (.of_eq ?_))
  rw [recordedBy, flatMap_assoc]
  simp [Rose.repeated, flatMap_def]

namespace Survey

theorem entries_addDefinitions (t : Tree) (s : Survey) (p : Path) :
    (s.addDefinitions t p).definitions.entries.Perm
      (s.definitions.entries ++ (parseFile? t p).toList.flatMap (recordedBy p)) := by
  unfold addDefinitions
  cases parseFile? t p with
  | none => simp [fail]
  | some c =>
    simp only [Option.toList_some, flatMap_singleton]
    exact (Index.entries_append _ _).trans ((recorded_script p c).append_left _)

theorem definitions_checkAgain (t : Tree) (s : Survey) (p : Path) :
    (s.checkAgain t p).definitions = s.definitions := by
  unfold checkAgain
  split <;> rfl

theorem entries_ofFiles (t : Tree) (ps : List Path) : (ofFiles t ps).definitions.entries.Perm
      (ps.flatMap fun p => (parseFile? t p).toList.flatMap (recordedBy p)) := by
  have again (qs : List Path) (s : Survey) :
      (qs.foldl (checkAgain t) s).definitions = s.definitions := by
    induction qs generalizing s with
    | nil => rfl
    | cons q qs ih => rw [foldl_cons, ih, definitions_checkAgain]
  have first (qs : List Path) (s : Survey) : (qs.foldl (addDefinitions t) s).definitions.entries.Perm
      (s.definitions.entries ++ qs.flatMap fun p => (parseFile? t p).toList.flatMap (recordedBy p)) := by
    induction qs generalizing s with
    | nil => simp
    | cons q qs ih =>
      refine (ih _).trans (((entries_addDefinitions t s q).append_right _).trans (.of_eq ?_))
      simp
  rw [ofFiles, again]
  exact first ps {}

theorem unused_eq (s : Survey) : s.unused.toList = (s.definitions.entries.filter fun e =>
      !s.isUsed e.1 && e.2.kind.reach == "global").map (·.2) := by
  have global := Runs.toList_filter fun d : Definition => d.kind.reach == "global"
  unfold unused Index.entries
  rw [Runs.toList, flatMap_assoc, filter_flatMap, map_flatMap]
  congr 1
  funext e
  by_cases used : s.isUsed e.1
  · simp [used]
  · simp [used, filter_map, Function.comp_def, ← global]
    rfl

end Survey

/-- A visit of a tree visits its root once and each node at depth `d + 1` exactly `2 ^ d` times. So
often is recorded what the node defines, and so often it is listed if it is unused. -/
theorem definitions_repeated (t : Tree) (ps : List Path) : (∀ (α : Type) (r : Rose α),
      r.visited.Perm ((r.placed 0).flatMap fun x => List.replicate (2 ^ (x.2 - 1)) x.1)) ∧
    (∀ (p : Path) (c : Chunk), c.tree.nodes = c.walk ∧
      (scriptDefinitions p c).entries.Perm (c.tree.visited.flatMap (recordedAt p)) ∧
      (scriptDefinitions p c).entries.Perm (recordedBy p c)) ∧
    (Survey.ofFiles t ps).definitions.entries.Perm
      (ps.flatMap fun p => (parseFile? t p).toList.flatMap (recordedBy p)) ∧
    (Survey.ofFiles t ps).unused.toList = ((Survey.ofFiles t ps).definitions.entries.filter fun e =>
      !(Survey.ofFiles t ps).isUsed e.1 && e.2.kind.reach == "global").map (·.2) :=
  ⟨fun _ r => r.visited_perm,
    fun p c => ⟨c.nodes_tree, entries_scriptDefinitions p c, recorded_script p c⟩,
    Survey.entries_ofFiles t ps, Survey.unused_eq _⟩

end LuaTune.Symbols
