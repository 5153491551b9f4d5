import LuaTune.Proofs.Runs.Excluded

/-!
# Archives for debugging

Scripts that have copies are stored with their copies, in one archive or in several. What is stored
is the same either way, as long as no archive takes the place of something that is still to be
stored.
-/

namespace LuaTune.Command

open List

/-! ## Pieces of a list -/

variable {α : Type}

theorem flatten_chunksFrom (n room : Nat) (current xs : List α) :
    (chunksFrom n room current xs).flatten = current.reverse ++ xs := by
  induction xs generalizing room current with
  | nil =>
    unfold chunksFrom
    split
    · next none => simp [isEmpty_iff.mp none]
    · simp
  | cons x xs ih =>
    cases room with
    | zero => simp [chunksFrom, ih]
    | succ room => simp [chunksFrom, ih]

theorem flatten_chunks (n : Nat) (xs : List α) : (chunks n xs).flatten = xs := flatten_chunksFrom n n [] xs

/-- All pieces but the last have the full size, and the last has something in it. -/
structure AreFull (n : Nat) (pieces : List (List α)) : Prop where
  full : ∀ piece ∈ pieces.dropLast, piece.length = n
  last : ∀ piece ∈ pieces.getLast?, 1 ≤ piece.length ∧ piece.length ≤ n

theorem AreFull.cons {n : Nat} {piece : List α} {pieces : List (List α)} (h : AreFull n pieces)
    (full : piece.length = n) (positive : 0 < n) : AreFull n (piece :: pieces) := by
  cases pieces with
  | nil =>
    refine ⟨nofun, fun p hp => ?_⟩
    have same : piece = p := Option.some.inj hp
    rw [← same]
    omega
  | cons next pieces =>
    refine ⟨fun p hp => ?_, h.last⟩
    rcases mem_cons.mp hp with rfl | hp
    · exact full
    · exact h.full p hp

theorem areFull_chunksFrom {n room : Nat} {current : List α} (positive : 0 < n) (sizes : room + current.length = n)
    (xs : List α) : AreFull n (chunksFrom n room current xs) ∧
      (chunksFrom n room current xs).length = (current.length + xs.length + n - 1) / n := by
  induction xs generalizing room current with
  | nil =>
    unfold chunksFrom
    split
    · next none =>
      rw [isEmpty_iff.mp none]
      exact ⟨⟨forall_mem_nil _, fun _ h => by cases h⟩, (Nat.div_eq_of_lt (by simp; omega)).symm⟩
    · next some_ =>
      have size : 0 < current.length := length_pos_iff.mpr (by simpa using some_)
      refine ⟨⟨forall_mem_nil _, fun p hp => ?_⟩, ?_⟩
      · have same : current.reverse = p := Option.some.inj hp
        rw [← same, length_reverse]
        omega
      · rw [length_singleton, length_nil, Nat.add_zero]
        exact (Nat.div_eq_of_lt_le (by omega) (by omega)).symm
  | cons x xs ih =>
    cases room with
    | zero =>
      have sizes' : n - 1 + [x].length = n := Nat.sub_add_cancel positive
      obtain ⟨rest, count⟩ := ih sizes'
      refine ⟨rest.cons (by simp; omega) positive, ?_⟩
      rw [chunksFrom, length_cons, count, ← Nat.add_div_right _ positive]
      congr 1
      simp only [length_cons, length_nil]
      omega
    | succ room =>
      have sizes' : room + (x :: current).length = n := (Nat.succ_add_eq_add_succ _ _).symm.trans sizes
      obtain ⟨rest, count⟩ := ih sizes'
      refine ⟨rest, ?_⟩
      rw [chunksFrom, count]
      congr 1
      simp only [length_cons]
      omega

theorem areFull_chunks {n : Nat} (positive : 0 < n) (xs : List α) :
    AreFull n (chunks n xs) ∧ (chunks n xs).length = (xs.length + n - 1) / n := by
  have sizes : n + ([] : List α).length = n := rfl
  have pieces := areFull_chunksFrom positive sizes xs
  rwa [length_nil, Nat.zero_add] at pieces

def Options.extracts (o : Options) : Bool :=
  !(o.listBackups || o.revert || o.cleanBackups) && !o.extractDebug.isEmpty

end LuaTune.Command

namespace LuaTune.Runs

open Command Console Files Recovery Resources Text List
open Function (update update_self update_of_ne update_idem)

variable {start : World} {files files' files'' : Location → Option Entry} {archive p : Path} {l : Location}
  {a : Archive}

variable {α : Type} {whole : Path} {pieces : List (List (String × List Kept))} {name : String}

/-! ## Storing in an archive -/

def Turns (start : World) (act : Action Unit) (files files' : Location → Option Entry) : Prop :=
  ∀ w, (framed start (· = files)).holds w → ∃ w', act w = .ok () w' ∧ (framed start (· = files')).holds w'

theorem Turns.bind {x y : Action Unit} (h : Turns start x files files') (k : Turns start y files' files'') :
    Turns start (x >>= fun _ => y) files files'' := by
  intro w hw
  obtain ⟨w', ran, hw'⟩ := h w hw
  rw [bind_ok ran]
  exact k w' hw'

theorem turns_of_prints {x : Action Unit} (h : Prints x) : Turns start x files files := by
  intro w hw
  obtain ⟨out, ran⟩ := h w
  exact ⟨_, ran, hw⟩

theorem turns_changeFiles {f : Tree → Except FileError Tree}
    (h : ∀ w, (framed start (· = files)).holds w →
      ∃ t, f w.tree = .ok t ∧ (framed start (· = files')).holds { w with tree := t }) :
    Turns start (changeFiles f) files files' := by
  intro w hw
  obtain ⟨t, done, hw'⟩ := h w hw
  refine ⟨_, ?_, hw'⟩
  rw [changeFiles, bind_ok (tryFiles_of_ok done)]
  rfl

def holding (files : Location → Option Entry) (l : Location) (a : Archive) : Location → Option Entry :=
  update files l (some (.file (.archive a)))

def storedEntry (t : Tree) (p : Path) (name : String) : ArchiveEntry :=
  match t.stat p with
  | .ok (.file c) => ⟨entryName name, c.toBytes⟩
  | _ => ⟨entryName name ++ "/", []⟩

def IsSpared (t : Tree) (files : Location → Option Entry) (p : Path) : Prop :=
  ∃ l e, t.locate p = .ok l ∧ t.entry? l = some e ∧ files l = some e

theorem IsSpared.holding {t : Tree} (h : IsSpared t files p) (away : t.locate p ≠ .ok l) (a : Archive) :
    IsSpared t (holding files l a) p := by
  obtain ⟨m, e, place, there, same⟩ := h
  have other : m ≠ l := by
    rintro rfl
    exact away place
  exact ⟨m, e, place, there, (update_of_ne other _ _).trans same⟩

theorem forM_turns {f : α → Action Unit} {stored : α → Archive} {xs : List α}
    (h : ∀ x ∈ xs, ∀ a, Turns start (f x) (holding files l a) (holding files l (a ++ stored x)))
    (a : Archive) :
    Turns start (xs.forM f) (holding files l a) (holding files l (a ++ xs.flatMap stored)) := by
  induction xs generalizing a with
  | nil =>
    rw [flatMap_nil, append_nil]
    exact turns_of_prints prints_nothing
  | cons x xs ih =>
    rw [flatMap_cons, ← append_assoc]
    exact (h x mem_cons_self a).bind (ih (fun y hy => h y (mem_cons_of_mem x hy)) _)

section Storing

variable (place : start.tree.locate archive = .ok l) (file : start.tree.entry? l ≠ some .directory)

include place file

theorem write_turns (c : Content) :
    Turns start (changeFiles fun t => t.write archive c) files (update files l (some (.file c))) := by
  refine turns_changeFiles fun w hw => ?_
  have here : w.tree.entry? l ≠ some .directory := fun dir => file ((hw.1 l).mpr dir)
  refine ⟨_, write_eq_ok.mpr ⟨l, hw.1.locate place, here, rfl⟩, framed_put hw here ?_⟩
  rw [hw.2.2]

theorem addEntry_turns (spared : IsSpared start.tree files p) (away : start.tree.locate p ≠ .ok l) (name : String) :
    Turns start (changeFiles (Console.addEntry archive p name)) (holding files l a)
      (holding files l (a ++ [storedEntry start.tree p name])) := by
  refine turns_changeFiles fun w hw => ?_
  have here := hw.1.locate place
  have stored : w.tree.entry? l = some (.file (.archive a)) := by rw [hw.2.2, holding, update_self]
  obtain ⟨m, e, found, there, same⟩ := spared.holding away a
  have stat : w.tree.stat p = .ok e := stat_eq_ok.mpr ⟨m, hw.1.locate found, hw.2.2 ▸ same⟩
  have stat' : start.tree.stat p = .ok e := stat_eq_ok.mpr ⟨m, found, there⟩
  have entry : archiveEntry w.tree p name = .ok (storedEntry start.tree p name) := by
    unfold archiveEntry storedEntry
    rw [stat, stat']
    cases e <;> rfl
  have other : leadsTo w.tree p archive = false := by
    rw [leadsTo, hw.1.locate found, here]
    refine beq_false_of_ne ?_
    rintro rfl
    exact away found
  have file' : w.tree.entry? l ≠ some .directory := by simp [stored]
  refine ⟨w.tree.put l (.file (.archive (a ++ [storedEntry start.tree p name]))), ?_, framed_put hw file' ?_⟩
  · unfold Console.addEntry
    rw [entry]
    simp only [bind, Except.bind, read_eq_ok.mpr ⟨l, here, stored⟩, other]
    exact write_eq_ok.mpr ⟨l, here, file', rfl⟩
  · rw [hw.2.2, holding, update_idem]
    rfl

def storedPair (t : Tree) (k : Kept) : Archive :=
  [storedEntry t k.script (k.resource ++ "/" ++ k.script.name), storedEntry t k.copy (k.resource ++ "/" ++ k.copy.name)]

def storedIn (t : Tree) (groups : List (String × List Kept)) : Archive :=
  groups.flatMap fun g => g.2.flatMap (storedPair t)

structure IsStorable (t : Tree) (files : Location → Option Entry) (archive : Path) (k : Kept) : Prop where
  script : IsSpared t files k.script
  copy : IsSpared t files k.copy
  awayScript : t.locate k.script ≠ t.locate archive
  awayCopy : t.locate k.copy ≠ t.locate archive

theorem addPair_turns {k : Kept} (storable : IsStorable start.tree files archive k) (verbose : Bool) (a : Archive) :
    Turns start (addPair archive verbose k) (holding files l a) (holding files l (a ++ storedPair start.tree k)) := by
  obtain ⟨script, copy, awayScript, awayCopy⟩ := storable
  rw [place] at awayScript awayCopy
  have first := addEntry_turns (a := a) place file script awayScript (k.resource ++ "/" ++ k.script.name)
  have second := addEntry_turns (a := a ++ [storedEntry start.tree k.script (k.resource ++ "/" ++ k.script.name)])
    place file copy awayCopy (k.resource ++ "/" ++ k.copy.name)
  rw [append_assoc] at second
  exact first.bind (second.bind (turns_of_prints (((prints_say _).bind (prints_say _)).ite prints_nothing)))

theorem extractTo_turns {groups : List (String × List Kept)}
    (storable : ∀ g ∈ groups, ∀ k ∈ g.2, IsStorable start.tree files archive k) (verbose : Bool) :
    Turns start (extractTo archive verbose groups) files (holding files l (storedIn start.tree groups)) := by
  refine Turns.bind (write_turns place file _) (forM_turns (a := []) fun g hg => ?_)
  exact forM_turns fun k hk => addPair_turns place file (storable g hg k hk) verbose

end Storing

/-! ## Several archives -/

def canStore (t : Tree) (p : Path) : Bool :=
  match t.locate p with
  | .ok l => t.entry? l != some .directory
  | .error _ => false

theorem canStore_iff {t : Tree} : canStore t p ↔ ∃ l, t.locate p = .ok l ∧ t.entry? l ≠ some .directory := by
  unfold canStore
  cases t.locate p <;> simp

def pieceArchives (whole : Path) (done : Nat) (pieces : List (List (String × List Kept))) :
    List (Path × List (String × List Kept)) :=
  (pieces.zipIdx (done + 1)).map fun x => (pieceArchive whole x.2, x.1)

def holdingAll (t : Tree) (files : Location → Option Entry) :
    List (Path × List (String × List Kept)) → Location → Option Entry
  | [] => files
  | x :: xs =>
    match t.locate x.1 with
    | .ok l => holdingAll t (holding files l (storedIn t x.2)) xs
    | .error _ => holdingAll t files xs

theorem extractPieces_turns (verbose : Bool) (total done : Nat)
    (writable : ∀ x ∈ pieceArchives whole done pieces, canStore start.tree x.1)
    (storable : ∀ x ∈ pieceArchives whole done pieces, ∀ piece ∈ pieces, ∀ g ∈ piece, ∀ k ∈ g.2,
      IsStorable start.tree files x.1 k) :
    Turns start (extractPieces whole verbose total done pieces) files
      (holdingAll start.tree files (pieceArchives whole done pieces)) := by
  induction pieces generalizing done files with
  | nil => exact turns_of_prints prints_nothing
  | cons piece pieces ih =>
    rw [pieceArchives, zipIdx_cons, map_cons] at writable storable ⊢
    obtain ⟨first, others⟩ := forall_mem_cons.mp writable
    obtain ⟨l, place, file⟩ := canStore_iff.mp first
    have here := storable _ mem_cons_self
    have stored := extractTo_turns place file (here piece mem_cons_self) verbose
    rw [holdingAll, place]
    refine stored.bind (Turns.bind (turns_of_prints (prints_say _)) (ih (done + 1) others fun x hx q hq g hg k hk => ?_))
    have away := here q (mem_cons_of_mem _ hq) g hg k hk
    have there := storable x (mem_cons_of_mem _ hx) q (mem_cons_of_mem _ hq) g hg k hk
    exact { there with
      script := there.script.holding (place ▸ away.awayScript) _
      copy := there.copy.holding (place ▸ away.awayCopy) _ }

def debugArchives (asked : Path) (split : Int) (groups : List (String × List Kept)) :
    List (Path × List (String × List Kept)) :=
  if 0 < split then pieceArchives (debugArchive asked) 0 (chunks split.toNat groups)
  else [(debugArchive asked, groups)]

theorem prints_get {f : World → Action Unit} (h : ∀ w, Prints (f w)) : Prints (get >>= f) :=
  fun w => h w w

theorem extractDebug_turns {asked : Path} {split : Int} {kept : List Kept} (verbose : Bool) (some_ : kept ≠ [])
    (named : asked.name ≠ "")
    (writable : ∀ x ∈ debugArchives asked split (keptByResource kept), canStore start.tree x.1)
    (storable : ∀ x ∈ debugArchives asked split (keptByResource kept), ∀ g ∈ keptByResource kept, ∀ k ∈ g.2,
      IsStorable start.tree files x.1 k) :
    Turns start (extractDebug asked split verbose kept) files
      (holdingAll start.tree files (debugArchives asked split (keptByResource kept))) := by
  unfold extractDebug
  unfold debugArchives at writable storable ⊢
  rw [if_neg (by simpa using some_), if_neg (by simpa using named)]
  split
  · next pieces =>
    rw [if_pos pieces] at writable storable
    have stored := extractPieces_turns verbose (chunks split.toNat (keptByResource kept)).length 0 writable
      fun x hx piece hp g hg => storable x hx g (flatten_chunks split.toNat (keptByResource kept) ▸
        mem_flatten.mpr ⟨piece, hp, hg⟩)
    exact (turns_of_prints (prints_say _)).bind (stored.bind (turns_of_prints (prints_get fun w => prints_say _)))
  · next whole =>
    rw [if_neg whole, forall_mem_singleton] at writable storable
    obtain ⟨l, place, file⟩ := canStore_iff.mp writable
    have stored := extractTo_turns place file storable verbose
    rw [holdingAll, place]
    exact (turns_of_prints (prints_say _)).bind (stored.bind ((turns_of_prints (prints_say _)).bind
      ((turns_of_prints (prints_forM _ fun g => prints_say _)).bind (turns_of_prints (prints_get fun w => prints_say _)))))

/-! ## Places of archives -/

theorem pieceArchive_injective {n m : Nat}
    (h : (pieceArchive whole n).name = (pieceArchive whole m).name) : n = m := by
  have digits := congrArg String.toList h
  simp only [pieceArchive, Path.name_child, String.toList_append, append_assoc, append_cancel_left_eq,
    append_cancel_right_eq] at digits
  have repr (k : Nat) : (toString k).toList = Nat.toDigits 10 k := Nat.toList_repr
  rw [repr, repr] at digits
  have value := congrArg (Nat.ofDigitChars 10 · 0) digits
  simpa [Nat.ofDigitChars_toDigits] using value

theorem hasArchiveName_pieceArchive (whole : Path) (n : Nat) : HasArchiveName (pieceArchive whole n) :=
  hasArchiveName_child _ _

theorem of_mem_pieceArchives {done : Nat} {x : Path × List (String × List Kept)}
    (hx : x ∈ pieceArchives whole done pieces) : ∃ n, done < n ∧ x.1 = pieceArchive whole n := by
  obtain ⟨y, hy, rfl⟩ := mem_map.mp hx
  exact ⟨y.2, (mem_zipIdx hy).1, rfl⟩

variable {t : Tree}

theorem pieceArchives_apart {done : Nat}
    (writable : ∀ x ∈ pieceArchives whole done pieces, canStore t x.1) :
    (pieceArchives whole done pieces).Pairwise fun x y => t.locate x.1 ≠ t.locate y.1 := by
  induction pieces generalizing done with
  | nil => exact .nil
  | cons piece pieces ih =>
    rw [pieceArchives, zipIdx_cons, map_cons] at writable ⊢
    obtain ⟨first, others⟩ := forall_mem_cons.mp writable
    refine .cons (fun y hy same => ?_) (ih others)
    obtain ⟨n, later, path⟩ := of_mem_pieceArchives hy
    obtain ⟨l, place, -⟩ := canStore_iff.mp first
    rw [place, path] at same
    have name := placeName_of_locate (hasArchiveName_pieceArchive whole (done + 1)).isNamed place
    have name' := placeName_of_locate (hasArchiveName_pieceArchive whole n).isNamed same.symm
    exact absurd (pieceArchive_injective (name.symm.trans name')) (by omega)

theorem debugArchives_apart {asked : Path} {split : Int} {groups : List (String × List Kept)}
    (writable : ∀ x ∈ debugArchives asked split groups, canStore t x.1) :
    (debugArchives asked split groups).Pairwise fun x y => t.locate x.1 ≠ t.locate y.1 := by
  unfold debugArchives at writable ⊢
  split at writable
  · next pieces =>
    rw [if_pos pieces]
    exact pieceArchives_apart writable
  · next whole =>
    rw [if_neg whole]
    exact pairwise_singleton _ _

theorem holdingAll_of_apart {xs : List (Path × List (String × List Kept))}
    (apart : ∀ x ∈ xs, t.locate x.1 ≠ .ok l) : holdingAll t files xs l = files l := by
  induction xs generalizing files with
  | nil => rfl
  | cons x xs ih =>
    obtain ⟨first, others⟩ := forall_mem_cons.mp apart
    cases place : t.locate x.1 with
    | error o => simp only [holdingAll, place, ih others]
    | ok m =>
      have other : l ≠ m := by
        rintro rfl
        exact first place
      simp only [holdingAll, place, ih others, holding, update_of_ne other]

theorem holdingAll_of_mem {xs : List (Path × List (String × List Kept))}
    (apart : xs.Pairwise fun x y => t.locate x.1 ≠ t.locate y.1) {x : Path × List (String × List Kept)} (hx : x ∈ xs)
    (place : t.locate x.1 = .ok l) : holdingAll t files xs l = some (.file (.archive (storedIn t x.2))) := by
  induction apart generalizing files with
  | nil => cases hx
  | @cons y xs first _ ih =>
    rcases mem_cons.mp hx with rfl | hx
    · simp only [holdingAll, place]
      refine (holdingAll_of_apart fun y hy => ?_).trans (update_self ..)
      exact place ▸ (first y hy).symm
    · cases other : t.locate y.1 <;> simp only [holdingAll, other, ih hx]

/-! ## Runs -/

def backedUp (o : Options) (t : Tree) (root : Path) : List Kept :=
  keptScripts t (remaining o t (scriptsAt o t root))

def archivesOf (o : Options) (t : Tree) (root : Path) : List (Path × List (String × List Kept)) :=
  debugArchives (.ofString o.extractDebug) o.split (keptByResource (backedUp o t root))

/-- There are scripts with copies to be stored, and the archives can be written. One archive for all may
not take the place of something that it stores. -/
structure Extracts (o : Options) (t : Tree) (root : Path) : Prop where
  asked : o.extracts
  there : t.contains root
  found : backedUp o t root ≠ []
  named : (Path.ofString o.extractDebug).name ≠ ""
  writable : ∀ x ∈ archivesOf o t root, canStore t x.1
  apart : o.split ≤ 0 → ∀ k ∈ backedUp o t root,
    t.locate k.script ≠ t.locate (debugArchive (.ofString o.extractDebug)) ∧
      t.locate k.copy ≠ t.locate (debugArchive (.ofString o.extractDebug))

instance (o : Options) (t : Tree) (root : Path) : Decidable (Extracts o t root) :=
  decidable_of_iff (o.extracts ∧ t.contains root ∧ (backedUp o t root).isEmpty = false ∧
      (Path.ofString o.extractDebug).name ≠ "" ∧ (∀ x ∈ archivesOf o t root, canStore t x.1) ∧
      (o.split ≤ 0 → ∀ k ∈ backedUp o t root,
        t.locate k.script ≠ t.locate (debugArchive (.ofString o.extractDebug)) ∧
          t.locate k.copy ≠ t.locate (debugArchive (.ofString o.extractDebug))))
    ⟨fun ⟨asked, there, found, named, writable, apart⟩ =>
      ⟨asked, there, isEmpty_eq_false_iff.mp found, named, writable, apart⟩,
    fun h => ⟨h.asked, h.there, isEmpty_eq_false_iff.mpr h.found, h.named, h.writable, h.apart⟩⟩

variable {o : Options} {root : Path} {k : Kept}

theorem contains_of_mem_scriptsAt : ∀ e ∈ scriptsAt o t root, ∀ p ∈ e.2, t.contains p := by
  refine of_mem_scriptsAt (fun d _ p hp => ?_) fun file _ => ?_
  · exact (isFound_of_mem_endingWith (.refl d) hp).there
  · unfold Tree.isFile at file
    unfold Tree.contains
    split at file <;> simp_all

theorem mem_keptByResource {kept : List Kept} {g : String × List Kept} (hg : g ∈ keptByResource kept)
    (hk : k ∈ g.2) : k ∈ kept :=
  (mem_groupOn (mem_sortBy.mp hg)).2 k hk

theorem of_mem_backedUp (hk : k ∈ backedUp o t root) :
    isScriptName k.script.name ∧ t.contains k.script ∧ t.contains k.copy := by
  obtain ⟨e, he, hp, copy⟩ := mem_keptScripts hk
  have listed := (mem_filter.mp he).1
  exact ⟨namesScripts_scriptsAt o t root e listed _ hp, contains_of_mem_scriptsAt e listed _ hp, copy⟩

theorem isSpared_of_contains (there : t.contains p) : IsSpared t t.entry? p := by
  obtain ⟨l, e, place, here⟩ := contains_iff.mp there
  exact ⟨l, e, place, here, here⟩

theorem locate_ne_pieceArchive {c : Char} {n : Nat} (named : p.IsNamed)
    (sign : finalSign p.name = some c) (hc : c.toLower ≠ 'p') (there : t.contains p) :
    t.locate p ≠ t.locate (pieceArchive whole n) := by
  intro same
  obtain ⟨l, -, place, -⟩ := contains_iff.mp there
  have archive := hasArchiveName_pieceArchive whole n
  have name := placeName_of_locate named place
  have name' := placeName_of_locate archive.isNamed (same ▸ place)
  rw [HasArchiveName, ← name', name, sign] at archive
  exact hc (Option.some.inj archive)

theorem Extracts.storable (h : Extracts o t root) : ∀ x ∈ archivesOf o t root,
    ∀ g ∈ keptByResource (backedUp o t root), ∀ k ∈ g.2, IsStorable t t.entry? x.1 k := by
  intro x hx g hg k hk
  have mem := mem_keptByResource hg hk
  obtain ⟨name, script, copy⟩ := of_mem_backedUp mem
  have named := isNamed_of_isScriptName name
  have away : t.locate k.script ≠ t.locate x.1 ∧ t.locate k.copy ≠ t.locate x.1 := by
    unfold archivesOf debugArchives at hx
    split at hx
    · obtain ⟨n, -, path⟩ := of_mem_pieceArchives hx
      have sign : finalSign k.copy.name = some 'k' := by
        rw [Kept.copy, backupOf, Path.appendToName, Path.name_child, finalSign_append _ (by decide)]
        decide
      have named' : k.copy.IsNamed := by
        refine ⟨by simp [Kept.copy, backupOf, Path.appendToName, Path.child], fun dots => ?_⟩
        rw [dots] at sign
        exact absurd sign (by decide)
      rw [path]
      exact ⟨locate_ne_pieceArchive named (finalSign_scriptName name) (by decide) script,
        locate_ne_pieceArchive named' sign (by decide) copy⟩
    · next whole =>
      have path : x.1 = debugArchive (.ofString o.extractDebug) := by rw [mem_singleton.mp hx]
      rw [path]
      exact h.apart (by omega) k mem
  exact ⟨isSpared_of_contains script, isSpared_of_contains copy, away.1, away.2⟩

theorem lintFound_extracts (root : Path) {table : ScriptTable} (asked : o.extracts) {files : Location → Option Entry}
    (turns : Turns start (extractDebug (.ofString o.extractDebug) o.split o.verbose (keptScripts start.tree table))
      start.tree.entry? files) :
    (framed start (· = files)).holds (worldAfter (lintFound o root table start)) := by
  obtain ⟨w', ran, done⟩ := turns start (framed_self rfl)
  simp only [Options.extracts, Bool.and_eq_true, Bool.not_eq_true'] at asked
  have stops : handleCopies o table start = .error (.exit 0) w' := by
    unfold handleCopies
    rw [get_bind]
    simp only [asked.1, asked.2]
    exact bind_ok ran
  rw [lintFound, bind_error stops]
  exact done

theorem read_archivesOf {args : List String} {w w₁ : World} (chosen : chooseTask args w = .ok (o, root) w₁)
    (h : Extracts o w.tree root) : ∀ x ∈ archivesOf o w.tree root,
      (treeAfter args w).read x.1 = .ok (.archive (storedIn w.tree x.2)) := by
  have same : w₁.tree = w.tree := (settled_of_task chosen).1
  rcases findScripts_eq o root w₁ with ⟨w₂, found, -⟩ | ⟨e, w₂, -, none⟩
  · have same₂ : w₂.tree = w₁.tree := (of_findScripts found).1.1.1
    have after : treeAfter args w = (worldAfter (lintFound o root
        (remaining o w₁.tree (scriptsAt o w₁.tree root)) w₂)).tree := by
      rw [treeAfter_eq, lint_eq_lintFound chosen (same ▸ h.there) found]
    have tree : w₂.tree = w.tree := same₂.trans same
    rw [same, ← tree] at after found
    rw [← tree] at h ⊢
    have turns := extractDebug_turns o.verbose h.found h.named h.writable h.storable
    obtain ⟨dirs, -, files⟩ := lintFound_extracts root h.asked turns
    intro x hx
    obtain ⟨l, place, -⟩ := canStore_iff.mp (h.writable x hx)
    rw [after]
    refine read_eq_ok.mpr ⟨l, dirs.locate place, ?_⟩
    rw [files]
    exact holdingAll_of_mem (debugArchives_apart h.writable) hx place
  · refine absurd ?_ h.found
    rw [← same, backedUp, none]
    rfl

/-! ## Several archives and one -/

def archived (t : Tree) (paths : List Path) : Archive := paths.flatMap fun p =>
    match t.read p with
    | .ok (.archive a) => a
    | _ => []

theorem map_pieceArchives (whole : Path) (done : Nat) (pieces : List (List (String × List Kept))) :
    (pieceArchives whole done pieces).map (·.2) = pieces := by
  rw [pieceArchives, map_map]
  exact zipIdx_map_fst _ _

theorem flatMap_debugArchives (asked : Path) (split : Int) (groups : List (String × List Kept)) :
    (debugArchives asked split groups).flatMap (·.2) = groups := by
  unfold debugArchives
  split
  · rw [flatMap_def, map_pieceArchives, flatten_chunks]
  · exact append_nil groups

theorem archived_archivesOf {args : List String} {w w₁ : World} (chosen : chooseTask args w = .ok (o, root) w₁)
    (h : Extracts o w.tree root) : archived (treeAfter args w) ((archivesOf o w.tree root).map (·.1)) =
      storedIn w.tree (keptByResource (backedUp o w.tree root)) := by
  have stored := read_archivesOf chosen h
  calc archived (treeAfter args w) ((archivesOf o w.tree root).map (·.1))
      = (archivesOf o w.tree root).flatMap fun x => storedIn w.tree x.2 := by
        rw [archived, flatMap_map]
        exact flatMap_congr fun x hx => by rw [stored x hx]
    _ = storedIn w.tree ((archivesOf o w.tree root).flatMap (·.2)) := (flatMap_assoc ..).symm
    _ = _ := by rw [archivesOf, flatMap_debugArchives]

/-- With archives for so many resources each, the run stores what it stores in one archive. -/
theorem split_archives_agree {args args' : List String} {w w₁ w₂ : World} {n : Int}
    (whole : chooseTask args w = .ok (o, root) w₁) (split : chooseTask args' w = .ok ({ o with split := n }, root) w₂)
    (unsplit : o.split ≤ 0) (positive : 0 < n) (h : Extracts o w.tree root)
    (writable : ∀ x ∈ archivesOf { o with split := n } w.tree root, canStore w.tree x.1) :
    archived (treeAfter args' w) ((archivesOf { o with split := n } w.tree root).map (·.1)) =
        archived (treeAfter args w) [debugArchive (.ofString o.extractDebug)] ∧
      (∀ x ∈ archivesOf { o with split := n } w.tree root,
        (treeAfter args' w).read x.1 = .ok (.archive (storedIn w.tree x.2))) ∧
      AreFull n.toNat ((archivesOf { o with split := n } w.tree root).map (·.2)) ∧
      (archivesOf { o with split := n } w.tree root).length =
        ((keptByResource (backedUp o w.tree root)).length + n.toNat - 1) / n.toNat ∧
      ((keptByResource (backedUp o w.tree root)).map (·.1)).Nodup := by
  have h' : Extracts { o with split := n } w.tree root :=
    ⟨h.asked, h.there, h.found, h.named, writable, fun none => absurd none (by simpa using positive)⟩
  have one : archivesOf o w.tree root =
      [(debugArchive (.ofString o.extractDebug), keptByResource (backedUp o w.tree root))] :=
    if_neg (by omega)
  have pieces : (archivesOf { o with split := n } w.tree root).map (·.2) =
      chunks n.toNat (keptByResource (backedUp o w.tree root)) := by
    rw [archivesOf, debugArchives, if_pos positive, map_pieceArchives]
    rfl
  obtain ⟨full, count⟩ := areFull_chunks (n := n.toNat) (by omega) (keptByResource (backedUp o w.tree root))
  refine ⟨?_, read_archivesOf split h', pieces ▸ full, ?_, ?_⟩
  · have alone := archived_archivesOf whole h
    rw [one, map_singleton] at alone
    rw [alone]
    exact archived_archivesOf split h'
  · rw [← count, ← pieces, length_map]
  · exact ((sortBy_perm _ _).map _).nodup_iff.mpr (areGroups_groupOn _).keys

def twoFixed : Tree where
  entries := [(["r"], .directory), (["r", "fxmanifest.lua"], .file (.bytes [])),
    (["r", "a.lua"], .file silenced), (["r", "a.lua.flao-bak"], .file printing),
    (["s"], .directory), (["s", "fxmanifest.lua"], .file (.bytes [])),
    (["s", "b.lua"], .file silenced), (["s", "b.lua.flao-bak"], .file printing)]

@[irreducible]
def twoFixedWorld : World := worldWith twoFixed ""

def wholeArgs : List String := [".", "--extract-debug", "out.zip"]

def splitArgs : List String := [".", "--extract-debug", "out.zip", "--split", "1"]

theorem twoFixed_split :
    (archived (treeAfter wholeArgs twoFixedWorld) [⟨false, ["out.zip"]⟩]).length = 4 ∧
    archived (treeAfter splitArgs twoFixedWorld) [⟨false, ["out_1.zip"]⟩, ⟨false, ["out_2.zip"]⟩] =
      archived (treeAfter wholeArgs twoFixedWorld) [⟨false, ["out.zip"]⟩] := by
  have chosen : Ends (chooseTask wholeArgs) twoFixedWorld fun task _ =>
      Ends (chooseTask splitArgs) twoFixedWorld fun task' _ =>
        task' = ({ task.1 with split := 1 }, task.2) ∧ task.1.split ≤ 0 ∧
          Extracts task.1 twoFixedWorld.tree task.2 ∧
          (∀ x ∈ archivesOf { task.1 with split := 1 } twoFixedWorld.tree task.2, canStore twoFixedWorld.tree x.1) ∧
          (archivesOf { task.1 with split := 1 } twoFixedWorld.tree task.2).map (·.1) =
            [⟨false, ["out_1.zip"]⟩, ⟨false, ["out_2.zip"]⟩] ∧
          debugArchive (.ofString task.1.extractDebug) = ⟨false, ["out.zip"]⟩ := by
    decide +kernel
  obtain ⟨task, w₁, run, split⟩ := ends_iff.mp chosen
  obtain ⟨task', w₂, run', rfl, unsplit, extracts, writable, pieces, whole⟩ := ends_iff.mp split
  have agree := (split_archives_agree run run' unsplit (by decide) extracts writable).1
  rw [pieces, whole] at agree
  exact ⟨by decide +kernel, agree⟩

/-- The archive for all takes the place of the first script, of which nothing is left to be stored. -/
theorem twoFixed_overwritten :
    archived (treeAfter [".", "--extract-debug", "r/a.lua", "--split", "1"] twoFixedWorld)
        [⟨false, ["r", "a_1.zip"]⟩, ⟨false, ["r", "a_2.zip"]⟩] =
      [⟨"r/a.lua", silenced.toBytes⟩, ⟨"r/a.lua.flao-bak", printing.toBytes⟩,
        ⟨"s/b.lua", silenced.toBytes⟩, ⟨"s/b.lua.flao-bak", printing.toBytes⟩] ∧
    archived (treeAfter [".", "--extract-debug", "r/a.lua"] twoFixedWorld) [⟨false, ["r", "a.lua"]⟩] =
      [⟨"r/a.lua", []⟩, ⟨"r/a.lua.flao-bak", printing.toBytes⟩,
        ⟨"s/b.lua", silenced.toBytes⟩, ⟨"s/b.lua.flao-bak", printing.toBytes⟩] := by
  decide +kernel

/-! ## Names in archives -/

def resourcePath (resource : String) : List String := foldParents [] (Path.partsOf resource.toList)

theorem splitOn_concat (sep : Char) (xs ys : Chars) :
    Text.splitOn sep (xs ++ sep :: ys) = Text.splitOn sep xs ++ Text.splitOn sep ys := by
  induction xs with
  | nil => simp [Text.splitOn]
  | cons x xs ih =>
    rw [cons_append, Text.splitOn, Text.splitOn, ih]
    split
    · rfl
    · cases h : Text.splitOn sep xs with
      | nil => exact absurd h (splitOn_ne_nil sep xs)
      | cons l ls => rfl

theorem splitOn_of_not_mem {sep : Char} {xs : Chars} (h : sep ∉ xs) : Text.splitOn sep xs = [xs] := by
  induction xs with
  | nil => rfl
  | cons x xs ih =>
    rw [mem_cons, not_or] at h
    rw [Text.splitOn, if_neg (Ne.symm h.1), ih h.2]

theorem foldParents_concat (h : name ≠ "..") (done names : List String) :
    foldParents done (names ++ [name]) = foldParents done names ++ [name] := by
  fun_induction foldParents done names with
  | case1 done => simp [foldParents]
  | case2 _ ih | case3 _ _ ih | case4 _ _ _ _ ih | case5 _ _ _ _ ih => simpa [foldParents] using ih

theorem mem_foldParents {done names : List String} :
    ∀ name ∈ foldParents done names, name ∈ done ∨ name ∈ names := by
  fun_induction foldParents done names <;> grind

theorem not_mem_resourcePath (resource : String) : ∀ name ∈ resourcePath resource, '/' ∉ name.toList := by
  intro name hname
  have listed := (mem_foldParents name hname).resolve_left not_mem_nil
  obtain ⟨part, hpart, rfl⟩ := mem_map.mp listed
  rw [String.toList_ofList]
  exact (of_mem_splitOn part (mem_filter.mp hpart).1).2

/-- A file name that stands for itself: no path, and no directory. -/
structure IsFileName (name : String) : Prop where
  slash : '/' ∉ name.toList
  some_ : name ≠ ""
  dot : name ≠ "."
  dots : name ≠ ".."

theorem entryName_child (resource : String) (h : IsFileName name) :
    entryName (resource ++ "/" ++ name) = "/".intercalate (resourcePath resource ++ [name]) := by
  have parts : Path.partsOf (resource ++ "/" ++ name).toList = Path.partsOf resource.toList ++ [name] := by
    have chars : (resource ++ "/" ++ name).toList = resource.toList ++ '/' :: name.toList := by simp
    have kept : (name.toList.isEmpty || name.toList == ['.']) = false := by
      have dot : name.toList ≠ ['.'] := fun eq => h.dot (String.toList_injective eq)
      simpa [h.some_] using dot
    rw [Path.partsOf, chars, splitOn_concat, splitOn_of_not_mem h.slash, filter_append, map_append]
    rw [filter_singleton, kept]
    simp [Path.partsOf]
  have names : foldParents [] (Path.partsOf (resource ++ "/" ++ name).toList) = resourcePath resource ++ [name] := by
    rw [parts, foldParents_concat h.dots, resourcePath]
  rw [entryName, names]
  split
  · next none => simp at none
  · rfl

theorem entryName_inj {resource resource' name' : String} (h : IsFileName name)
    (h' : IsFileName name') :
    entryName (resource ++ "/" ++ name) = entryName (resource' ++ "/" ++ name') ↔
      resourcePath resource = resourcePath resource' ∧ name = name' := by
  rw [entryName_child resource h, entryName_child resource' h']
  have slashes {r n : String} (h : IsFileName n) : ∀ x ∈ resourcePath r ++ [n], '/' ∉ x.toList :=
    forall_mem_append.mpr ⟨not_mem_resourcePath r, forall_mem_singleton.mpr h.slash⟩
  constructor
  · intro same
    have parts := intercalate_inj (slashes h) (slashes h') (by simp) (by simp) same
    simpa using append_inj' parts rfl
  · rintro ⟨paths, rfl⟩
    rw [paths]

theorem addToGroup_perm {κ : Type} [BEq κ] (key : κ) (x : α) (gs : List (κ × List α)) :
    ((addToGroup key x gs).flatMap (·.2)).Perm (x :: gs.flatMap (·.2)) := by
  induction gs with
  | nil => exact .refl _
  | cons g gs ih =>
    unfold addToGroup
    split
    · simp
    · exact (ih.append_left g.2).trans perm_middle

theorem groupOn_perm {κ : Type} [BEq κ] (key : α → κ) (xs : List α) :
    ((groupOn key xs).flatMap (·.2)).Perm xs := by
  induction xs using List.reverseRecOn with
  | nil => exact .refl _
  | append_singleton xs x ih =>
    rw [groupOn, foldl_append]
    exact ((addToGroup_perm _ x _).trans (ih.cons x)).trans (perm_append_singleton x xs).symm

theorem keptByResource_perm (kept : List Kept) : ((keptByResource kept).flatMap (·.2)).Perm kept :=
  ((sortBy_perm _ _).flatMap_right _).trans (groupOn_perm _ kept)

theorem nodup_flatMap_pairs {β : Type} {f g : α → β} {xs : List α}
    (other : ∀ x ∈ xs, ∀ y ∈ xs, f x ≠ g y) (second : ∀ x ∈ xs, ∀ y ∈ xs, g x = g y → f x = f y) :
    (xs.flatMap fun x => [f x, g x]).Nodup ↔ (xs.map f).Nodup := by
  induction xs with
  | nil => simp
  | cons x xs ih =>
    have rest := ih (fun y hy z hz => other y (.tail x hy) z (.tail x hz))
      fun y hy z hz => second y (.tail x hy) z (.tail x hz)
    have mem (b : β) : b ∈ (xs.flatMap fun x => [f x, g x]) ↔ ∃ y ∈ xs, b = f y ∨ b = g y := by simp
    simp only [flatMap_cons, cons_append, nil_append, map_cons, nodup_cons, mem_cons,
      rest, mem, mem_map]
    grind

theorem storedPair_of_files (hk : k ∈ backedUp o t root) (scripts : FilesEnding t ".lua")
    (copies : FilesEnding t ".flao-bak") : ∃ c c', t.read k.script = .ok c ∧ t.read k.copy = .ok c' ∧
      storedPair t k = [⟨entryName (k.resource ++ "/" ++ k.script.name), c.toBytes⟩,
        ⟨entryName (k.resource ++ "/" ++ (k.script.name ++ ".flao-bak")), c'.toBytes⟩] := by
  obtain ⟨named, script, copy⟩ := of_mem_backedUp hk
  obtain ⟨l, e, place, here⟩ := contains_iff.mp script
  have isNamed := isNamed_of_isScriptName named
  have place' : t.locate k.copy = .ok (copyPlace l) := locate_backupOf isNamed place
  obtain ⟨m, e', found, there⟩ := contains_iff.mp copy
  obtain rfl := Except.ok.inj (found.symm.trans place')
  have sign : isScriptName (placeName l) := placeName_of_locate isNamed place ▸ named
  cases e with
  | directory => exact absurd here (scripts.script sign)
  | file c =>
    cases e' with
    | directory => exact absurd there copies.copy
    | file c' =>
      refine ⟨c, c', read_eq_ok.mpr ⟨l, place, here⟩, read_eq_ok.mpr ⟨_, place', there⟩, ?_⟩
      have name : k.copy.name = k.script.name ++ ".flao-bak" := Path.name_child ..
      simp only [storedPair, storedEntry, stat_eq_ok.mpr ⟨l, place, here⟩, stat_eq_ok.mpr ⟨_, place', there⟩, name]

theorem isFileName_of_isScriptName (script : isScriptName name) (slash : '/' ∉ name.toList) :
    IsFileName name ∧ IsFileName (name ++ ".flao-bak") := by
  have final := finalSign_scriptName script
  have copy : finalSign (name ++ ".flao-bak") = some 'k' := by
    rw [finalSign_append _ (by decide)]
    decide
  have ne {n m : String} {c : Char} (h : finalSign n = some c) (hm : finalSign m ≠ some c) : n ≠ m := by
    rintro rfl
    exact hm h
  refine ⟨⟨slash, ne final (by decide), ne final (by decide), ne final (by decide)⟩,
    ⟨?_, ne copy (by decide), ne copy (by decide), ne copy (by decide)⟩⟩
  rw [String.toList_append, mem_append, not_or]
  exact ⟨slash, by decide⟩

theorem nodup_storedIn (proper : ProperNames t) (scripts : FilesEnding t ".lua") (copies : FilesEnding t ".flao-bak") :
    ((storedIn t (keptByResource (backedUp o t root))).map (·.name)).Nodup ↔
      ((backedUp o t root).map fun k => (resourcePath k.resource, k.script.name)).Nodup := by
  have fileName {k : Kept} (hk : k ∈ backedUp o t root) :
      IsFileName k.script.name ∧ IsFileName (k.script.name ++ ".flao-bak") := by
    obtain ⟨named, there, -⟩ := of_mem_backedUp hk
    obtain ⟨l, e, place, here⟩ := contains_iff.mp there
    have name := placeName_of_locate (isNamed_of_isScriptName named) place
    refine isFileName_of_isScriptName named ?_
    rw [← name]
    exact (proper _ (script_mem_entries (name ▸ named) here)).2
  let first (k : Kept) : String := entryName (k.resource ++ "/" ++ k.script.name)
  let second (k : Kept) : String := entryName (k.resource ++ "/" ++ (k.script.name ++ ".flao-bak"))
  have names : ((storedIn t (keptByResource (backedUp o t root))).map (·.name)).Perm
      ((backedUp o t root).flatMap fun k => [first k, second k]) := by
    have pairs := (keptByResource_perm (backedUp o t root)).flatMap_right fun k => (storedPair t k).map (·.name)
    rw [storedIn, ← flatMap_assoc, map_flatMap]
    refine pairs.trans (.of_eq (flatMap_congr fun k hk => ?_))
    obtain ⟨c, c', -, -, stored⟩ := storedPair_of_files hk scripts copies
    rw [stored]
    rfl
  rw [names.nodup_iff, nodup_flatMap_pairs]
  · rw [List.Nodup, List.Nodup, pairwise_map, pairwise_map]
    refine List.Pairwise.iff_of_mem fun hk hk' => ?_
    rw [not_iff_not, Prod.mk.injEq]
    exact entryName_inj (fileName hk).1 (fileName hk').1
  · intro k hk k' hk' same
    obtain ⟨-, name⟩ := (entryName_inj (fileName hk).1 (fileName hk').2).mp same
    have sign := finalSign_scriptName (of_mem_backedUp hk).1
    rw [name, finalSign_append _ (by decide)] at sign
    exact absurd sign (by decide)
  · intro k hk k' hk' same
    obtain ⟨paths, name⟩ := (entryName_inj (fileName hk).2 (fileName hk').2).mp same
    refine (entryName_inj (fileName hk).1 (fileName hk').1).mpr ⟨paths, ?_⟩
    simpa [← String.toList_inj] using name

/-- Every script with a copy is in the archives, and so is its copy, with their contents. No file is lost
in unpacking exactly if no two scripts have one file name and resources under one path. -/
theorem extracted_pairs {args : List String} {w w₁ : World} (chosen : chooseTask args w = .ok (o, root) w₁)
    (h : Extracts o w.tree root) (proper : ProperNames w.tree) (scripts : FilesEnding w.tree ".lua")
    (copies : FilesEnding w.tree ".flao-bak") :
    (∀ x ∈ archivesOf o w.tree root, ∃ a, (treeAfter args w).read x.1 = .ok (.archive a)) ∧
      (∀ k ∈ backedUp o w.tree root, ∃ c c', w.tree.read k.script = .ok c ∧ w.tree.read k.copy = .ok c' ∧
        (⟨entryName (k.resource ++ "/" ++ k.script.name), c.toBytes⟩ : ArchiveEntry) ∈
          archived (treeAfter args w) ((archivesOf o w.tree root).map (·.1)) ∧
        (⟨entryName (k.resource ++ "/" ++ (k.script.name ++ ".flao-bak")), c'.toBytes⟩ : ArchiveEntry) ∈
          archived (treeAfter args w) ((archivesOf o w.tree root).map (·.1))) ∧
      (((archived (treeAfter args w) ((archivesOf o w.tree root).map (·.1))).map (·.name)).Nodup ↔
        ((backedUp o w.tree root).map fun k => (resourcePath k.resource, k.script.name)).Nodup) := by
  rw [archived_archivesOf chosen h]
  refine ⟨fun x hx => ⟨_, read_archivesOf chosen h x hx⟩, fun k hk => ?_, nodup_storedIn proper scripts copies⟩
  obtain ⟨c, c', script, copy, stored⟩ := storedPair_of_files hk scripts copies
  have mem : ∀ e ∈ storedPair w.tree k, e ∈ storedIn w.tree (keptByResource (backedUp o w.tree root)) := by
    intro e he
    obtain ⟨g, hg, hkg⟩ := mem_flatMap.mp ((keptByResource_perm _).mem_iff.mpr hk)
    exact mem_flatMap.mpr ⟨g, hg, mem_flatMap.mpr ⟨k, hkg, he⟩⟩
  rw [stored] at mem
  exact ⟨c, c', script, copy, mem _ mem_cons_self, mem _ (mem_cons_of_mem _ mem_cons_self)⟩

theorem twoFixed_distinct :
    ((archived (treeAfter wholeArgs twoFixedWorld) [⟨false, ["out.zip"]⟩]).map (·.name)).Nodup := by
  have proper : ProperNames twoFixedWorld.tree := by decide +kernel
  have scripts : FilesEnding twoFixedWorld.tree ".lua" := by decide +kernel
  have copies : FilesEnding twoFixedWorld.tree ".flao-bak" := by decide +kernel
  have chosen : Ends (chooseTask wholeArgs) twoFixedWorld fun task _ =>
      Extracts task.1 twoFixedWorld.tree task.2 ∧
        (archivesOf task.1 twoFixedWorld.tree task.2).map (·.1) = [⟨false, ["out.zip"]⟩] ∧
        ((backedUp task.1 twoFixedWorld.tree task.2).map fun k => (resourcePath k.resource, k.script.name)).Nodup := by
    decide +kernel
  obtain ⟨task, w₁, run, extracts, paths, differ⟩ := ends_iff.mp chosen
  obtain ⟨-, -, distinct⟩ := extracted_pairs run extracts proper scripts copies
  rw [paths] at distinct
  exact distinct.mpr differ

def bothSides : Tree where
  entries := [(["r"], .directory), (["r", "fxmanifest.lua"], .file (.bytes [])),
    (["r", "client"], .directory), (["r", "client", "main.lua"], .file silenced),
    (["r", "client", "main.lua.flao-bak"], .file printing),
    (["r", "server"], .directory), (["r", "server", "main.lua"], .file printing),
    (["r", "server", "main.lua.flao-bak"], .file silenced)]

@[irreducible]
def bothSidesWorld : World := worldWith bothSides ""

/-- Both scripts are stored under one name, so that unpacking leaves one of them. -/
theorem bothSides_collide :
    archived (treeAfter wholeArgs bothSidesWorld) [⟨false, ["out.zip"]⟩] =
      [⟨"r/main.lua", silenced.toBytes⟩, ⟨"r/main.lua.flao-bak", printing.toBytes⟩,
        ⟨"r/main.lua", printing.toBytes⟩, ⟨"r/main.lua.flao-bak", silenced.toBytes⟩] ∧
      ¬((archived (treeAfter wholeArgs bothSidesWorld) [⟨false, ["out.zip"]⟩]).map (·.name)).Nodup := by
  decide +kernel

end LuaTune.Runs
