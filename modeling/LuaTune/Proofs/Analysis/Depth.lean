import LuaTune.Proofs.Analysis.Context

/-!
# Scopes around a visit

Wherever a visit stands, the depths that it has counted are the numbers of loops and functions
around it, so what is recorded fits its scope.
-/

namespace LuaTune.Analysis

open Lua LuaTune.Analysis.Action List

variable {s : Scope} {a b scopes : List Scope} {id : Nat}

/-! ## Chains of scopes -/

def depthOf (kind : ScopeKind) (scopes : List Scope) (id : ScopeId) : Nat :=
  (chain scopes id).countP fun p => p.2.kind == kind

/-- Is the scope a function that runs on every tick, or inside one? -/
def isInHot (scopes : List Scope) (id : ScopeId) : Bool :=
  (chain scopes id).any fun p => p.2.kind == .function && Vocabulary.hotCallbacks.contains p.2.name

def Scope.bare (s : Scope) : Scope := { s with startLine := 0, endLine := 0, locals := [], cached := [] }

theorem bare_of_frame {s' : Scope} (h : s.frame = s'.frame) : s.bare = s'.bare := by
  have same := congrArg Scope.bare h
  exact same

theorem exists_of_bare {x : Option Scope} (h : x.map Scope.bare = some s.bare) :
    ∃ s', x = some s' ∧ s'.name = s.name ∧ s'.parent = s.parent ∧ s'.kind = s.kind ∧
      s'.isHot = s.isHot := by
  obtain ⟨s', rfl, same⟩ := Option.map_eq_some_iff.mp h
  simp only [Scope.bare, Scope.mk.injEq] at same
  exact ⟨s', rfl, same.1, same.2.2.2.1, same.2.2.2.2.1, same.2.2.2.2.2.1⟩

def lineage (scopes : List Scope) (id : ScopeId) : List (ScopeId × Scope) :=
  (chain scopes id).map fun p => (p.1, p.2.bare)

def ParentsFirst (scopes : List Scope) : Prop :=
  ∀ (i : Nat) (s : Scope) (p : Nat), scopes[i]? = some s → s.parent = some p → p < i

theorem chainWithin_congr (first : ParentsFirst a) {n m : Nat} (hn : id < n)
    (hm : id < m) (same : ∀ i, i ≤ id → b[i]?.map Scope.bare = a[i]?.map Scope.bare) :
    (chainWithin b n id).map (fun p => (p.1, p.2.bare)) =
      (chainWithin a m id).map fun p => (p.1, p.2.bare) := by
  induction id using Nat.strongRecOn generalizing n m with
  | ind id ih =>
    obtain ⟨n, rfl⟩ := Nat.exists_eq_add_one_of_ne_zero (Nat.ne_zero_of_lt hn)
    obtain ⟨m, rfl⟩ := Nat.exists_eq_add_one_of_ne_zero (Nat.ne_zero_of_lt hm)
    have here := same id (Nat.le_refl id)
    unfold chainWithin
    cases ha : a[id]? with
    | none =>
      rw [ha, Option.map_none, Option.map_eq_none_iff] at here
      rw [here]
    | some s =>
      rw [ha, Option.map_some, Option.map_eq_some_iff] at here
      obtain ⟨s', hb, bare⟩ := here
      have parents : s'.parent = s.parent := by
        have parents := congrArg (fun s : Scope => s.parent) bare
        exact parents
      rw [hb]
      simp only [parents]
      cases hp : s.parent with
      | none => simp [bare]
      | some p =>
        have before : p < id := first id s p ha hp
        have rest := ih p before (Nat.lt_of_lt_of_le before (Nat.le_of_lt_succ hn))
          (Nat.lt_of_lt_of_le before (Nat.le_of_lt_succ hm))
          fun i hi => same i (Nat.le_trans hi (Nat.le_of_lt before))
        simp only [map_cons, bare, rest]

theorem lineage_congr (first : ParentsFirst a)
    (same : ∀ i, i ≤ id → b[i]?.map Scope.bare = a[i]?.map Scope.bare) : lineage b id = lineage a id :=
  chainWithin_congr first (Nat.lt_succ_self id) (Nat.lt_succ_self id) same

theorem lineage_cons (first : ParentsFirst scopes) {i p : Nat} (h : scopes[i]? = some s)
    (hp : s.parent = some p) : lineage scopes i = (i, s.bare) :: lineage scopes p := by
  have step : chain scopes i = (i, s) :: chainWithin scopes i p := by
    simp only [chain, chainWithin, h, hp]
  have before := first i s p h hp
  rw [lineage, step, map_cons,
    chainWithin_congr first before (Nat.lt_succ_self p) fun _ _ => rfl]
  rfl

theorem depthOf_eq (kind : ScopeKind) (scopes : List Scope) (id : ScopeId) :
    depthOf kind scopes id = (lineage scopes id).countP fun p => p.2.kind == kind := by
  rw [lineage, countP_map]
  rfl

theorem isInHot_eq (scopes : List Scope) (id : ScopeId) :
    isInHot scopes id = (lineage scopes id).any fun p =>
      p.2.kind == .function && Vocabulary.hotCallbacks.contains p.2.name := by
  rw [lineage, any_map]
  rfl

theorem depthOf_congr (first : ParentsFirst a) (kind : ScopeKind)
    (same : ∀ i, i ≤ id → b[i]?.map Scope.bare = a[i]?.map Scope.bare) :
    depthOf kind b id = depthOf kind a id := by
  rw [depthOf_eq, depthOf_eq, lineage_congr first same]

theorem depthOf_cons (first : ParentsFirst scopes) {i p : Nat} (h : scopes[i]? = some s)
    (hp : s.parent = some p) (kind : ScopeKind) :
    depthOf kind scopes i = depthOf kind scopes p + if s.kind == kind then 1 else 0 := by
  rw [depthOf_eq, depthOf_eq, lineage_cons first h hp, countP_cons]
  rfl

/-! ## Scopes inside each other -/

/-- The first scope is the script as a whole, every other one is inside an earlier one, and a scope
is hot exactly if it is a hot function or inside one. -/
structure Nested (scopes : List Scope) : Prop where
  whole : ∃ s, scopes[0]? = some s ∧ s.parent = none ∧ s.kind = .global
  inside : ∀ i s, scopes[i]? = some s → 0 < i → ∃ p, s.parent = some p ∧ p < i
  hot : ∀ i s, scopes[i]? = some s → s.isHot = isInHot scopes i

namespace Nested

variable {scopes : List Scope}

theorem parentsFirst (h : Nested scopes) : ParentsFirst scopes := by
  intro i s p hs hp
  rcases Nat.eq_zero_or_pos i with rfl | pos
  · obtain ⟨s', hs', parent, -⟩ := h.whole
    rw [hs', Option.some.injEq] at hs
    rw [← hs, parent] at hp
    cases hp
  · obtain ⟨p', hp', before⟩ := h.inside i s hs pos
    rw [hp', Option.some.injEq] at hp
    exact hp ▸ before

theorem rooted (h : Nested scopes) {i : Nat} (hi : i < scopes.length) :
    ∃ s, (chain scopes i).getLast? = some (0, s) ∧ s.parent = none ∧ s.kind = .global := by
  obtain ⟨whole, found, parent, kind⟩ := h.whole
  have last : (lineage scopes i).getLast? = some (0, whole.bare) := by
    induction i using Nat.strongRecOn with
    | ind i ih =>
      rcases Nat.eq_zero_or_pos i with rfl | pos
      · simp only [lineage, chain, chainWithin, found, parent, map_cons, map_nil,
          getLast?_singleton]
      · have hs := getElem?_eq_getElem hi
        obtain ⟨p, hp, before⟩ := h.inside i _ hs pos
        rw [lineage_cons h.parentsFirst hs hp, getLast?_cons, ih p before (by omega)]
        rfl
  rw [lineage, getLast?_map, Option.map_eq_some_iff] at last
  obtain ⟨⟨id, s⟩, hs, same⟩ := last
  obtain ⟨rfl, bare⟩ := Prod.mk.inj same
  obtain ⟨s', rfl', -, parent', kind', -⟩ := exists_of_bare (x := some s) (congrArg some bare)
  cases rfl'
  exact ⟨s, hs, parent'.trans parent, kind'.trans kind⟩

theorem congr {a b : List Scope} (h : Nested a)
    (same : ∀ i : Nat, b[i]?.map Scope.bare = a[i]?.map Scope.bare) : Nested b := by
  have back (i : Nat) (s : Scope) (hs : b[i]? = some s) : ∃ s', a[i]? = some s' ∧ s'.name = s.name ∧
      s'.parent = s.parent ∧ s'.kind = s.kind ∧ s'.isHot = s.isHot :=
    exists_of_bare ((same i).symm.trans (congrArg (Option.map Scope.bare) hs))
  constructor
  · obtain ⟨s, hs, parent, kind⟩ := h.whole
    obtain ⟨s', hs', -, parent', kind', -⟩ :=
      exists_of_bare ((same 0).trans (congrArg (Option.map Scope.bare) hs))
    exact ⟨s', hs', parent'.trans parent, kind'.trans kind⟩
  · intro i s hs pos
    obtain ⟨s', hs', -, parent, -⟩ := back i s hs
    obtain ⟨p, hp, before⟩ := h.inside i s' hs' pos
    exact ⟨p, parent.symm.trans hp, before⟩
  · intro i s hs
    obtain ⟨s', hs', -, -, -, hot⟩ := back i s hs
    rw [← hot, h.hot i s' hs', isInHot_eq, isInHot_eq, lineage_congr h.parentsFirst fun i _ => same i]

theorem same_snoc (scopes : List Scope) (s : Scope) {id : Nat} (hid : id < scopes.length) (i : Nat)
    (hi : i ≤ id) : (scopes ++ [s])[i]?.map Scope.bare = scopes[i]?.map Scope.bare := by
  rw [getElem?_append_left (by omega)]

theorem snoc (h : Nested scopes) {c : Nat} {around s : Scope} (hc : scopes[c]? = some around)
    (parent : s.parent = some c)
    (hot : s.isHot =
      (around.isHot || (s.kind == .function && Vocabulary.hotCallbacks.contains s.name))) :
    Nested (scopes ++ [s]) := by
  have inside : c < scopes.length := (List.getElem?_eq_some_iff.mp hc).1
  have split (i : Nat) (r : Scope) (hr : (scopes ++ [s])[i]? = some r) :
      (i < scopes.length ∧ scopes[i]? = some r) ∨ (i = scopes.length ∧ r = s) := by
    by_cases old : i < scopes.length
    · rw [getElem?_append_left old] at hr
      exact .inl ⟨old, hr⟩
    · rw [getElem?_append_right (Nat.le_of_not_lt old)] at hr
      obtain ⟨bound, rfl⟩ := List.getElem?_eq_some_iff.mp hr
      have : i = scopes.length := by simp at bound; omega
      exact .inr ⟨this, by simp⟩
  have parents : ∀ i r, (scopes ++ [s])[i]? = some r → 0 < i → ∃ p, r.parent = some p ∧ p < i := by
    intro i r hr pos
    rcases split i r hr with ⟨-, hr⟩ | ⟨rfl, rfl⟩
    · exact h.inside i r hr pos
    · exact ⟨c, parent, inside⟩
  constructor
  · obtain ⟨whole, found, rest⟩ := h.whole
    exact ⟨whole, by rw [getElem?_append_left (by omega), found], rest⟩
  · exact parents
  · intro i r hr
    rcases split i r hr with ⟨old, hr⟩ | ⟨rfl, rfl⟩
    · rw [h.hot i r hr, isInHot_eq, isInHot_eq, lineage_congr h.parentsFirst (same_snoc scopes s old)]
    · have first : ParentsFirst (scopes ++ [r]) := by
        intro i q p hq hp
        rcases split i q hq with ⟨-, hq⟩ | ⟨rfl, rfl⟩
        · exact h.parentsFirst i q p hq hp
        · rw [parent, Option.some.injEq] at hp
          exact hp ▸ inside
      rw [hot, h.hot c around hc, isInHot_eq, isInHot_eq, lineage_cons first hr parent,
        lineage_congr h.parentsFirst (same_snoc scopes r inside), any_cons, Bool.or_comm]
      rfl

end Nested

/-! ## Places and records that fit their scopes -/

structure Located (t : Tracker) : Prop where
  calls : ∀ c ∈ t.calls, c.scope < t.scopes.length ∧ c.loopDepth = depthOf .loop t.scopes c.scope
  assigns : ∀ a ∈ t.assigns, a.scope < t.scopes.length ∧
    a.inLoop = decide (0 < depthOf .loop t.scopes a.scope)
  concats : ∀ k ∈ t.concats, k.scope < t.scopes.length ∧
    k.loopDepth = depthOf .loop t.scopes k.scope ∧
    k.inLoop = decide (0 < depthOf .loop t.scopes k.scope) ∧
    (k.target.isSome → k.loopScope.isSome = k.inLoop)

/-- The visit stands in a scope, and the depths that it has counted are those of the scope. -/
structure Placed (t : Tracker) : Prop extends Located t where
  nested : Nested t.scopes
  current : t.current < t.scopes.length
  loops : t.loopDepth = depthOf .loop t.scopes t.current
  functions : t.functionDepth = depthOf .function t.scopes t.current

structure Refines (old new : List Scope) : Prop where
  length : old.length ≤ new.length
  depth : ∀ kind id, id < old.length → depthOf kind new id = depthOf kind old id

theorem Refines.of_same {a b : List Scope} (h : Nested a) (length : a.length = b.length)
    (same : ∀ i : Nat, b[i]?.map Scope.bare = a[i]?.map Scope.bare) : Refines a b :=
  ⟨Nat.le_of_eq length, fun kind _ _ => depthOf_congr h.parentsFirst kind fun i _ => same i⟩

theorem Refines.snoc (h : Nested scopes) (s : Scope) : Refines scopes (scopes ++ [s]) :=
  ⟨by simp, fun kind _ hid => depthOf_congr h.parentsFirst kind (Nested.same_snoc scopes s hid)⟩

theorem Located.refine {t t' : Tracker} (h : Located t) (scopes : Refines t.scopes t'.scopes)
    (calls : t'.calls = t.calls) (assigns : t'.assigns = t.assigns) (concats : t'.concats = t.concats) :
    Located t' := by
  constructor
  · intro c hc
    obtain ⟨here, depth⟩ := h.calls c (calls ▸ hc)
    exact ⟨Nat.lt_of_lt_of_le here scopes.length, by rw [scopes.depth _ _ here, depth]⟩
  · intro a ha
    obtain ⟨here, inLoop⟩ := h.assigns a (assigns ▸ ha)
    exact ⟨Nat.lt_of_lt_of_le here scopes.length, by rw [scopes.depth _ _ here, inLoop]⟩
  · intro k hk
    obtain ⟨here, depth, inLoop, loop⟩ := h.concats k (concats ▸ hk)
    refine ⟨Nat.lt_of_lt_of_le here scopes.length, ?_, ?_, loop⟩
    · rw [scopes.depth _ _ here, depth]
    · rw [scopes.depth _ _ here, inLoop]

theorem map_bare_modify (scopes : List Scope) (c : Nat) {f : Scope → Scope}
    (hf : ∀ s, (f s).bare = s.bare) (i : Nat) :
    (scopes.modify c f)[i]?.map Scope.bare = scopes[i]?.map Scope.bare := by
  rw [getElem?_modify]
  cases scopes[i]? with
  | none => rfl
  | some s =>
    by_cases here : c = i
    · simp [here, hf]
    · simp [here]

namespace Placed

variable {t v : Tracker}

theorem isSome_loop? (h : Placed t) : t.loop?.isSome = decide (t.loopDepth > 0) := by
  unfold Tracker.loop?
  split
  · next inLoop =>
    rw [decide_eq_true inLoop, Option.isSome_map, find?_isSome]
    rw [h.loops, depthOf, gt_iff_lt, countP_pos_iff] at inLoop
    exact inLoop
  · next outside => simp [outside]

theorem updateScope (h : Placed t) {f : Scope → Scope} (hf : ∀ s, (f s).bare = s.bare) :
    Placed (t.updateScope f) := by
  have same := map_bare_modify t.scopes t.current hf
  have refined : Refines t.scopes (t.updateScope f).scopes :=
    .of_same h.nested (by simp [Tracker.updateScope]) same
  exact {
    toLocated := h.toLocated.refine refined rfl rfl rfl
    nested := h.nested.congr same
    current := Nat.lt_of_lt_of_le h.current refined.length
    loops := h.loops.trans (refined.depth _ _ h.current).symm
    functions := h.functions.trans (refined.depth _ _ h.current).symm }

theorem aside {t t' : Tracker} (h : Placed t) (same : t'.core = t.core) : Placed t' := by
  have bare : Placed t.core :=
    ⟨⟨h.calls, h.assigns, h.concats⟩, h.nested, h.current, h.loops, h.functions⟩
  rw [← same] at bare
  exact ⟨⟨bare.calls, bare.assigns, bare.concats⟩, bare.nested, bare.current, bare.loops, bare.functions⟩

theorem records {p : Part} {calls : List Expr} {t' : Tracker} (h : Placed t) (made : Records p calls t t') :
    Placed t' := by
  induction made with
  | call t c here depth =>
    refine { h with calls := ?_ }
    rw [forall_mem_append, forall_mem_singleton]
    exact ⟨h.calls, here ▸ h.current, by rw [depth, here, h.loops]⟩
  | assign t a here inLoop =>
    refine { h with assigns := ?_ }
    rw [forall_mem_append, forall_mem_singleton]
    exact ⟨h.assigns, here ▸ h.current, by rw [inLoop, here, h.loops]⟩
  | concat t k here depth inLoop loop =>
    refine { h with concats := ?_ }
    rw [forall_mem_append, forall_mem_singleton]
    refine ⟨h.concats, here ▸ h.current, by rw [depth, here, h.loops], by rw [inLoop, here, h.loops], ?_⟩
    intro target
    rw [loop target, h.isSome_loop?, inLoop]
  | access => exact { h with }
  | names t f hf => exact h.updateScope fun s => bare_of_frame (hf s)
  | aside same => exact h.aside same
  | andThen _ _ ih ih' => exact ih' (ih h)

theorem enter {u : Tracker} (h : Placed t) {s : Scope} (scopes : u.scopes = t.scopes ++ [s])
    (current : u.current = t.scopes.length) (inside : s.parent = some t.current)
    (hot : s.isHot = ((s.kind == .function && Vocabulary.hotCallbacks.contains s.name) ||
      t.scopes[t.current]?.any (·.isHot)))
    (loops : u.loopDepth = t.loopDepth + if s.kind == .loop then 1 else 0)
    (functions : u.functionDepth = t.functionDepth + if s.kind == .function then 1 else 0)
    (records : u.calls = t.calls ∧ u.assigns = t.assigns ∧ u.concats = t.concats) : Placed u := by
  have around := getElem?_eq_getElem h.current
  rw [around, Option.any_some, Bool.or_comm] at hot
  have nested : Nested (t.scopes ++ [s]) := h.nested.snoc around inside hot
  have refined := Refines.snoc h.nested s
  have found : (t.scopes ++ [s])[t.scopes.length]? = some s := getElem?_concat_length
  have depth (kind : ScopeKind) := depthOf_cons nested.parentsFirst found inside kind
  constructor
  · exact h.toLocated.refine (scopes ▸ refined) records.1 records.2.1 records.2.2
  · exact scopes ▸ nested
  · rw [scopes, current]
    simp
  · rw [scopes, current, depth, refined.depth _ _ h.current, loops, h.loops]
  · rw [scopes, current, depth, refined.depth _ _ h.current, functions, h.functions]

theorem enterLoop (h : Placed t) (name : String) (vars : List String) :
    Placed (t.enterLoop name vars) := by
  refine Placed.records (p := .block []) ?_ (.declareAll _ vars)
  exact h.enter rfl rfl rfl rfl rfl rfl ⟨rfl, rfl, rfl⟩

theorem enterFunction (h : Placed t) (name : String) (line : Nat) (params : List String) :
    Placed (t.enterFunction name line params) := by
  refine Placed.records (p := .block []) ?_ (.declareAll _ params)
  exact h.enter rfl rfl rfl rfl rfl rfl ⟨rfl, rfl, rfl⟩

theorem exit {w : Tracker} (h : Placed v) {s : Scope} {c : ScopeId}
    (found : v.scopes[v.current]? = some s) (inside : s.parent = some c) (line : Nat)
    (scopes : w.scopes = (v.exit line).scopes) (current : w.current = c)
    (loops : w.loopDepth = v.loopDepth - if s.kind == .loop then 1 else 0)
    (functions : w.functionDepth = v.functionDepth - if s.kind == .function then 1 else 0)
    (records : w.calls = v.calls ∧ w.assigns = v.assigns ∧ w.concats = v.concats) : Placed w := by
  rw [exit_eq found inside] at scopes
  have closed := h.updateScope (f := fun s => { s with endLine := line }) fun _ => rfl
  have depth (kind : ScopeKind) := depthOf_cons h.nested.parentsFirst found inside kind
  have before : c < v.scopes.length :=
    Nat.lt_trans (h.nested.parentsFirst _ _ _ found inside) h.current
  have same := map_bare_modify v.scopes v.current
    (f := fun s : Scope => { s with endLine := line }) fun _ => rfl
  have refined : Refines v.scopes w.scopes := by
    rw [scopes]
    exact .of_same h.nested (by simp [Tracker.updateScope]) same
  constructor
  · exact h.toLocated.refine refined records.1 records.2.1 records.2.2
  · rw [scopes]
    exact closed.nested
  · rw [current]
    exact Nat.lt_of_lt_of_le before refined.length
  · rw [current, refined.depth _ _ before, loops, h.loops, depth, Nat.add_sub_cancel]
  · rw [current, refined.depth _ _ before, functions, h.functions, depth, Nat.add_sub_cancel]

theorem exitLoop {name : String} {vars : List String} (h : Placed v)
    (kept : Keeps (t.enterLoop name vars) v) : Placed v.exitLoop := by
  obtain ⟨s, found, parent, kind⟩ := Keeps.entered kept
  have left := exit_eq found parent 0
  refine h.exit found parent 0 rfl ?_ ?_ ?_ ?_
  all_goals rw [Tracker.exitLoop, left]
  · rw [kind]
    rfl
  · rw [kind]
    rfl
  · exact ⟨rfl, rfl, rfl⟩

theorem exitFunction {name : String} {first : Nat} {params : List String}
    (h : Placed v) (kept : Keeps (t.enterFunction name first params) v) (last : Nat) :
    Placed (v.exitFunction last) := by
  obtain ⟨s, found, parent, kind⟩ := Keeps.entered kept
  have left := exit_eq found parent last
  refine h.exit found parent last rfl ?_ ?_ ?_ ?_
  all_goals rw [Tracker.exitFunction, left]
  · rw [kind]
    rfl
  · rw [kind]
    rfl
  · exact ⟨rfl, rfl, rfl⟩

end Placed

variable {t t' : Tracker} {p : Part}

/-! ## Every visit -/

theorem placed_start (lines : List Chars) : Placed (.start lines) where
  calls := by simp [Tracker.start]
  assigns := by simp [Tracker.start]
  concats := by simp [Tracker.start]
  nested := by
    constructor
    · exact ⟨_, rfl, rfl, rfl⟩
    · intro i s hs pos
      have bound := (List.getElem?_eq_some_iff.mp hs).1
      simp [Tracker.start] at bound
      omega
    · intro i s hs
      obtain ⟨bound, rfl⟩ := List.getElem?_eq_some_iff.mp hs
      simp [Tracker.start] at bound
      subst bound
      rfl
  current := Nat.one_pos
  loops := rfl
  functions := rfl

def StaysPlaced (t t' : Tracker) : Prop := Keeps t t' ∧ (Placed t → Placed t')

theorem Placed.congr (h : Placed t) {c : Option Nat} {b : Int} {n : Nat}
    (same : t' = { t with conditional := c, branch := b, conditionals := n }) : Placed t' := by
  subst same
  exact ⟨⟨h.calls, h.assigns, h.concats⟩, h.nested, h.current, h.loops, h.functions⟩

theorem follows_staysPlaced : Follows fun _ => StaysPlaced where
  records h := ⟨.of_records h, fun placed => placed.records h⟩
  andThen h k := ⟨h.1.trans k.1, k.2 ∘ h.2⟩
  loop h := ⟨h.1.loop, fun placed => (h.2 (placed.enterLoop _ _)).exitLoop h.1⟩
  function h last :=
    ⟨h.1.function last, fun placed => (h.2 (placed.enterFunction _ _ _)).exitFunction h.1 last⟩
  branch h b := ⟨h.1.branch b, fun placed => (h.2 (placed.congr rfl)).congr rfl⟩
  conditional h := ⟨h.1.conditional, fun placed => (h.2 (placed.congr rfl)).congr rfl⟩

inductive Action.Starts (t : Tracker) : Action → Part → Tracker → Prop where
  | visit (p : Part) : Starts t (.visit p) p t
  | loop {name : String} {vars : List String} {before after : List Part} {p : Part} {u : Tracker}
    (run : visitParts before (t.enterLoop name vars) = .ok u) :
    Starts t (.loop name vars (before ++ p :: after)) p u
  | function (name : String) (first last : Nat) (params : List String) (body : List Stat) :
    Starts t (.function name first last params body) (.block body) (t.enterFunction name first params)
  | test (test : Expr) (branches : Branches) :
    Starts t (.conditional test branches) (.expr test) t.openConditional
  | branch {test : Expr} {before after : Branches} {n : Int} {front back : List Part} {p : Part}
    {u v w : Tracker} (tested : visitExpr test t.openConditional = .ok u)
    (earlier : visitBranches before u = .ok v) (run : visitParts front { v with branch := n } = .ok w) :
    Starts t (.conditional test (before ++ (n, front ++ p :: back) :: after)) p w

/-- The visits that are made in the visit of a script, each with the state in which it starts,
whether or not the visit of the script comes to its end. -/
inductive Entered (c : Chunk) (lines : List Chars) : Part → Tracker → Prop where
  | script : Entered c lines (.block c) (.start lines)
  | inside {p q : Part} {t u v : Tracker} {before after : List Action} {a : Action}
    (around : Entered c lines p t) (actions : p.actions = before ++ a :: after)
    (run : runActions before t = .ok u) (starts : a.Starts u q v) : Entered c lines q v

theorem staysPlaced (p : Part) : ∀ t t', p.visit t = .ok t' → StaysPlaced t t' :=
  follows_staysPlaced.visit p

theorem Placed.visitParts {ps : List Part} (h : Placed t)
    (run : visitParts ps t = .ok t') : Placed t' :=
  (follows_staysPlaced.visitParts (fun p _ => staysPlaced p) run).2 h

theorem Placed.starts {a : Action} {u : Tracker} (h : Placed t) (starts : a.Starts t p u) :
    Placed u := by
  cases starts with
  | visit => exact h
  | loop run => exact (h.enterLoop _ _).visitParts run
  | function => exact h.enterFunction _ _ _
  | test => exact h.congr rfl
  | branch tested earlier run =>
    have opened : Placed t.openConditional := h.congr rfl
    have first := (staysPlaced (.expr _) _ _ tested).2 opened
    obtain ⟨b, stays⟩ := follows_staysPlaced.visitBranches (fun p _ => staysPlaced p) earlier
    have later := stays.2 (first.congr rfl)
    exact Placed.visitParts (later.congr rfl) run

theorem Placed.runActions {as bs : List Action} (h : Placed t)
    (actions : p.actions = as ++ bs) (run : runActions as t = .ok t') : Placed t' := by
  have here : ∀ a ∈ as, a.RecordsBy fun _ => StaysPlaced := fun a ha =>
    follows_staysPlaced.recordsBy p a (actions ▸ mem_append_left bs ha)
  exact (follows_staysPlaced.runActions here (fun p _ => staysPlaced p) run).2 h

theorem placed_of_entered {c : Chunk} {lines : List Chars}
    (h : Entered c lines p t) : Placed t := by
  induction h with
  | script => exact placed_start lines
  | inside _ actions run starts ih => exact (ih.runActions actions run).starts starts

def Rooted (scopes : List Scope) : Prop :=
  ∀ i, i < scopes.length →
    ∃ s, (chain scopes i).getLast? = some (0, s) ∧ s.parent = none ∧ s.kind = .global

/-- Every visit that comes to its end keeps its place and only adds scopes. In the visit of a script,
each visit starts in a state where the depths, the scopes and the records fit each other, and so does
what the whole visit leaves. -/
theorem visit_context :
    (∀ (p : Part) (t t' : Tracker), p.visit t = .ok t' →
      t'.place = t.place ∧ Grows t.current t.scopes t'.scopes) ∧
    ∀ (c : Chunk) (lines : List Chars),
      (∀ p t, Entered c lines p t → Placed t ∧ Rooted t.scopes) ∧
      ∀ t, visitChunk c lines = .ok t → Placed t ∧ Rooted t.scopes := by
  refine ⟨fun p t t' h => ⟨(p.keeps h).place, (p.keeps h).scopes⟩, fun c lines => ⟨?_, ?_⟩⟩
  · intro p t h
    have placed := placed_of_entered h
    exact ⟨placed, fun i hi => placed.nested.rooted hi⟩
  · intro t h
    have placed := (staysPlaced (.block c) _ _ h).2 (placed_start lines)
    exact ⟨placed, fun i hi => placed.nested.rooted hi⟩

def tickingLoop : Chunk :=
  [.function default default ⟨"onTick", default⟩ [] [] [.whileLoop .varargs [.breakLoop]]]

theorem visit_context_tickingLoop : ∃ t, Entered tickingLoop [] (.block [.breakLoop]) t ∧
    t.loopDepth = 1 ∧ t.functionDepth = 1 ∧ (t.scopes[t.current]?).any (·.isHot) ∧
    Placed t ∧ Rooted t.scopes := by
  have whole : Entered tickingLoop [] (.block tickingLoop) (.start []) := .script
  have declared := whole.inside (show _ = [] ++ _ :: [] from rfl) rfl (.visit _)
  have body := declared.inside (show _ = [_] ++ _ :: [] from rfl) rfl (.function _ _ _ _ _)
  have looped := body.inside (show _ = [] ++ _ :: [] from rfl) rfl (.visit _)
  have inner := looped.inside (show _ = [_] ++ _ :: [] from rfl) rfl
    (.loop (show visitParts [] _ = _ from rfl))
  exact ⟨_, inner, rfl, rfl, rfl, (visit_context.2 _ _).1 _ _ inner⟩

end LuaTune.Analysis
