import LuaTune.Grouping
import Mathlib.Data.List.Induction
import Mathlib.Data.List.Nodup
import Mathlib.Tactic.Common

/-!
# Tables and groups

A table in which no key occurs twice is known by what it holds at each key.
-/

namespace LuaTune

open List

variable {κ α : Type} [BEq κ] [LawfulBEq κ] {es : List (κ × α)}

/-! ## Tables -/

omit [LawfulBEq κ] in
theorem getKey?_cons (k : κ) (e : κ × α) (es : List (κ × α)) :
    getKey? k (e :: es) = if e.1 == k then some e.2 else getKey? k es := by
  unfold getKey?
  rw [List.find?_cons]
  cases e.1 == k <;> rfl

omit [LawfulBEq κ] in
theorem setKey_cons (k : κ) (v : α) (e : κ × α) (es : List (κ × α)) :
    setKey k v (e :: es) = if e.1 == k then (e.1, v) :: es else e :: setKey k v es := rfl

omit [LawfulBEq κ] in
theorem getKey?_map {β : Type} (g : α → β) (k : κ) (es : List (κ × α)) :
    getKey? k (es.map fun e => (e.1, g e.2)) = (getKey? k es).map g := by
  induction es with
  | nil => rfl
  | cons e es ih =>
    rw [map_cons, getKey?_cons, getKey?_cons, ih]
    split <;> rfl

theorem getKey?_setKey_self (k : κ) (v : α) (es : List (κ × α)) :
    getKey? k (setKey k v es) = some v := by
  induction es with
  | nil => simp [setKey, getKey?_cons]
  | cons e es ih => by_cases same : e.1 = k <;> simp [setKey_cons, getKey?_cons, same, ih]

theorem getKey?_setKey_ne {k k' : κ} (h : k' ≠ k) (v : α) (es : List (κ × α)) :
    getKey? k' (setKey k v es) = getKey? k' es := by
  induction es with
  | nil => simp [setKey, h.symm, getKey?]
  | cons e es ih => by_cases same : e.1 = k <;> simp [setKey_cons, getKey?_cons, same, ih, h.symm]

theorem setKey_setKey (k : κ) (v w : α) (es : List (κ × α)) :
    setKey k w (setKey k v es) = setKey k w es := by
  induction es with
  | nil => simp [setKey]
  | cons e es ih => by_cases same : e.1 = k <;> simp [setKey_cons, same, ih]

theorem mem_setKey {k : κ} {v : α} {e : κ × α} (h : e ∈ setKey k v es) : e = (k, v) ∨ e ∈ es := by
  induction es with
  | nil => exact .inl (mem_singleton.mp h)
  | cons x es ih => grind [setKey_cons]

theorem keys_setKey (k : κ) (v : α) (es : List (κ × α)) :
    (setKey k v es).map (·.1) = if k ∈ es.map (·.1) then es.map (·.1) else es.map (·.1) ++ [k] := by
  induction es with
  | nil => rfl
  | cons e es ih => grind [setKey_cons]

theorem nodup_setKey (h : (es.map (·.1)).Nodup) (k : κ) (v : α) :
    ((setKey k v es).map (·.1)).Nodup := by
  rw [keys_setKey]
  split
  · exact h
  · exact nodup_append_comm.mp (nodup_cons.mpr ⟨‹_›, h⟩)

theorem mem_iff_getKey? (h : (es.map (·.1)).Nodup) {k : κ} {v : α} :
    (k, v) ∈ es ↔ getKey? k es = some v := by
  induction es with
  | nil => simp [getKey?]
  | cons e es ih =>
    obtain ⟨new, rest⟩ := nodup_cons.mp h
    rw [mem_cons, ih rest, getKey?_cons]
    by_cases same : e.1 = k
    · subst same
      have absent : getKey? e.1 es ≠ some v := fun found =>
        new (mem_map.mpr ⟨_, (ih rest).mpr found, rfl⟩)
      simp [absent, Prod.ext_iff, eq_comm]
    · simp [same, Prod.ext_iff, Ne.symm same]

theorem getKey?_perm {es es' : List (κ × α)} (keys : (es.map (·.1)).Nodup) (perm : es.Perm es') (k : κ) :
    getKey? k es = getKey? k es' := by
  have keys' := (perm.map (·.1)).nodup_iff.mp keys
  exact Option.ext fun v => by rw [← mem_iff_getKey? keys, ← mem_iff_getKey? keys', perm.mem_iff]

variable {key : α → κ} {xs : List α}

theorem getKey?_foldl_setKey (k : κ) (xs : List α) :
    getKey? k (xs.foldl (fun es x => setKey (key x) x es) []) = xs.reverse.find? fun x => key x == k := by
  induction xs using List.reverseRecOn with
  | nil => rfl
  | append_singleton xs x ih =>
    rw [foldl_append, foldl_cons, foldl_nil, reverse_append]
    by_cases same : key x = k
    · subst same
      simp [getKey?_setKey_self]
    · simp [getKey?_setKey_ne (Ne.symm same), ih, same]

theorem nodup_foldl_setKey (xs : List α) :
    ((xs.foldl (fun es x => setKey (key x) x es) []).map (·.1)).Nodup := by
  induction xs using List.reverseRecOn with
  | nil => exact nodup_nil
  | append_singleton xs x ih =>
    rw [foldl_append]
    exact nodup_setKey ih _ _

/-! ## Groups -/

theorem addToGroup_eq (k : κ) (x : α) (gs : List (κ × List α)) :
    addToGroup k x gs = setKey k ((getKey? k gs).getD [] ++ [x]) gs := by
  induction gs with
  | nil => rfl
  | cons g gs ih =>
    rw [setKey_cons, getKey?_cons, addToGroup]
    split <;> simp_all

omit [LawfulBEq κ] in
theorem addToGroup_ne_nil (k : κ) (x : α) (gs : List (κ × List α)) : addToGroup k x gs ≠ [] := by
  fun_cases addToGroup k x gs <;> exact cons_ne_nil _ _

theorem nodup_groupOn (xs : List α) : ((groupOn key xs).map (·.1)).Nodup := by
  unfold groupOn
  induction xs using List.reverseRecOn with
  | nil => exact nodup_nil
  | append_singleton xs x ih =>
    rw [foldl_append, foldl_cons, foldl_nil, addToGroup_eq]
    exact nodup_setKey ih _ _

theorem getKey?_groupOn (k : κ) (xs : List α) :
    getKey? k (groupOn key xs) = Option.guard (· ≠ []) (xs.filter fun x => key x == k) := by
  unfold groupOn
  induction xs using List.reverseRecOn with
  | nil => rfl
  | append_singleton xs x ih =>
    rw [foldl_append, foldl_cons, foldl_nil, addToGroup_eq, filter_append]
    by_cases same : key x = k
    · subst same
      rw [getKey?_setKey_self, ih]
      by_cases none : xs.filter (fun y => key y == key x) = [] <;> simp [Option.guard, none]
    · rw [getKey?_setKey_ne (Ne.symm same), ih]
      simp [same]

theorem mem_groupOn_iff {g : κ × List α} :
    g ∈ groupOn key xs ↔ g.2 = xs.filter (fun x => key x == g.1) ∧ g.2 ≠ [] := by
  obtain ⟨k, ys⟩ := g
  rw [mem_iff_getKey? (nodup_groupOn xs), getKey?_groupOn, Option.guard_eq_some_iff]
  grind

/-- The groups of a list have different keys, each holds all elements with its key, and every key is
there. -/
structure AreGroups (key : α → κ) (xs : List α) (gs : List (κ × List α)) : Prop where
  keys : (gs.map (·.1)).Nodup
  groups : ∀ g ∈ gs, g.2 = xs.filter fun x => key x == g.1
  covers : ∀ x ∈ xs, key x ∈ gs.map (·.1)
  named : ∀ g ∈ gs, ∃ x ∈ xs, key x = g.1

theorem exists_mem_groupOn (key : α → κ) {x : α} (hx : x ∈ xs) :
    ∃ g ∈ groupOn key xs, g.1 = key x ∧ x ∈ g.2 := by
  have there : x ∈ xs.filter fun y => key y == key x := by simp [hx]
  exact ⟨(key x, _), mem_groupOn_iff.mpr ⟨rfl, ne_nil_of_mem there⟩, rfl, there⟩

theorem mem_groupOn {g : κ × List α} (h : g ∈ groupOn key xs) :
    (∃ x ∈ xs, key x = g.1) ∧ ∀ x ∈ g.2, x ∈ xs := by
  obtain ⟨group, some⟩ := mem_groupOn_iff.mp h
  have inside : ∀ x ∈ g.2, x ∈ xs ∧ key x = g.1 := by
    rw [group]
    simp
  obtain ⟨x, hx⟩ := exists_mem_of_ne_nil _ some
  exact ⟨⟨x, inside x hx⟩, fun x hx => (inside x hx).1⟩

theorem areGroups_groupOn (xs : List α) : AreGroups key xs (groupOn key xs) where
  keys := nodup_groupOn xs
  groups g hg := (mem_groupOn_iff.mp hg).1
  covers x hx := by
    obtain ⟨g, hg, named, -⟩ := exists_mem_groupOn key hx
    exact mem_map.mpr ⟨g, hg, named⟩
  named g hg := (mem_groupOn hg).1

/-- Counted key by key, elements are counted once if no key is missing and none is there twice. -/
theorem sumOf_countP_keys (key : α → κ) {ks : List κ} (distinct : ks.Nodup)
    (known : ∀ x ∈ xs, key x ∈ ks) : sumOf (ks.map fun k => xs.countP fun x => key x == k) = xs.length := by
  induction ks generalizing xs with
  | nil =>
    cases xs with
    | nil => rfl
    | cons x xs => exact absurd (known x mem_cons_self) not_mem_nil
  | cons k ks ih =>
    obtain ⟨new, distinct⟩ := nodup_cons.mp distinct
    let others := xs.filter fun x => !(key x == k)
    have rest : sumOf (ks.map fun j => others.countP fun x => key x == j) = others.length := by
      refine ih distinct fun x hx => ?_
      obtain ⟨hx, other⟩ := mem_filter.mp hx
      exact (mem_cons.mp (known x hx)).resolve_left (by simpa using other)
    have same : ∀ j ∈ ks, others.countP (fun x => key x == j) = xs.countP fun x => key x == j := by
      intro j hj
      rw [countP_filter]
      refine countP_congr fun x _ => ?_
      have : j ≠ k := fun same => new (same ▸ hj)
      grind
    rw [map_cons, sumOf_cons, ← map_congr_left same, rest, ← countP_eq_length_filter]
    simpa using (length_eq_countP_add_countP (fun x => key x == k) (l := xs)).symm

theorem sumOf_countP_groupOn (p : α → Bool) (xs : List α) :
    sumOf ((groupOn key xs).map fun g => g.2.countP p) = xs.countP p := by
  have groups : AreGroups key xs (groupOn key xs) := areGroups_groupOn xs
  have known : ∀ x ∈ xs.filter p, key x ∈ (groupOn key xs).map (·.1) := fun x hx =>
    groups.covers x (mem_filter.mp hx).1
  rw [countP_eq_length_filter, ← sumOf_countP_keys key groups.keys known, map_map]
  refine congrArg sumOf (map_congr_left fun g hg => ?_)
  rw [Function.comp_apply, groups.groups g hg, countP_filter, countP_filter]
  simp only [Bool.and_comm]

theorem groupOn_eq_singleton {k : κ} (h : ∀ x ∈ xs, key x = k) (some : xs ≠ []) :
    groupOn key xs = [(k, xs)] := by
  induction xs using List.reverseRecOn with
  | nil => exact absurd rfl some
  | append_singleton xs x ih =>
    obtain ⟨before, last⟩ := forall_mem_append.mp h
    rw [groupOn, foldl_append]
    cases xs with
    | nil => simp_all [addToGroup]
    | cons y ys =>
      have front := ih before (cons_ne_nil y ys)
      rw [groupOn] at front
      rw [front]
      simp_all [addToGroup]

end LuaTune
