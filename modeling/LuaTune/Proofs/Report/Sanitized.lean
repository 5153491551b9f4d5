import LuaTune.Report.Basic

/-!
# Details of saved reports

What a saved report shows of a finding has no part of the syntax tree left, at any depth, and is
otherwise what the finding says.
-/

namespace LuaTune

open List

variable {d : Detail} {ds : Details}

/-! ## Plain details -/

/-- Scalars, flat lists of them, and records of plain details under keys that are shown. -/
inductive Detail.IsPlain : Detail → Prop
  | scalar {d : Detail} (h : d.isScalar) : d.IsPlain
  | list {ds : List Detail} (h : ∀ d ∈ ds, d.isScalar) : (Detail.list ds).IsPlain
  | record {ds : Details} (shown : ∀ e ∈ ds, e.1 ∉ Details.hiddenKeys) (plain : ∀ e ∈ ds, e.2.IsPlain) :
    (Detail.record ds).IsPlain

theorem Detail.isScalar_scalarOrText (d : Detail) : d.scalarOrText.isScalar := by
  unfold scalarOrText
  split
  · assumption
  · rfl

theorem Detail.scalarOrText_of_isScalar (h : d.isScalar) : d.scalarOrText = d := if_pos h

theorem Details.mem_visible {e : String × Detail} : e ∈ ds.visible ↔ e ∈ ds ∧ e.1 ∉ hiddenKeys := by
  rw [visible, mem_filter]
  simp

theorem sanitizedEntries_eq_map (ds : Details) : sanitizedEntries ds = ds.map fun e => (e.1, e.2.sanitized) := by
  induction ds with
  | nil => rfl
  | cons e ds ih => rw [sanitizedEntries, ih, map_cons]

theorem Detail.isPlain_record_visible (h : ∀ e ∈ ds, e.2.IsPlain) : (Detail.record ds.visible).IsPlain :=
  .record (fun _ he => (Details.mem_visible.mp he).2) fun e he => h e (Details.mem_visible.mp he).1

theorem Detail.isPlain_names (cs : List Analysis.Call) : (Detail.names cs).IsPlain :=
  .list (forall_mem_map.mpr fun _ _ => rfl)

mutual

theorem Detail.isPlain_sanitized : (d : Detail) → d.sanitized.IsPlain
  | .list _ => .list (forall_mem_map.mpr fun d _ => d.isScalar_scalarOrText)
  | .calls cs => Detail.isPlain_names cs
  | .record ds => Detail.isPlain_record_visible (isPlain_sanitizedEntries ds)
  | .callsByName _ => Detail.isPlain_record_visible (forall_mem_map.mpr fun g _ => Detail.isPlain_names g.2)
  | .none | .bool _ | .int _ | .float _ | .notANumber | .text _ | .node _ | .scope _ _ | .foreign _ => .scalar rfl

theorem isPlain_sanitizedEntries : (ds : Details) → ∀ e ∈ sanitizedEntries ds, e.2.IsPlain
  | [] => fun _ he => absurd he not_mem_nil
  | e :: ds => forall_mem_cons.mpr ⟨e.2.isPlain_sanitized, isPlain_sanitizedEntries ds⟩

end

theorem Detail.IsPlain.sanitized_eq (h : d.IsPlain) : d.sanitized = d := by
  induction h with
  | @scalar d h => cases d <;> first | rfl | cases h
  | @list ds h =>
    have same : ds.map scalarOrText = ds.map id := map_congr_left fun d hd => scalarOrText_of_isScalar (h d hd)
    rw [sanitized, same, map_id]
  | @record ds shown plain ih =>
    have same : ds.map (fun e => (e.1, e.2.sanitized)) = ds.map id := map_congr_left fun e he => by rw [ih e he]; rfl
    rw [sanitized, sanitizedEntries_eq_map, same, map_id]
    exact congrArg _ (filter_eq_self.mpr fun e he => by simpa using shown e he)

/-! ## What is kept -/

namespace Detail

def items? : Detail → Option (List Detail)
  | .list ds => some ds
  | .calls cs => some (cs.map fun c => .foreign c.fullName)
  | _ => Option.none

def entries? : Detail → Option Details
  | .record ds => some ds
  | .callsByName gs => some (gs.map fun g => (g.1, .calls g.2))
  | _ => Option.none

/-- What stands in a record under a path of keys. -/
def at? (d : Detail) : List String → Option Detail
  | [] => some d
  | k :: path => (d.entries?.bind (Details.get? · k)).bind (at? · path)

theorem sanitized_of_items? {xs : List Detail} (h : d.items? = some xs) :
    d.sanitized = .list (xs.map scalarOrText) := by
  cases d with
  | list ds =>
    cases h
    rfl
  | calls cs =>
    cases h
    rw [sanitized, names, map_map]
    rfl
  | _ => cases h

theorem entries?_sanitized (d : Detail) : d.sanitized.entries? = d.entries?.map Details.sanitized := by
  cases d with
  | callsByName gs =>
    rw [sanitized, entries?, entries?, Option.map_some, Details.sanitized, sanitizedEntries_eq_map, map_map]
    rfl
  | _ => rfl

end Detail

theorem Details.get?_sanitized (ds : Details) (k : String) :
    ds.sanitized.get? k = if k ∈ hiddenKeys then none else (ds.get? k).map Detail.sanitized := by
  rw [sanitized, sanitizedEntries_eq_map]
  induction ds with
  | nil => simp [visible, get?]
  | cons e ds ih =>
    rw [map_cons, visible, filter_cons, ← visible]
    by_cases here : e.1 = k
    · subst here
      split
      · next shown => simp_all [get?]
      · next hidden => simp_all [get?]
    · have other : Details.get? (e :: ds) k = Details.get? ds k := by simp [get?, here]
      rw [other, ← ih]
      split
      · simp [get?, here]
      · rfl

namespace Detail

theorem at?_sanitized (d : Detail) (path : List String) : d.sanitized.at? path =
    if ∀ k ∈ path, k ∉ Details.hiddenKeys then (d.at? path).map sanitized else Option.none := by
  induction path generalizing d with
  | nil => simp [at?]
  | cons k path ih =>
    rw [at?, at?, entries?_sanitized]
    cases d.entries? with
    | none => simp
    | some ds =>
      rw [Option.map_some, Option.bind_some, Option.bind_some, Details.get?_sanitized]
      by_cases hidden : k ∈ Details.hiddenKeys
      · simp [hidden]
      · cases ds.get? k with
        | none => simp [hidden]
        | some inner => simp [hidden, ih]

/-- The value `v` is shown for the detail `d`. -/
structure IsShown (d v : Detail) : Prop where
  scalar : d.isScalar → v = d
  list : ∀ xs, d.items? = some xs → ∃ ys, v = .list ys ∧ ys.length = xs.length ∧
    ∀ (i : Nat) (x : Detail), xs[i]? = some x → x.isScalar → ys[i]? = some x
  record : d.entries?.isSome → v.entries?.isSome
  other : ¬d.isScalar → d.items? = Option.none → d.entries? = Option.none → v = .text d.shown

theorem isShown_sanitized (d : Detail) : d.IsShown d.sanitized where
  scalar h := (IsPlain.scalar h).sanitized_eq
  list xs h := by
    refine ⟨_, sanitized_of_items? h, length_map _, fun i x found scalar => ?_⟩
    rw [getElem?_map, found, Option.map_some, scalarOrText_of_isScalar scalar]
  record h := by rw [entries?_sanitized, Option.isSome_map, h]
  other object noList noRecord := by
    cases d with
    | list | calls => cases noList
    | record | callsByName => cases noRecord
    | node | scope | foreign => rfl
    | _ => exact absurd rfl object

end Detail

/-- Read as a report shows them, the details `ds` are `shown`. -/
structure Details.AreShown (ds shown : Details) : Prop where
  plain : (Detail.record shown).IsPlain
  places : ∀ path, ((Detail.record shown).at? path).isSome ↔
    ((Detail.record ds).at? path).isSome ∧ ∀ k ∈ path, k ∉ hiddenKeys
  values : ∀ path d v, (Detail.record ds).at? path = some d → (Detail.record shown).at? path = some v → d.IsShown v

/-- Sanitized details are plain and say what the details said, so there is nothing left to sanitize. -/
theorem sanitized_plain (ds : Details) : ds.AreShown ds.sanitized ∧ ds.sanitized.sanitized = ds.sanitized := by
  have whole : (Detail.record ds).sanitized = .record ds.sanitized := rfl
  have plain := (Detail.record ds).isPlain_sanitized
  have found := (Detail.record ds).at?_sanitized
  rw [whole] at plain found
  refine ⟨⟨plain, fun path => ?_, fun path d v before after => ?_⟩, Detail.record.inj plain.sanitized_eq⟩
  · rw [found]
    split
    · next shown => rw [Option.isSome_map, and_iff_left shown]
    · next hidden => simp [hidden]
  · rw [found, before] at after
    split at after
    · cases after
      exact d.isShown_sanitized
    · cases after

end LuaTune
