import LuaTune.Fix.Script
import Mathlib.Tactic.Common
import Mathlib.Data.List.Pairwise

/-!
# Which edits are retained

An insertion takes no place, so a replacement that is considered later may reach over it; and an
insertion at the very start of a replacement does not reach into it. These are the two ways in which
a replacement cuts an insertion.
-/

namespace LuaTune.Fix

namespace Edit

open List

variable {i r e : Edit} {es : List Edit}

/-- The edit reaches into the place that another one takes. -/
def Reaches (e r : Edit) : Prop := ∃ x b, e.stop = some x ∧ r.stop = some b ∧ e.start < b ∧ r.start < x

/-- The edit replaces the character at an offset. -/
def Covers (r : Edit) (p : Int) : Prop := r.isInsertion = false ∧ r.start ≤ p ∧ ∃ b ∈ r.stop, p < b

/-- One of the edits is an insertion at a place where another one replaces what was there. -/
def CutsInsertion (es : List Edit) : Prop := ∃ i ∈ es, i.isInsertion ∧ ∃ r ∈ es, r.Covers i.start

instance (r : Edit) (p : Int) : Decidable (r.Covers p) :=
  inferInstanceAs (Decidable (_ ∧ _ ∧ ∃ b ∈ r.stop, p < b))

instance (es : List Edit) : Decidable (CutsInsertion es) :=
  inferInstanceAs (Decidable (∃ i ∈ es, _))

theorem stop_of_isInsertion (h : i.isInsertion) : i.stop = some i.start := eq_of_beq h

theorem reaches_of_isInsertion (h : i.isInsertion) :
    i.Reaches r ↔ r.start < i.start ∧ ∃ b ∈ r.stop, i.start < b := by
  unfold Reaches
  rw [stop_of_isInsertion h]
  constructor
  · rintro ⟨x, b, hx, hb, front, behind⟩
    obtain rfl := Option.some.inj hx
    exact ⟨behind, b, hb, front⟩
  · rintro ⟨behind, b, hb, front⟩
    exact ⟨_, b, rfl, hb, front, behind⟩

def range (e : Edit) : Int × Option Int := (e.start, e.stop)

theorem overlaps_eq_ok {b : Bool} (h : e.overlaps r.range = .ok b) : b = true ↔ e.Reaches r := by
  unfold overlaps range at h
  unfold Reaches
  cases hr : r.stop with
  | none => simp [hr] at h
  | some y =>
    simp only [hr] at h
    split at h
    · cases he : e.stop with
      | none => simp [he] at h
      | some x =>
        simp only [he, Except.ok.injEq] at h
        subst h
        simp only [decide_eq_true_eq, Option.some.injEq, exists_eq_left', exists_and_left]
        exact ⟨fun front => ⟨‹_›, front⟩, And.right⟩
    · cases h
      simp only [Option.some.injEq, Bool.false_eq_true, false_iff, not_exists, not_and]
      rintro x _ - rfl behind
      exact absurd behind ‹_›

theorem overlapsAny_eq_ok {rs : List Edit} {b : Bool}
    (h : e.overlapsAny (rs.map range) = .ok b) : b = true ↔ ∃ r ∈ rs, e.Reaches r := by
  induction rs with
  | nil =>
    cases h
    simp
  | cons r rs ih =>
    rw [map_cons, overlapsAny] at h
    cases first : e.overlaps r.range with
    | error f => simp [first, bind, Except.bind] at h
    | ok c =>
      have reaches := overlaps_eq_ok first
      cases c with
      | true =>
        simp [first, bind, Except.bind, pure, Except.pure] at h
        simp [← h, reaches.mp rfl]
      | false =>
        have others := ih (by simpa [first, bind, Except.bind] using h)
        simpa [others] using fun hr => absurd (reaches.mpr hr) (by decide)

/-! ## The order -/

theorem precedes_iff {a b : Edit} : a.precedes b ↔
    b.priority < a.priority ∨ a.priority = b.priority ∧ b.start ≤ a.start := by
  simp [precedes]

theorem precedes_total (a b : Edit) : a.precedes b ∨ b.precedes a := by
  rw [precedes_iff, precedes_iff]
  omega

theorem precedes_trans (a b c : Edit) (hab : a.precedes b) (hbc : b.precedes c) : a.precedes c := by
  rw [precedes_iff] at *
  omega

theorem priority_le_of_precedes {a b : Edit} (h : a.precedes b) : b.priority ≤ a.priority := by
  rw [precedes_iff] at h
  omega

theorem priority_lt_of_precedes {a b : Edit} (h : a.precedes b) (front : a.start < b.start) :
    b.priority < a.priority := by
  rw [precedes_iff] at h
  omega

/-! ## One edit after the other -/

def considered (inserted : List (Int × Chars)) (e : Edit) : List (Int × Chars) :=
  if e.isInsertion then (e.start, e.text) :: inserted else inserted

def taking (taken : List Edit) (e : Edit) : List Edit :=
  if e.isInsertion then taken else taken ++ [e]

/-- What becomes of edits, given those that have taken their places and the insertions that were
considered before. -/
inductive Settled : List Edit → List (Int × Chars) → List Edit → List Edit → Prop
  | done {taken inserted} : Settled taken inserted [] []
  | repeated {taken inserted e es kept} : e.isInsertion → (e.start, e.text) ∈ inserted →
      Settled taken inserted es kept → Settled taken inserted (e :: es) kept
  | blocked {taken inserted e es kept} {r : Edit} : r ∈ taken → e.Reaches r →
      Settled taken (considered inserted e) es kept → Settled taken inserted (e :: es) kept
  | retained {taken inserted e es kept} : (e.isInsertion → (e.start, e.text) ∉ inserted) →
      (∀ r ∈ taken, ¬e.Reaches r) → Settled (taking taken e) (considered inserted e) es kept →
      Settled taken inserted (e :: es) (e :: kept)

theorem settled_of_retainFrom {taken : List Edit} {inserted : List (Int × Chars)}
    {kept : List Edit} (h : retainFrom (taken.map range) inserted es = .ok kept) :
    Settled taken inserted es kept := by
  induction es generalizing taken inserted kept with
  | nil =>
    cases h
    exact .done
  | cons e es ih =>
    rw [retainFrom] at h
    split at h
    · rename_i again
      rw [Bool.and_eq_true, contains_iff_mem] at again
      exact .repeated again.1 again.2 (ih h)
    · rename_i new
      rw [Bool.and_eq_true, contains_iff_mem, not_and] at new
      cases overlap : e.overlapsAny (taken.map range) with
      | error f => simp [overlap, bind, Except.bind] at h
      | ok b =>
        have reaches := overlapsAny_eq_ok overlap
        cases b with
        | true =>
          obtain ⟨r, hr, he⟩ := reaches.mp rfl
          simp only [overlap, bind, Except.bind, if_true] at h
          exact .blocked hr he (ih h)
        | false =>
          have free : ∀ r ∈ taken, ¬e.Reaches r := fun r hr he =>
            absurd (reaches.mpr ⟨r, hr, he⟩) (by decide)
          simp only [overlap, bind, Except.bind, Bool.false_eq_true, if_false] at h
          split at h
          · cases h
          · rename_i rest settled
            cases h
            refine .retained new free (ih ?_)
            rw [← settled, taking, considered]
            split <;> simp [range]

theorem priority_le_of_mem (sorted : (e :: es).Pairwise fun a b => a.precedes b) (hi : i ∈ e :: es) :
    i.priority ≤ e.priority := by
  rcases mem_cons.mp hi with rfl | hi
  · exact Int.le_refl _
  · exact priority_le_of_precedes (rel_of_pairwise_cons sorted hi)

theorem later_of_not_like {inserted : List (Int × Chars)}
    (hi : i ∈ e :: es) (insertion : i.isInsertion) (new : (i.start, i.text) ∉ inserted)
    (unlike : ¬(e.isInsertion ∧ (e.start, e.text) = (i.start, i.text))) :
    i ∈ es ∧ (i.start, i.text) ∉ considered inserted e := by
  constructor
  · rcases mem_cons.mp hi with rfl | hi
    · exact absurd ⟨insertion, rfl⟩ unlike
    · exact hi
  · unfold considered
    split
    · intro seen
      rcases mem_cons.mp seen with same | seen
      · exact unlike ⟨‹_›, same.symm⟩
      · exact new seen
    · exact new

theorem mem_taking {taken : List Edit} :
    r ∈ taking taken e ↔ r ∈ taken ∨ (r = e ∧ e.isInsertion = false) := by
  unfold taking
  split <;> simp [*]

namespace Settled

variable {taken es kept : List Edit} {inserted : List (Int × Chars)}

theorem sublist (h : Settled taken inserted es kept) : kept.Sublist es := by
  induction h with
  | done => exact .slnil
  | repeated _ _ _ ih => exact ih.cons _
  | blocked _ _ _ ih => exact ih.cons _
  | retained _ _ _ ih => exact ih.cons_cons _

theorem not_reaches (h : Settled taken inserted es kept) : ∀ e ∈ kept, ∀ r ∈ taken, ¬e.Reaches r := by
  induction h with
  | done => simp
  | repeated _ _ _ ih => exact ih
  | blocked _ _ _ ih => exact ih
  | @retained taken _ e _ _ _ free _ ih =>
    intro e' he' r hr
    rcases mem_cons.mp he' with rfl | he'
    · exact free r hr
    · exact ih e' he' r (mem_taking.mpr (.inl hr))

theorem apart (h : Settled taken inserted es kept) :
    kept.Pairwise fun r e => r.isInsertion = false → ¬e.Reaches r := by
  induction h with
  | done => exact .nil
  | repeated _ _ _ ih => exact ih
  | blocked _ _ _ ih => exact ih
  | @retained taken _ r _ _ _ _ rest ih =>
    refine pairwise_cons.mpr ⟨fun e he replaces => ?_, ih⟩
    exact rest.not_reaches e he r (mem_taking.mpr (.inr ⟨rfl, replaces⟩))

theorem fate_of_insertion (h : Settled taken inserted es kept)
    (sorted : es.Pairwise fun a b => a.precedes b)
    (first : ∀ r ∈ taken, r.isInsertion = false ∧ ∀ e ∈ es, r.precedes e) {i : Edit} (hi : i ∈ es)
    (insertion : i.isInsertion) (new : (i.start, i.text) ∉ inserted) :
    (∃ j ∈ kept, j.isInsertion ∧ j.start = i.start) ∨
      ∃ r, (r ∈ taken ∨ r ∈ kept) ∧ r.isInsertion = false ∧ i.Reaches r ∧ i.priority < r.priority := by
  induction h with
  | done => simp at hi
  | @repeated taken inserted e es kept _ seen _ ih =>
    obtain ⟨_, sorted⟩ := pairwise_cons.mp sorted
    have first := fun r hr => (first r hr).imp id fun h e he => h e (mem_cons_of_mem _ he)
    rcases mem_cons.mp hi with rfl | hi
    · exact absurd seen new
    · exact ih sorted first hi new
  | @blocked taken inserted e es kept r hr reaches _ ih =>
    by_cases like : e.isInsertion ∧ (e.start, e.text) = (i.start, i.text)
    · obtain ⟨ins, same⟩ := like
      obtain ⟨start, -⟩ := Prod.mk.inj same
      obtain ⟨behind, inside⟩ := (reaches_of_isInsertion ins).mp reaches
      have higher := priority_lt_of_precedes ((first r hr).2 e mem_cons_self) behind
      have lower := priority_le_of_mem sorted hi
      refine .inr ⟨r, .inl hr, (first r hr).1, (reaches_of_isInsertion insertion).mpr ?_, by omega⟩
      rw [← start]
      exact ⟨behind, inside⟩
    · obtain ⟨hi, new⟩ := later_of_not_like hi insertion new like
      have first := fun r hr => (first r hr).imp id fun h e he => h e (mem_cons_of_mem _ he)
      exact ih sorted.of_cons first hi new
  | @retained taken inserted e es kept _ free _ ih =>
    by_cases like : e.isInsertion ∧ (e.start, e.text) = (i.start, i.text)
    · exact .inl ⟨e, mem_cons_self, like.1, (Prod.mk.inj like.2).1⟩
    · obtain ⟨hi, new⟩ := later_of_not_like hi insertion new like
      have first : ∀ r ∈ taking taken e, r.isInsertion = false ∧ ∀ e ∈ es, r.precedes e := by
        intro r hr
        rcases mem_taking.mp hr with hr | ⟨rfl, replaces⟩
        · exact (first r hr).imp id fun h e he => h e (mem_cons_of_mem _ he)
        · exact ⟨replaces, fun e he => rel_of_pairwise_cons sorted he⟩
      rcases ih sorted.of_cons first hi new with ⟨j, hj, same⟩ | ⟨r, hr, cut⟩
      · exact .inl ⟨j, mem_cons_of_mem e hj, same⟩
      · refine .inr ⟨r, ?_, cut⟩
        rcases hr with hr | hr
        · rcases mem_taking.mp hr with hr | ⟨rfl, -⟩
          · exact .inl hr
          · exact .inr mem_cons_self
        · exact .inr (mem_cons_of_mem e hr)

theorem fate_of_replacement (h : Settled taken inserted es kept) {e : Edit} (he : e ∈ es)
    (replaces : e.isInsertion = false) : e ∈ kept ∨ ∃ r, (r ∈ taken ∨ r ∈ kept) ∧ e.Reaches r := by
  induction h with
  | done => cases he
  | repeated insertion _ _ ih =>
    rcases mem_cons.mp he with rfl | he
    · exact absurd (insertion.symm.trans replaces) nofun
    · exact ih he
  | @blocked _ _ _ _ _ r hr reaches _ ih =>
    rcases mem_cons.mp he with rfl | he
    · exact .inr ⟨r, .inl hr, reaches⟩
    · exact ih he
  | @retained taken _ e' _ _ _ _ _ ih =>
    rcases mem_cons.mp he with rfl | he
    · exact .inl mem_cons_self
    · refine (ih he).imp (mem_cons_of_mem _) ?_
      rintro ⟨r, hr | hr, reaches⟩
      · rcases mem_taking.mp hr with hr | ⟨rfl, -⟩
        · exact ⟨r, .inl hr, reaches⟩
        · exact ⟨r, .inr mem_cons_self, reaches⟩
      · exact ⟨r, .inr (mem_cons_of_mem _ hr), reaches⟩

end Settled

/-! ## Cuts -/

variable {es kept : List Edit}

theorem settled_of_retain (h : retain es = .ok kept) : Settled [] [] (sort es) kept :=
  settled_of_retainFrom h

theorem sort_pairwise (es : List Edit) : (sort es).Pairwise fun a b => a.precedes b :=
  sortBy_pairwise precedes_total precedes_trans es

def StandsBefore (a b : Edit) : Prop := a.precedes b ∧ (a.isInsertion = false → ¬b.Reaches a)

theorem standsBefore_of_mem (h : retain es = .ok kept) {a b : Edit} (ha : a ∈ kept) (hb : b ∈ kept)
    (ne : a ≠ b) : a.StandsBefore b ∨ b.StandsBefore a := by
  have settled := settled_of_retain h
  have ordered := ((sort_pairwise es).sublist settled.sublist).and settled.apart
  have : Std.Symm fun a b : Edit => a.StandsBefore b ∨ b.StandsBefore a := ⟨fun _ _ => Or.symm⟩
  have either : kept.Pairwise fun a b => a.StandsBefore b ∨ b.StandsBefore a :=
    ordered.imp fun before => .inl before
  exact either.forall ha hb ne

theorem eq_of_covers (h : retain es = .ok kept) {r r' : Edit} (hr : r ∈ kept) (hr' : r' ∈ kept)
    {p : Int} (covers : r.Covers p) (covers' : r'.Covers p) : r = r' := by
  obtain ⟨replaces, start, b, hb, stop⟩ := covers
  obtain ⟨replaces', start', b', hb', stop'⟩ := covers'
  by_contra ne
  rcases standsBefore_of_mem h hr hr' ne with ⟨-, apart⟩ | ⟨-, apart⟩
  · exact apart replaces ⟨b', b, hb', hb, by omega, by omega⟩
  · exact apart replaces' ⟨b, b', hb, hb', by omega, by omega⟩

/-- A replacement that is retained cuts an insertion exactly if it covers the place of an insertion
and either starts there or has no higher priority. -/
theorem cutsInsertion_iff (h : retain es = .ok kept) : CutsInsertion kept ↔
      ∃ i ∈ es, i.isInsertion ∧ ∃ r ∈ kept, r.Covers i.start ∧
        (r.start = i.start ∨ r.priority ≤ i.priority) := by
  have settled := settled_of_retain h
  constructor
  · rintro ⟨i, hi, insertion, r, hr, covers⟩
    refine ⟨i, mem_sortBy.mp (settled.sublist.subset hi), insertion, r, hr, covers, ?_⟩
    obtain ⟨replaces, start, inside⟩ := covers
    have ne : r ≠ i := by
      rintro rfl
      simp [insertion] at replaces
    rcases standsBefore_of_mem h hr hi ne with ⟨-, apart⟩ | ⟨first, -⟩
    · have front := mt (reaches_of_isInsertion insertion).mpr (apart replaces)
      exact .inl (by_contra fun ne => front ⟨by omega, inside⟩)
    · exact .inr (priority_le_of_precedes first)
  · rintro ⟨i, hi, insertion, r, hr, covers, cut⟩
    rcases settled.fate_of_insertion (sort_pairwise es) (by simp) (mem_sortBy.mpr hi) insertion
      (by simp) with ⟨j, hj, insertion', same⟩ | ⟨r', hr', replaces, reaches, higher⟩
    · exact ⟨j, hj, insertion', r, hr, same ▸ covers⟩
    · obtain ⟨behind, inside⟩ := (reaches_of_isInsertion insertion).mp reaches
      have hr' := hr'.resolve_left not_mem_nil
      obtain rfl := eq_of_covers h hr hr' covers ⟨replaces, Int.le_of_lt behind, inside⟩
      omega

end Edit

variable {o : Options} {source : Chars} {fixed : Fixed}

/-! ## Fixing a script -/

/-- The edits for all findings about a source text. -/
def generatedEdits (o : Options) (source : Chars) : Except Fault (List Edit) :=
  ((analyzeSource {} source).mapError .analysis).map (sourceEdits o source)

theorem fixFindings_eq_ok {findings : List Finding} (h : fixFindings o source findings = .ok fixed) :
    ∃ kept, Edit.retain (sourceEdits o source findings) = .ok kept ∧
      fixed.content = Edit.applyAll kept source := by
  unfold fixFindings at h
  split at h
  · rename_i none
    cases h
    exact ⟨[], by rw [none]; rfl, rfl⟩
  · unfold Edit.apply at h
    cases settled : Edit.retain (sourceEdits o source findings) with
    | error f => simp [settled, bind, Except.bind] at h
    | ok kept =>
      simp only [settled, bind, Except.bind, pure, Except.pure] at h
      refine ⟨kept, rfl, ?_⟩
      split at h
      · rename_i same
        cases h
        exact (eq_of_beq same).symm
      · cases h
        rfl

theorem fixSource_findings (h : fixSource o source = .ok fixed) :
    ∃ findings, analyzeSource {} source = .ok findings ∧ fixFindings o source findings = .ok fixed := by
  unfold fixSource at h
  cases analyzed : analyzeSource {} source with
  | error f => simp [analyzed, Except.mapError, bind, Except.bind] at h
  | ok findings =>
    cases applied : fixFindings o source findings with
    | error f => simp [analyzed, applied, Except.mapError, bind, Except.bind] at h
    | ok fixed' =>
      obtain rfl : fixed' = fixed := by
        simpa [analyzed, applied, Except.mapError, bind, Except.bind] using h
      exact ⟨findings, rfl, applied⟩

theorem fixSource_eq_ok (h : fixSource o source = .ok fixed) :
    ∃ es kept, generatedEdits o source = .ok es ∧ Edit.retain es = .ok kept ∧
      fixed.content = Edit.applyAll kept source := by
  obtain ⟨findings, analyzed, applied⟩ := fixSource_findings h
  obtain ⟨kept, settled, content⟩ := fixFindings_eq_ok applied
  refine ⟨_, kept, ?_, settled, content⟩
  rw [generatedEdits, analyzed]
  rfl

/-- Fixing a script applies the edits that are retained, and among these a replacement cuts an
insertion exactly if one that is retained covers the place of an insertion that was asked for, and
starts there or has no higher priority. -/
theorem insertion_cut_iff {o : Options} {source : Chars} {fixed : Fixed}
    (h : fixSource o source = .ok fixed) :
    ∃ es kept, generatedEdits o source = .ok es ∧ Edit.retain es = .ok kept ∧
      fixed.content = Edit.applyAll kept source ∧
      (Edit.CutsInsertion kept ↔ ∃ i ∈ es, i.isInsertion ∧ ∃ r ∈ kept, r.Covers i.start ∧
          (r.start = i.start ∨ r.priority ≤ i.priority)) := by
  obtain ⟨es, kept, generated, settled, content⟩ := fixSource_eq_ok h
  exact ⟨es, kept, generated, settled, content, Edit.cutsInsertion_iff settled⟩

def callsAtLineStart : Chars :=
  "PlayerPedId()\nPlayerPedId()\nPlayerPedId()\nPlayerPedId()\n".toList

theorem insertion_cut_iff_callsAtLineStart :
    ∃ fixed es kept, fixSource {} callsAtLineStart = .ok fixed ∧
      generatedEdits {} callsAtLineStart = .ok es ∧ Edit.retain es = .ok kept ∧
      (Edit.CutsInsertion kept ↔ ∃ i ∈ es, i.isInsertion ∧ ∃ r ∈ kept, r.Covers i.start ∧
          (r.start = i.start ∨ r.priority ≤ i.priority)) := by
  have ends : (fixSource {} callsAtLineStart).isOk = true := by decide +kernel
  cases h : fixSource {} callsAtLineStart with
  | error f => simp [h, Except.isOk, Except.toBool] at ends
  | ok fixed =>
    obtain ⟨es, kept, generated, settled, -, cuts⟩ := insertion_cut_iff h
    exact ⟨fixed, es, kept, rfl, generated, settled, cuts⟩

/-- The declaration of the copy is inserted where the first call starts, and the use of the copy in
place of that call takes the first characters of the declaration away. -/
theorem declaration_cut_by_first_use : (Lua.Chunk.parse? callsAtLineStart).isSome ∧
      (∃ es ∈ (generatedEdits {} callsAtLineStart).toOption, ∃ kept ∈ (Edit.retain es).toOption,
        Edit.CutsInsertion kept) ∧
      ∃ fixed ∈ (fixSource {} callsAtLineStart).toOption,
        fixed.content = "pedlayerPedId()\nPlayerPedId()\nped\nped\nped\n".toList := by
  decide +kernel

end LuaTune.Fix
