import LuaTune.Proofs.Fix.Pieces
import Mathlib.Data.List.Basic
import Mathlib.Data.List.Induction

/-!
# Edits as one substitution

Edits are applied one after the other to a text that earlier ones have changed. If each ends where
those applied before it start, or in front of them, what comes out is what one substitution makes of
the text as it was.
-/

namespace LuaTune

open List

variable {α : Type} {le : α → α → Bool}

theorem filter_sortBy {p : α → Bool} (h : ∀ x y, p x → p y → le x y) (xs : List α) :
    (sortBy le xs).filter p = xs.filter p := by
  have insert : ∀ x ys, (insertBy le x ys).filter p = (x :: ys).filter p := by
    intro x ys
    induction ys with
    | nil => rfl
    | cons y ys ih =>
      unfold insertBy
      split
      · rfl
      · by_cases hy : p y
        · have hx : ¬p x := fun hx => ‹¬_› (h x y hx hy)
          rw [filter_cons_of_pos hy, ih, filter_cons_of_neg hx, filter_cons_of_neg hx,
            filter_cons_of_pos hy]
        · rw [filter_cons_of_neg hy, ih, filter_cons, filter_cons, filter_cons_of_neg hy]
  induction xs with
  | nil => rfl
  | cons x xs ih =>
    show (insertBy le x (sortBy le xs)).filter p = _
    rw [insert, filter_cons, filter_cons, ih]

end LuaTune

namespace LuaTune.Fix.Edit

open List

variable {es kept : List Edit} {e : Edit} {text rest : Chars} {a b i : Nat}

/-! ## The substitution -/

/-- The range of the edit lies in the text. -/
def LiesIn (e : Edit) (text : Chars) : Prop :=
  0 ≤ e.start ∧ ∃ x ∈ e.stop, e.start ≤ x ∧ x ≤ text.length

instance (e : Edit) (text : Chars) : Decidable (e.LiesIn text) :=
  inferInstanceAs (Decidable (_ ∧ ∃ x ∈ e.stop, _))

def insertedAt (es : List Edit) (i : Nat) : Chars :=
  (es.filter fun e => e.isInsertion && e.start == (i : Int)).reverse.flatMap (·.text)

def replacingAt (es : List Edit) (i : Nat) : Chars :=
  (es.filter fun e => !e.isInsertion && e.start == (i : Int)).flatMap (·.text)

def keptAt (es : List Edit) (text : Chars) (i : Nat) : Chars :=
  if ∃ r ∈ es, r.Covers i then [] else text[i]?.toList

def comesAt (es : List Edit) (text : Chars) (i : Nat) : Chars :=
  insertedAt es i ++ replacingAt es i ++ keptAt es text i

/-- All edits made at once, each at its place in the text. -/
def substitute (es : List Edit) (text : Chars) : Chars :=
  (List.range (text.length + 1)).flatMap (comesAt es text)

def comingFrom (es : List Edit) (text : Chars) (a : Nat) : Chars :=
  (List.range' a (text.length + 1 - a)).flatMap (comesAt es text)

/-! ## Offsets in front of all edits -/

theorem filter_start_eq_nil (h : ∀ r ∈ es, (i : Int) < r.start) (p : Edit → Bool) :
    es.filter (fun e => p e && e.start == (i : Int)) = [] := by
  refine filter_eq_nil_iff.mpr fun r hr => ?_
  have := h r hr
  simp only [Bool.and_eq_true, beq_iff_eq, not_and]
  omega

theorem comesAt_of_lt (h : ∀ r ∈ es, (i : Int) < r.start) : comesAt es text i = text[i]?.toList := by
  have uncovered : ¬∃ r ∈ es, r.Covers i := by
    rintro ⟨r, hr, -, front, -⟩
    have := h r hr
    omega
  unfold comesAt insertedAt replacingAt keptAt
  rw [filter_start_eq_nil h, filter_start_eq_nil h, if_neg uncovered]
  rfl

theorem flatMap_getElem? (text : Chars) (a k : Nat) :
    (List.range' a k).flatMap (fun i => text[i]?.toList) = (text.drop a).take k := by
  induction k generalizing a with
  | zero => simp
  | succ k ih =>
    rw [range'_succ, flatMap_cons, ih]
    cases h : text[a]? with
    | none =>
      have short : text.length ≤ a := List.getElem?_eq_none_iff.mp h
      simp [drop_eq_nil_of_le short, drop_eq_nil_of_le (Nat.le_succ_of_le short)]
    | some x =>
      obtain ⟨long, rfl⟩ := List.getElem?_eq_some_iff.mp h
      rw [drop_eq_getElem_cons long, take_succ_cons]
      rfl

theorem range'_cut {n : Nat} (order : a ≤ b) (inside : b ≤ n) :
    List.range' a (n - a) = List.range' a (b - a) ++ List.range' b (n - b) := by
  have cut := range'_append_1 (s := a) (m := b - a) (n := n - b)
  rw [Nat.add_sub_cancel' order] at cut
  rw [cut]
  congr 1
  omega

theorem substitute_eq (h : ∀ r ∈ es, (a : Int) ≤ r.start) (inside : a ≤ text.length) :
    substitute es text = text.take a ++ comingFrom es text a := by
  have front : (List.range' 0 a).flatMap (comesAt es text) = text.take a := by
    have same := flatMap_getElem? text 0 a
    rw [drop_zero] at same
    rw [← same]
    refine flatMap_congr fun i hi => comesAt_of_lt fun r hr => ?_
    have := h r hr
    have := (mem_range'_1.mp hi).2
    omega
  have cut : List.range (text.length + 1) = List.range' 0 a ++ List.range' a (text.length + 1 - a) := by
    rw [range_eq_range']
    exact range'_cut (Nat.zero_le a) (Nat.le_succ_of_le inside)
  unfold substitute comingFrom
  rw [cut, flatMap_append, front]

theorem substitute_nil (text : Chars) : substitute [] text = text := by
  have untouched : ∀ i, comesAt [] text i = text[i]?.toList := fun i => comesAt_of_lt (by simp)
  unfold substitute
  rw [flatMap_congr fun i _ => untouched i, range_eq_range', flatMap_getElem?, drop_zero,
    take_of_length_le (Nat.le_succ _)]

/-! ## One more edit -/

theorem comesAt_concat_of_ge (stop : e.stop = some (b : Int)) (after : b ≤ i)
    (other : e.start ≠ i) : comesAt (es ++ [e]) text i = comesAt es text i := by
  have apart : (e.start == (i : Int)) = false := beq_eq_false_iff_ne.mpr other
  have uncovered : ¬e.Covers i := by
    rintro ⟨-, -, x, hx, front⟩
    obtain rfl := Option.some.inj (stop.symm.trans hx)
    omega
  unfold comesAt insertedAt replacingAt keptAt
  simp [filter_append, apart, uncovered]

theorem comesAt_concat_of_isInsertion (insertion : e.isInsertion) (start : e.start = a) :
    comesAt (es ++ [e]) text a = e.text ++ comesAt es text a := by
  have uncovered : ¬e.Covers a := by
    rintro ⟨replaces, -⟩
    simp [insertion] at replaces
  unfold comesAt insertedAt replacingAt keptAt
  simp [filter_append, insertion, start, uncovered]

theorem comesAt_concat_of_covers (covers : e.Covers i) (h : ∀ r ∈ es, (i : Int) < r.start) :
    comesAt (es ++ [e]) text i = if e.start = i then e.text else [] := by
  have replaces := covers.1
  have covered : ∃ r ∈ es ++ [e], r.Covers i := ⟨e, by simp, covers⟩
  unfold comesAt insertedAt replacingAt keptAt
  rw [if_pos covered, filter_append, filter_append, filter_start_eq_nil h, filter_start_eq_nil h]
  by_cases start : e.start = i
  · simp [replaces, start]
  · simp [replaces, start]

theorem flatMap_comesAt_covered (start : e.start = a) (wide : a < b)
    (covers : ∀ i : Nat, a ≤ i → i < b → e.Covers i) (h : ∀ r ∈ es, (b : Int) ≤ r.start) :
    (List.range' a (b - a)).flatMap (comesAt (es ++ [e]) text) = e.text := by
  have clear : ∀ i, a ≤ i → i < b → comesAt (es ++ [e]) text i = if a = i then e.text else [] := by
    intro i low high
    have front : ∀ r ∈ es, (i : Int) < r.start := fun r hr => by
      have := h r hr
      omega
    rw [comesAt_concat_of_covers (covers i low high) front, start]
    simp only [Int.natCast_inj]
  have others : (List.range' (a + 1) (b - a - 1)).flatMap (comesAt (es ++ [e]) text) = [] := by
    refine flatMap_eq_nil_iff.mpr fun i hi => ?_
    have := mem_range'_1.mp hi
    rw [clear i (by omega) (by omega), if_neg (by omega)]
  have first : b - a = b - a - 1 + 1 := by omega
  rw [first, range'_succ, flatMap_cons, others, clear a (Nat.le_refl a) wide, if_pos rfl, append_nil]

section

variable (start : e.start = a) (stop : e.stop = some (b : Int)) (inside : b ≤ text.length)
include start stop inside

theorem comingFrom_concat_of_isInsertion (insertion : e.isInsertion) :
    comingFrom (es ++ [e]) text a = e.text ++ comingFrom es text b := by
  obtain rfl : b = a := by
    have := Option.some.inj (stop.symm.trans (stop_of_isInsertion insertion))
    omega
  have first : text.length + 1 - b = text.length - b + 1 := by omega
  unfold comingFrom
  rw [first, range'_succ, flatMap_cons, flatMap_cons,
    comesAt_concat_of_isInsertion insertion start, append_assoc]
  congr 2
  refine flatMap_congr fun i hi => ?_
  have := (mem_range'_1.mp hi).1
  exact comesAt_concat_of_ge stop (by omega) (by omega)

theorem comingFrom_concat_of_replaces (replaces : e.isInsertion = false) (wide : a < b)
    (h : ∀ r ∈ es, (b : Int) ≤ r.start) :
    comingFrom (es ++ [e]) text a = e.text ++ comingFrom es text b := by
  have covers : ∀ i : Nat, a ≤ i → i < b → e.Covers i := fun i low high =>
    ⟨replaces, by omega, b, stop, by omega⟩
  unfold comingFrom
  rw [range'_cut (Nat.le_of_lt wide) (Nat.le_succ_of_le inside), flatMap_append,
    flatMap_comesAt_covered start wide covers h]
  congr 1
  refine flatMap_congr fun i hi => ?_
  have := (mem_range'_1.mp hi).1
  exact comesAt_concat_of_ge stop this (by omega)

theorem comingFrom_concat (order : a ≤ b) (h : ∀ r ∈ es, (b : Int) ≤ r.start) :
    comingFrom (es ++ [e]) text a = e.text ++ comingFrom es text b := by
  by_cases insertion : e.isInsertion
  · exact comingFrom_concat_of_isInsertion start stop inside insertion
  · have wide : a < b := by
      by_contra narrow
      obtain rfl : a = b := by omega
      exact insertion (by simp [isInsertion, start, stop])
    exact comingFrom_concat_of_replaces start stop inside (by simpa using insertion) wide h

end

theorem applyTo_take (start : e.start = a) (stop : e.stop = some (b : Int)) (order : a ≤ b)
    (inside : b ≤ text.length) : e.applyTo (text.take b ++ rest) = text.take a ++ e.text ++ rest := by
  obtain ⟨_, _, new, priority⟩ := e
  obtain rfl := start
  obtain rfl := stop
  have cut : text.take b = text.take a ++ (text.drop a).take (b - a) := by
    rw [← take_add, Nat.add_sub_cancel' order]
  have edit := applyTo_append (text.take a) ((text.drop a).take (b - a)) new rest priority
  rw [← cut, ← length_append, ← cut, length_take_of_le inside,
    length_take_of_le (Nat.le_trans order inside)] at edit
  exact edit

theorem applyTo_substitute (lies : e.LiesIn text) (h : ∀ r ∈ es, ∀ x ∈ e.stop, x ≤ r.start) :
    e.applyTo (substitute es text) = substitute (es ++ [e]) text := by
  obtain ⟨positive, x, stop, order, inside⟩ := lies
  obtain ⟨a, start⟩ := Int.eq_ofNat_of_zero_le positive
  obtain ⟨b, rfl⟩ := Int.eq_ofNat_of_zero_le (Int.le_trans positive order)
  have order : a ≤ b := by omega
  have inside : b ≤ text.length := by omega
  have behind : ∀ r ∈ es, (b : Int) ≤ r.start := fun r hr => h r hr b stop
  have front : ∀ r ∈ es ++ [e], (a : Int) ≤ r.start := by
    intro r hr
    rcases mem_append.mp hr with hr | hr
    · have := behind r hr
      omega
    · obtain rfl := mem_singleton.mp hr
      exact Int.le_of_eq start.symm
  rw [substitute_eq behind inside, applyTo_take start stop order inside,
    substitute_eq front (Nat.le_trans order inside), comingFrom_concat start stop inside order behind,
    append_assoc]

theorem foldl_applyTo (lie : ∀ e ∈ es, e.LiesIn text)
    (ordered : es.Pairwise fun r e => ∀ x ∈ e.stop, x ≤ r.start) :
    es.foldl (fun t e => e.applyTo t) text = substitute es text := by
  induction es using List.reverseRec with
  | nil => exact (substitute_nil text).symm
  | append_singleton es e ih =>
    obtain ⟨earlier, -, last⟩ := pairwise_append.mp ordered
    have done := ih (fun r hr => lie r (mem_append_left _ hr)) earlier
    rw [foldl_append, done, foldl_cons, foldl_nil]
    exact applyTo_substitute (lie e (by simp)) fun r hr => last r hr e (by simp)

/-! ## The edits that are retained -/

def Apart (r e : Edit) : Prop := r.isInsertion = false → e.isInsertion = false → ¬e.Reaches r

theorem reaches_comm {r e : Edit} : e.Reaches r ↔ r.Reaches e := by
  unfold Reaches
  constructor
  · rintro ⟨x, y, hx, hy, front, behind⟩
    exact ⟨y, x, hy, hx, behind, front⟩
  · rintro ⟨x, y, hx, hy, front, behind⟩
    exact ⟨y, x, hy, hx, behind, front⟩

theorem overlapsAny_isOk {rs : List Edit} (closed : ∀ r ∈ rs, r.stop.isSome) (stop : e.stop.isSome) :
    ∃ reaches, e.overlapsAny (rs.map range) = .ok reaches := by
  obtain ⟨x, hx⟩ := Option.isSome_iff_exists.mp stop
  induction rs with
  | nil => exact ⟨false, rfl⟩
  | cons r rs ih =>
    obtain ⟨y, hy⟩ := Option.isSome_iff_exists.mp (closed r mem_cons_self)
    have one : ∃ reaches, e.overlaps r.range = .ok reaches := by
      unfold overlaps range
      simp only [hx, hy]
      split
      · exact ⟨_, rfl⟩
      · exact ⟨_, rfl⟩
    obtain ⟨first, hf⟩ := one
    rw [map_cons, overlapsAny, hf]
    cases first with
    | true => exact ⟨true, rfl⟩
    | false => exact ih fun r' hr => closed r' (mem_cons_of_mem r hr)

theorem retainFrom_isOk {taken : List Edit} (inserted : List (Int × Chars))
    (closed : ∀ r ∈ taken, r.stop.isSome) (stops : ∀ e ∈ es, e.stop.isSome) :
    ∃ kept, retainFrom (taken.map range) inserted es = .ok kept := by
  induction es generalizing taken inserted with
  | nil => exact ⟨[], rfl⟩
  | cons e es ih =>
    have others := fun r hr => stops r (mem_cons_of_mem e hr)
    rw [retainFrom]
    split
    · exact ih inserted closed others
    · obtain ⟨reaches, hr⟩ := overlapsAny_isOk closed (stops e mem_cons_self)
      cases reaches with
      | true =>
        simp only [hr, bind, Except.bind, if_true]
        exact ih _ closed others
      | false =>
        have closed' : ∀ r ∈ taking taken e, r.stop.isSome := by
          intro r hr
          rcases mem_taking.mp hr with hr | ⟨rfl, -⟩
          · exact closed r hr
          · exact stops r mem_cons_self
        obtain ⟨kept, settled⟩ := ih (considered inserted e) closed' others
        have ranges : (taking taken e).map range =
            if e.isInsertion then taken.map range else taken.map range ++ [(e.start, e.stop)] := by
          unfold taking
          split
          · rfl
          · simp [range]
        rw [ranges, considered] at settled
        simp only [hr, bind, Except.bind, Bool.false_eq_true, if_false, settled]
        exact ⟨e :: kept, rfl⟩

theorem retain_isOk (lie : ∀ e ∈ es, e.LiesIn text) : ∃ kept, retain es = .ok kept := by
  have none : ∀ r ∈ ([] : List Edit), r.stop.isSome := by simp
  refine retainFrom_isOk [] none fun e he => ?_
  obtain ⟨-, x, stop, -⟩ := lie e (mem_sortBy.mp he)
  exact Option.isSome_of_mem stop

theorem mem_of_mem_retain (h : retain es = .ok kept) (he : e ∈ kept) : e ∈ es :=
  mem_sortBy.mp ((settled_of_retain h).sublist.subset he)

theorem retain_apart (h : retain es = .ok kept) : kept.Pairwise Apart :=
  (settled_of_retain h).apart.imp fun apart replaces _ => apart replaces

def backwards (es : List Edit) : List Edit := sortBy (fun a b => b.start ≤ a.start) es

theorem backwards_pairwise (es : List Edit) : (backwards es).Pairwise fun r e => e.start ≤ r.start := by
  have sorted : (backwards es).Pairwise fun r e => decide (e.start ≤ r.start) := by
    refine sortBy_pairwise (fun a b => ?_) (fun a b c => ?_) es
    · simp only [decide_eq_true_eq]
      omega
    · simp only [decide_eq_true_eq]
      omega
  exact sorted.imp of_decide_eq_true

theorem substitute_backwards (es : List Edit) (text : Chars) :
    substitute (backwards es) text = substitute es text := by
  have at' : ∀ (p : Edit → Bool) (i : Nat),
      (backwards es).filter (fun e => p e && e.start == (i : Int)) = es.filter fun e => p e && e.start == (i : Int) := by
    intro p i
    refine filter_sortBy (fun x y hx hy => ?_) es
    have := eq_of_beq (Bool.and_eq_true_iff.mp hx).2
    have := eq_of_beq (Bool.and_eq_true_iff.mp hy).2
    simp only [decide_eq_true_eq]
    omega
  unfold substitute comesAt insertedAt replacingAt keptAt
  refine flatMap_congr fun i _ => ?_
  have same : (∃ r ∈ backwards es, r.Covers i) ↔ ∃ r ∈ es, r.Covers i := by
    unfold backwards
    simp only [mem_sortBy]
  rw [at', at']
  simp only [same]

/-- Without cuts each edit ends where those that are applied before it start, or in front of them. -/
theorem backwards_ends (lie : ∀ e ∈ es, e.LiesIn text) (h : retain es = .ok kept)
    (uncut : ¬CutsInsertion kept) :
    (backwards kept).Pairwise fun r e => ∀ x ∈ e.stop, x ≤ r.start := by
  have apart : (backwards kept).Pairwise Apart := by
    refine ((sortBy_perm _ kept).pairwise_iff ?_).mpr (retain_apart h)
    exact fun apart replaces replaces' reaches => apart replaces' replaces (reaches_comm.mp reaches)
  refine ((backwards_pairwise kept).and apart).imp_of_mem ?_
  rintro r e hr he ⟨order, apart⟩ x stop
  by_contra behind
  by_cases insertion : e.isInsertion
  · obtain rfl := Option.some.inj (stop.symm.trans (stop_of_isInsertion insertion))
    exact behind order
  · have replaces : e.isInsertion = false := by simpa using insertion
    have covers : e.Covers r.start := ⟨replaces, order, x, stop, by omega⟩
    by_cases insertion' : r.isInsertion
    · exact uncut ⟨r, mem_sortBy.mp hr, insertion', e, mem_sortBy.mp he, covers⟩
    · obtain ⟨-, y, stop', wide, -⟩ := lie r (mem_of_mem_retain h (mem_sortBy.mp hr))
      have replaces' : r.isInsertion = false := by simpa using insertion'
      have ne : r.start ≠ y := by
        rintro rfl
        exact insertion' (by simp [isInsertion, Option.mem_def.mp stop'])
      exact apart replaces' replaces ⟨x, y, stop, stop', by omega, by omega⟩

/-- Edits whose ranges lie in a text can be settled and applied. No two that are retained replace the
same character. If none of them cuts an insertion, what comes out is the text with all of them made at
once: replacements stand in their ranges, insertions at their offsets, the last one that is retained in
front of the others, and the characters that are not replaced stay in order. -/
theorem apply_eq_substitute (lie : ∀ e ∈ es, e.LiesIn text) :
    ∃ kept, retain es = .ok kept ∧ kept.Pairwise Apart ∧
      (¬CutsInsertion kept → Edit.apply es text = .ok (substitute kept text)) := by
  obtain ⟨kept, settled⟩ := retain_isOk lie
  refine ⟨kept, settled, retain_apart settled, fun uncut => ?_⟩
  have applied : applyAll kept text = substitute kept text := by
    have inside : ∀ e ∈ backwards kept, e.LiesIn text :=
      fun e he => lie e (mem_of_mem_retain settled (mem_sortBy.mp he))
    rw [← substitute_backwards kept text]
    exact foldl_applyTo inside (backwards_ends lie settled uncut)
  rw [Edit.apply, settled]
  exact congrArg Except.ok applied

def crowdedEdits : List Edit :=
  [⟨2, some 2, ['1'], 0⟩, ⟨1, some 3, ['-'], 0⟩, ⟨2, some 2, ['2'], 0⟩, ⟨0, some 2, ['x', 'y', 'z'], 5⟩,
    ⟨4, some 6, [], 0⟩]

theorem crowdedEdits_substituted : (∀ e ∈ crowdedEdits, e.LiesIn ['a', 'b', 'c', 'd', 'e', 'f']) ∧
      ∃ kept, retain crowdedEdits = .ok kept ∧ kept.length = 4 ∧ ¬CutsInsertion kept ∧
        Edit.apply crowdedEdits ['a', 'b', 'c', 'd', 'e', 'f'] =
          .ok (substitute kept ['a', 'b', 'c', 'd', 'e', 'f']) ∧
        substitute kept ['a', 'b', 'c', 'd', 'e', 'f'] = ['x', 'y', 'z', '2', '1', 'c', 'd'] := by
  have lie : ∀ e ∈ crowdedEdits, e.LiesIn ['a', 'b', 'c', 'd', 'e', 'f'] := by decide
  obtain ⟨kept, settled, -, applied⟩ := apply_eq_substitute lie
  obtain rfl : [⟨0, some 2, ['x', 'y', 'z'], 5⟩, ⟨4, some 6, [], 0⟩, ⟨2, some 2, ['1'], 0⟩,
      ⟨2, some 2, ['2'], 0⟩] = kept := Except.ok.inj (Eq.trans (by decide) settled)
  exact ⟨lie, _, settled, rfl, by decide, applied (by decide), by decide⟩

end LuaTune.Fix.Edit
