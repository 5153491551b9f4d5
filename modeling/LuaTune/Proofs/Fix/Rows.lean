import LuaTune.Proofs.Fix.Bounds

/-!
# Edits of whole lines

Where edits replace whole lines, each line of the script can be looked at by itself.
-/

namespace LuaTune.Fix

open List hiding splitOn
open Text Lua Analysis

variable {source : Chars}

structure EditedRow where
  old : Chars
  new : Chars
deriving DecidableEq, Repr

def lineOffset (source : Chars) (n : Nat) : Nat := (firstLines n source).length

/-- The offsets of a line. What comes behind the script belongs to its last line. -/
def lineOffsets (source : Chars) (n : Nat) : List Nat :=
  let stop := if n + 1 = (newlineLines source).length then source.length + 1 else lineOffset source (n + 1)
  List.range' (lineOffset source n) (stop - lineOffset source n)

def rowAt (es : List Edit) (source : Chars) (n : Nat) : EditedRow where
  old := slice source (lineOffset source n) (lineOffset source (n + 1))
  new := (lineOffsets source n).flatMap (Edit.comesAt es source)

def rows (es : List Edit) (source : Chars) : List EditedRow :=
  (List.range (newlineLines source).length).map (rowAt es source)

/-! ## Lines -/

theorem lineOffset_zero : lineOffset source 0 = 0 := by
  rw [lineOffset, firstLines]
  rfl

theorem lineOffset_mono (source : Chars) {m n : Nat} (h : m ≤ n) : lineOffset source m ≤ lineOffset source n :=
  firstLines_mono h source

theorem lineOffset_le (source : Chars) (n : Nat) : lineOffset source n ≤ source.length :=
  (firstLines_isPrefix n source).length_le

theorem lt_of_lineOffset_lt {m n : Nat} (h : lineOffset source m < lineOffset source n) : m < n := by
  by_contra le
  have := lineOffset_mono source (Nat.le_of_not_lt le)
  omega

theorem lineOffset_lt {n : Nat} (h : n + 1 < (newlineLines source).length) :
    lineOffset source n < lineOffset source (n + 1) := by
  have inside : n < (newlineLines source).length := by omega
  have span := lineSpan_eq inside
  obtain ⟨l, -, ends⟩ := Option.map_eq_some_iff.mp span
  obtain ⟨start, stop⟩ := Prod.mk.inj ends
  rw [if_pos (by omega)] at stop
  unfold lineOffset
  omega

theorem exists_length_lines (source : Chars) : ∃ n, (newlineLines source).length = n + 1 :=
  Nat.exists_eq_succ_of_ne_zero fun none => splitOn_ne_nil _ _ (length_eq_zero_iff.mp none)

theorem firstLines_all (cs : Chars) : firstLines (newlineLines cs).length cs = cs := by
  induction cs with
  | nil => rfl
  | cons c cs ih =>
    have some : ∃ l ls, newlineLines cs = l :: ls := exists_cons_of_ne_nil (splitOn_ne_nil _ _)
    obtain ⟨l, ls, lines⟩ := some
    rw [lines, length_cons] at ih
    by_cases newline : c = '\n'
    · subst newline
      have cut : newlineLines ('\n' :: cs) = [] :: newlineLines cs := by simp [newlineLines, splitOn]
      rw [cut, lines]
      simp [firstLines, isNewline, ih]
    · have cut : newlineLines (c :: cs) = (c :: l) :: ls := by
        simp [newlineLines, splitOn, newline, lines]
      rw [cut, length_cons, firstLines, isNewline, beq_false_of_ne newline, if_neg Bool.false_ne_true, ih]

/-! ## All lines -/

theorem flatMap_rowAt_old (es : List Edit) (n : Nat) :
    (List.range n).flatMap (fun i => (rowAt es source i).old) = source.take (lineOffset source n) := by
  induction n with
  | zero =>
    rw [lineOffset_zero]
    rfl
  | succ n ih =>
    have order := lineOffset_mono source (Nat.le_succ n)
    rw [range_succ, flatMap_append, ih, flatMap_singleton]
    conv => rhs; rw [← Nat.add_sub_cancel' order, take_add]
    rfl

theorem flatMap_old (es : List Edit) : (rows es source).flatMap EditedRow.old = source := by
  rw [rows, flatMap_map, flatMap_rowAt_old, lineOffset, firstLines_all, take_length]

theorem flatMap_rowAt_new (es : List Edit) {n : Nat} (h : n < (newlineLines source).length) :
    (List.range n).flatMap (fun i => (rowAt es source i).new) =
      (List.range (lineOffset source n)).flatMap (Edit.comesAt es source) := by
  induction n with
  | zero =>
    rw [lineOffset_zero]
    rfl
  | succ n ih =>
    have order := lineOffset_mono source (Nat.le_succ n)
    have inner : n + 1 ≠ (newlineLines source).length := by omega
    rw [range_succ, flatMap_append, ih (by omega), flatMap_singleton, rowAt, lineOffsets,
      if_neg inner, ← flatMap_append]
    congr 1
    have cut := Edit.range'_cut (a := 0) (Nat.zero_le _) order
    rw [Nat.sub_zero, Nat.sub_zero, ← range_eq_range', ← range_eq_range'] at cut
    exact cut.symm

theorem flatMap_new (es : List Edit) : (rows es source).flatMap EditedRow.new = Edit.substitute es source := by
  obtain ⟨n, last⟩ := exists_length_lines source
  have inside := lineOffset_le source n
  rw [rows, flatMap_map, last, range_succ, flatMap_append, flatMap_rowAt_new es (by omega),
    flatMap_singleton, rowAt, lineOffsets, if_pos last.symm, ← flatMap_append, Edit.substitute]
  congr 1
  have cut := Edit.range'_cut (a := 0) (n := source.length + 1) (Nat.zero_le _) (Nat.le_succ_of_le inside)
  rw [Nat.sub_zero, Nat.sub_zero, ← range_eq_range', ← range_eq_range'] at cut
  exact cut.symm

/-! ## Edits of whole lines -/

def Edit.IsLines (source : Chars) (e : Edit) : Prop :=
  ∃ m k, m ≤ k ∧ k < (newlineLines source).length ∧ e.start = lineOffset source m ∧
    e.stop = some (lineOffset source (k + 1) : Int)

namespace Edit

variable {e : Edit} {es kept : List Edit}

theorem IsLines.liesIn (h : e.IsLines source) : e.LiesIn source := by
  obtain ⟨m, k, order, -, start, stop⟩ := h
  have mono := lineOffset_mono source (m := m) (n := k + 1) (by omega)
  have inside := lineOffset_le source (k + 1)
  exact ⟨by omega, _, stop, by omega, by omega⟩

theorem IsLines.start_of_isInsertion (h : e.IsLines source) (insertion : e.isInsertion) :
    e.start = source.length := by
  obtain ⟨m, k, order, inside, start, stop⟩ := h
  have same : lineOffset source (k + 1) = lineOffset source m := by
    have := Option.some.inj (stop.symm.trans (stop_of_isInsertion insertion))
    omega
  by_cases last : k + 1 = (newlineLines source).length
  · rw [start, ← same, last, lineOffset, firstLines_all]
  · have := lineOffset_lt (n := k) (Nat.lt_of_le_of_ne inside last)
    have := lineOffset_mono source order
    omega

theorem IsLines.starts (h : e.IsLines source) (replaces : e.isInsertion = false) :
    ∃ m, e.start = lineOffset source m ∧ ∃ x, e.stop = some x ∧ (lineOffset source m : Int) < x := by
  obtain ⟨-, x, stop, wide, -⟩ := h.liesIn
  obtain ⟨m, -, -, -, start, -⟩ := h
  have ne : e.start ≠ x := fun same => by
    rw [isInsertion, Option.mem_def.mp stop, same, beq_self_eq_true] at replaces
    cases replaces
  exact ⟨m, start, x, stop, by omega⟩

theorem IsLines.covers_iff (h : e.IsLines source) {n i : Nat} (low : lineOffset source n ≤ i)
    (high : i < lineOffset source (n + 1)) : e.Covers i ↔ e.Covers (lineOffset source n) := by
  obtain ⟨m, k, -, -, start, stop⟩ := h
  have covers (j : Nat) : e.Covers j ↔ e.isInsertion = false ∧ lineOffset source m ≤ j ∧ j < lineOffset source (k + 1) := by
    unfold Covers
    rw [start, stop]
    simp
  rw [covers, covers]
  refine and_congr_right fun _ => ⟨fun ⟨front, behind⟩ => ?_, fun ⟨front, behind⟩ => ?_⟩
  · have order := lt_of_lineOffset_lt (m := m) (n := n + 1) (Nat.lt_of_le_of_lt front high)
    have := lineOffset_mono source (Nat.le_of_lt_succ order)
    omega
  · have order := lt_of_lineOffset_lt behind
    have := lineOffset_mono source (m := n + 1) (n := k + 1) (by omega)
    omega

theorem IsLines.wide (h : e.IsLines source) {n : Nat} (covers : e.Covers (lineOffset source n)) :
    lineOffset source n < lineOffset source (n + 1) := by
  obtain ⟨m, k, -, inside, -, stop⟩ := h
  obtain ⟨-, -, x, stop', behind⟩ := covers
  obtain rfl := Option.some.inj (stop.symm.trans stop')
  have below := lt_of_lineOffset_lt (Int.ofNat_lt.mp behind)
  by_cases last : n = k
  · subst last
    omega
  · exact lineOffset_lt (by omega)

theorem IsLines.covers_start (h : e.IsLines source) {n i : Nat} (start : e.start = i)
    (low : lineOffset source n ≤ i) (high : i < lineOffset source (n + 1)) :
    e.Covers (lineOffset source n) ∧ i = lineOffset source n := by
  have inside := lineOffset_le source (n + 1)
  have replaces : e.isInsertion = false := by
    rw [Bool.eq_false_iff]
    intro insertion
    have := h.start_of_isInsertion insertion
    omega
  have here : e.Covers i := by
    obtain ⟨m, first, x, stop, wide⟩ := h.starts replaces
    exact ⟨replaces, by omega, x, stop, by omega⟩
  have all := (h.covers_iff low high).mp here
  have front := all.2.1
  exact ⟨all, by omega⟩

theorem not_cutsInsertion (lines : ∀ e ∈ es, e.IsLines source) : ¬CutsInsertion es := by
  rintro ⟨i, hi, insertion, r, hr, -, -, b, stop, behind⟩
  have start := (lines i hi).start_of_isInsertion insertion
  obtain ⟨-, x, stop', -, inside⟩ := (lines r hr).liesIn
  obtain rfl := Option.some.inj (stop.symm.trans stop')
  omega

theorem applyAll_of_isLines (lines : ∀ e ∈ es, e.IsLines source) (settled : retain es = .ok kept) :
    applyAll kept source = substitute kept source := by
  have lie := fun e he => (lines e he).liesIn
  have mem := fun e he => mem_of_mem_retain (e := e) settled he
  have inside : ∀ e ∈ backwards kept, e.LiesIn source := fun e he => lie e (mem e (mem_sortBy.mp he))
  have ends := backwards_ends lie settled (not_cutsInsertion fun e he => lines e (mem e he))
  rw [← substitute_backwards kept source, ← foldl_applyTo inside ends]
  rfl

end Edit

/-! ## Single lines -/

theorem filter_eq_singleton {kept : List Edit} {e : Edit} {p : Edit → Bool} {i : Int}
    (apart : kept.Pairwise Edit.Apart) (he : e ∈ kept) (covers : e.Covers i) (hp : p e)
    (only : ∀ r ∈ kept, p r → r = e) : kept.filter p = [e] := by
  obtain ⟨replaces, front, b, stop, behind⟩ := covers
  have reaches : e.Reaches e := ⟨b, b, stop, stop, by omega, by omega⟩
  obtain ⟨xs, ys, rfl⟩ := append_of_mem he
  obtain ⟨-, right, cross⟩ := pairwise_append.mp apart
  have left : xs.filter p = [] := filter_eq_nil_iff.mpr fun r hr pass => by
    obtain rfl := only r (by simp [hr]) pass
    exact cross r hr r (by simp) replaces replaces reaches
  have right : ys.filter p = [] := filter_eq_nil_iff.mpr fun r hr pass => by
    obtain rfl := only r (by simp [hr]) pass
    exact (pairwise_cons.mp right).1 r hr replaces replaces reaches
  rw [filter_append, left, filter_cons_of_pos hp, right]
  rfl

section

variable {kept es : List Edit} {n : Nat} {e : Edit}

theorem old_rowAt (es : List Edit) (n : Nat) :
    (rowAt es source n).old = slice source (lineOffset source n) (lineOffset source (n + 1)) := rfl

theorem lineOffset_lt_of_old_ne_nil (some : (rowAt es source n).old ≠ []) :
    lineOffset source n < lineOffset source (n + 1) := by
  by_contra le
  refine some ?_
  rw [old_rowAt, slice, Nat.sub_eq_zero_of_le (Nat.le_of_not_lt le), take_zero]

variable (lines : ∀ e ∈ kept, e.IsLines source)

include lines

theorem comesAt_length (h : n + 1 = (newlineLines source).length)
    (some : lineOffset source n < lineOffset source (n + 1)) :
    Edit.comesAt kept source source.length = [] := by
  have unstarted : ∀ e ∈ kept, e.start ≠ source.length := by
    intro e he start
    obtain ⟨m, k, order, inside, first, -⟩ := lines e he
    have := lineOffset_mono source (m := m) (n := n) (by omega)
    have := lineOffset_le source (n + 1)
    omega
  have none (p : Edit → Bool) : kept.filter (fun e => p e && e.start == (source.length : Int)) = [] := by
    refine filter_eq_nil_iff.mpr fun e he => ?_
    rw [Bool.and_eq_true, beq_iff_eq]
    exact fun both => unstarted e he both.2
  rw [Edit.comesAt, Edit.insertedAt, Edit.replacingAt, none, none, Edit.keptAt]
  simp

theorem new_rowAt (some : lineOffset source n < lineOffset source (n + 1)) : (rowAt kept source n).new =
      (List.range' (lineOffset source n) (lineOffset source (n + 1) - lineOffset source n)).flatMap
        (Edit.comesAt kept source) := by
  have all : lineOffset source (newlineLines source).length = source.length := by
    rw [lineOffset, firstLines_all]
  rw [rowAt, lineOffsets]
  by_cases last : n + 1 = (newlineLines source).length
  · have cut := Edit.range'_cut (n := source.length + 1) (Nat.le_of_lt some)
      (Nat.le_succ_of_le (lineOffset_le source (n + 1)))
    have behind := comesAt_length lines last some
    rw [last, all] at cut some ⊢
    rw [if_pos rfl, cut, flatMap_append, Nat.add_sub_cancel_left]
    simp [behind]
  · rw [if_neg last]

theorem new_of_uncovered (some : lineOffset source n < lineOffset source (n + 1))
    (uncovered : ∀ e ∈ kept, ¬e.Covers (lineOffset source n)) :
    (rowAt kept source n).new = (rowAt kept source n).old := by
  have stays : ∀ i ∈ List.range' (lineOffset source n) (lineOffset source (n + 1) - lineOffset source n),
      Edit.comesAt kept source i = source[i]?.toList := by
    intro i hi
    obtain ⟨low, high⟩ := mem_range'_1.mp hi
    have high : i < lineOffset source (n + 1) := by omega
    have unstarted (p : Edit → Bool) : kept.filter (fun e => p e && e.start == (i : Int)) = [] := by
      refine filter_eq_nil_iff.mpr fun e he => ?_
      rw [Bool.and_eq_true, beq_iff_eq]
      exact fun both => uncovered e he ((lines e he).covers_start both.2 low high).1
    have uncovered : ¬∃ r ∈ kept, r.Covers i := by
      rintro ⟨r, hr, covers⟩
      exact uncovered r hr (((lines r hr).covers_iff low high).mp covers)
    rw [Edit.comesAt, Edit.insertedAt, Edit.replacingAt, unstarted, unstarted, Edit.keptAt, if_neg uncovered]
    rfl
  rw [new_rowAt lines some, flatMap_congr stays, Edit.flatMap_getElem?]
  rfl

theorem new_of_covered (settled : Edit.retain es = .ok kept) (he : e ∈ kept)
    (covers : e.Covers (lineOffset source n))
    (some : lineOffset source n < lineOffset source (n + 1)) :
    (rowAt kept source n).new = if e.start = lineOffset source n then e.text else [] := by
  have comes : ∀ i ∈ List.range' (lineOffset source n) (lineOffset source (n + 1) - lineOffset source n),
      Edit.comesAt kept source i = if e.start = i then e.text else [] := by
    intro i hi
    obtain ⟨low, high⟩ := mem_range'_1.mp hi
    have high : i < lineOffset source (n + 1) := by omega
    have covered : ∃ r ∈ kept, r.Covers i := ⟨e, he, ((lines e he).covers_iff low high).mpr covers⟩
    have only : ∀ r ∈ kept, r.start = i → r = e := fun r hr start =>
      Edit.eq_of_covers settled hr he ((lines r hr).covers_start start low high).1 covers
    have inserted : kept.filter (fun r => r.isInsertion && r.start == (i : Int)) = [] := by
      refine filter_eq_nil_iff.mpr fun r hr => ?_
      rw [Bool.and_eq_true, beq_iff_eq]
      rintro ⟨insertion, start⟩
      rw [only r hr start, covers.1] at insertion
      cases insertion
    have replaced : kept.filter (fun r => !r.isInsertion && r.start == (i : Int)) =
        if e.start = i then [e] else [] := by
      split
      · next start =>
        refine filter_eq_singleton (Edit.retain_apart settled) he covers ?_ fun r hr both => ?_
        · rw [covers.1, start, beq_self_eq_true]
          rfl
        · exact only r hr (eq_of_beq (Bool.and_eq_true_iff.mp both).2)
      · next start =>
        refine filter_eq_nil_iff.mpr fun r hr => ?_
        rw [Bool.and_eq_true, beq_iff_eq]
        rintro ⟨-, start'⟩
        exact start (only r hr start' ▸ start')
    rw [Edit.comesAt, Edit.insertedAt, Edit.replacingAt, inserted, replaced, Edit.keptAt, if_pos covered]
    split <;> simp
  obtain ⟨size, wide⟩ := Nat.exists_eq_add_of_lt some
  have others : (List.range' (lineOffset source n + 1) size).flatMap
      (fun (i : Nat) => if e.start = i then e.text else []) = [] := by
    refine flatMap_eq_nil_iff.mpr fun i hi => if_neg ?_
    have := (mem_range'_1.mp hi).1
    have := covers.2.1
    omega
  rw [new_rowAt lines some, flatMap_congr comes, wide, Nat.add_assoc, Nat.add_sub_cancel_left,
    range'_succ, flatMap_cons, others, append_nil]

theorem rowAt_cases (settled : Edit.retain es = .ok kept) {n : Nat}
    (some : (rowAt kept source n).old ≠ []) :
    (∀ e ∈ kept, ¬e.Covers (lineOffset source n)) ∧ (rowAt kept source n).new = (rowAt kept source n).old ∨
      ∃ e ∈ kept, e.Covers (lineOffset source n) ∧
        (rowAt kept source n).new = if e.start = lineOffset source n then e.text else [] := by
  have wide := lineOffset_lt_of_old_ne_nil some
  by_cases covered : ∃ e ∈ kept, e.Covers (lineOffset source n)
  · obtain ⟨e, he, covers⟩ := covered
    exact .inr ⟨e, he, covers, new_of_covered lines settled he covers wide⟩
  · have uncovered : ∀ e ∈ kept, ¬e.Covers (lineOffset source n) := fun e he covers => covered ⟨e, he, covers⟩
    exact .inl ⟨uncovered, new_of_uncovered lines wide uncovered⟩

omit lines in
theorem lines_of_covers {m k n : Nat} (start : e.start = lineOffset source m)
    (stop : e.stop = some (lineOffset source (k + 1) : Int))
    (covers : e.Covers (lineOffset source n))
    (wide : lineOffset source n < lineOffset source (n + 1)) : m ≤ n ∧ n ≤ k := by
  obtain ⟨-, front, x, stop', behind⟩ := covers
  obtain rfl := Option.some.inj (stop.symm.trans stop')
  have below := lt_of_lineOffset_lt (Int.ofNat_lt.mp behind)
  refine ⟨?_, by omega⟩
  by_contra other
  have := lineOffset_mono source (m := n + 1) (n := m) (by omega)
  omega

omit lines in
theorem exists_kept_covering (whole : ∀ e ∈ es, e.IsLines source)
    (settled : Edit.retain es = .ok kept) (he : e ∈ es) (replaces : e.isInsertion = false) :
    ∃ r ∈ kept, ∃ n, e.Covers (lineOffset source n) ∧ r.Covers (lineOffset source n) := by
  obtain ⟨m, start, x, stop, wide⟩ := (whole e he).starts replaces
  rcases (Edit.settled_of_retain settled).fate_of_replacement (mem_sortBy.mpr he) replaces with
    mem | ⟨r, hr, x', y, hx, hy, front, behind⟩
  · exact ⟨e, mem, m, ⟨replaces, by omega, x, stop, wide⟩, replaces, by omega, x, stop, wide⟩
  · have hr := hr.resolve_left not_mem_nil
    have lines' := whole r (Edit.mem_of_mem_retain settled hr)
    obtain rfl := Option.some.inj (stop.symm.trans hx)
    have replaces' : r.isInsertion = false := by
      rw [Bool.eq_false_iff]
      intro insertion
      have behind' := lines'.start_of_isInsertion insertion
      obtain ⟨-, z, hz, -, inside⟩ := (whole e he).liesIn
      obtain rfl := Option.some.inj (stop.symm.trans hz)
      omega
    obtain ⟨m', start', y', stop', wide'⟩ := lines'.starts replaces'
    obtain rfl := Option.some.inj (stop'.symm.trans hy)
    -- the line in common is the first one of the edit that starts further back
    rcases Nat.le_total (lineOffset source m) (lineOffset source m') with order | order
    · exact ⟨r, hr, m', ⟨replaces, by omega, x, stop, by omega⟩, replaces', by omega, y', stop', wide'⟩
    · exact ⟨r, hr, m, ⟨replaces, by omega, x, stop, wide⟩, replaces', by omega, y', stop', by omega⟩

end

/-! ## What fixing makes of the lines -/

def keptEdits (o : Options) (source : Chars) (findings : List Finding) : List Edit :=
  match Edit.retain (sourceEdits o source findings) with
  | .ok kept => kept
  | .error _ => []

def fixedRows (o : Options) (source : Chars) (findings : List Finding) : List EditedRow :=
  rows (keptEdits o source findings) source

section

variable {o : Options} {source : Chars} {findings : List Finding}
  (lines : ∀ e ∈ sourceEdits o source findings, e.IsLines source)

include lines

theorem retain_keptEdits :
    Edit.retain (sourceEdits o source findings) = .ok (keptEdits o source findings) := by
  obtain ⟨kept, settled⟩ := Edit.retain_isOk fun e he => (lines e he).liesIn
  rw [keptEdits, settled]

theorem mem_keptEdits {e : Edit} (h : e ∈ keptEdits o source findings) : e ∈ sourceEdits o source findings :=
  Edit.mem_of_mem_retain (retain_keptEdits lines) h

theorem fixSource_rows (analyzed : analyzeSource {} source = .ok findings) :
    ∃ fixed, fixSource o source = .ok fixed ∧
      fixed.content = (fixedRows o source findings).flatMap EditedRow.new := by
  have settled := retain_keptEdits lines
  obtain ⟨fixed, made⟩ : ∃ fixed, fixFindings o source findings = .ok fixed := by
    unfold fixFindings
    split
    · exact ⟨_, rfl⟩
    · simp only [Edit.apply, settled, bind, Except.bind, pure, Except.pure]
      split <;> exact ⟨_, rfl⟩
  refine ⟨fixed, ?_, ?_⟩
  · rw [fixSource, analyzed]
    exact congrArg (Except.mapError Fault.edits) made
  · obtain ⟨kept, settled', content⟩ := fixFindings_eq_ok made
    obtain rfl := Except.ok.inj (settled.symm.trans settled')
    rw [content, Edit.applyAll_of_isLines lines settled, fixedRows, flatMap_new]

end

end LuaTune.Fix
