import LuaTune.Proofs.Fix.Retained

/-!
# Replacements that are apart

Replacements of which each ends before the next one starts are all retained, also if an insertion is
made between two of them.
-/

namespace LuaTune.Fix

open Edit List

namespace Edit

def EndsBefore (e r : Edit) : Prop := ∃ x b, e.stop = some x ∧ r.stop = some b ∧ x ≤ r.start

theorem overlaps_of_endsBefore {e r : Edit} (h : e.EndsBefore r) : e.overlaps r.range = .ok false := by
  obtain ⟨x, b, hx, hb, before⟩ := h
  unfold overlaps range
  simp only [hx, hb]
  split
  · rw [decide_eq_false (Int.not_lt.mpr before)]
  · rfl

theorem overlapsAny_of_endsBefore {e : Edit} {rs : List Edit} (h : ∀ r ∈ rs, e.EndsBefore r) :
    e.overlapsAny (rs.map range) = .ok false := by
  induction rs with
  | nil => rfl
  | cons r rs ih =>
    rw [map_cons, overlapsAny, overlaps_of_endsBefore (h r mem_cons_self)]
    exact ih fun r' hr => h r' (mem_cons_of_mem r hr)

theorem retainFrom_eq_self (taken : List Edit) (inserted : List (Int × Chars)) {es : List Edit}
    (replace : ∀ e ∈ es, e.isInsertion = false) (apart : ∀ e ∈ es, ∀ r ∈ taken, e.EndsBefore r)
    (ordered : es.Pairwise fun r e => e.EndsBefore r) :
    retainFrom (taken.map range) inserted es = .ok es := by
  induction es generalizing taken with
  | nil => rfl
  | cons e es ih =>
    obtain ⟨later, rest⟩ := pairwise_cons.mp ordered
    have replaces := replace e mem_cons_self
    have others : retainFrom ((taken ++ [e]).map range) inserted es = .ok es := by
      refine ih _ (fun e' he => replace e' (mem_cons_of_mem e he)) (fun e' he r hr => ?_) rest
      rcases mem_append.mp hr with hr | hr
      · exact apart e' (mem_cons_of_mem e he) r hr
      · obtain rfl := mem_singleton.mp hr
        exact later e' he
    rw [map_append] at others
    rw [retainFrom, overlapsAny_of_endsBefore (apart e mem_cons_self)]
    simp only [replaces, Bool.false_and, Bool.false_eq_true, if_false, bind, Except.bind]
    exact (congrArg (Except.map (e :: ·)) others)

theorem offset_natCast (n k : Nat) : offset n (k : Int) = min k n := by
  rw [offset, if_neg (by omega), Int.toNat_natCast]

theorem applyTo_append (front old new behind : Chars) (priority : Int) :
    Edit.applyTo ⟨front.length, some (front.length + old.length : Nat), new, priority⟩
      (front ++ old ++ behind) = front ++ new ++ behind := by
  have kept : (front ++ old ++ behind).take front.length = front := by
    rw [append_assoc, take_left]
  have left : (front ++ old ++ behind).drop (front.length + old.length) = behind := by
    rw [← length_append, drop_left]
  have room : front.length + old.length ≤ (front ++ old ++ behind).length := by
    simp only [length_append]
    omega
  simp only [applyTo, offset_natCast, Nat.min_eq_left room,
    Nat.min_eq_left (Nat.le_trans (Nat.le_add_right _ _) room), kept, left]

end Edit

/-! ## Pieces -/

inductive Piece where
  | kept (text : Chars)
  | replaced (old new : Chars)

namespace Piece

def before : Piece → Chars
  | .kept text => text
  | .replaced old _ => old

def after : Piece → Chars
  | .kept text => text
  | .replaced _ new => new

def Proper : Piece → Prop
  | .kept _ => True
  | .replaced old _ => old ≠ []

end Piece

def pieceEdits : Nat → List Piece → List Edit
  | _, [] => []
  | start, .kept text :: ps => pieceEdits (start + text.length) ps
  | start, .replaced old new :: ps =>
    ⟨start, some (start + old.length : Nat), new, 0⟩ :: pieceEdits (start + old.length) ps

theorem pieceEdits_append (start : Nat) (ps qs : List Piece) : pieceEdits start (ps ++ qs) =
      pieceEdits start ps ++ pieceEdits (start + (ps.flatMap Piece.before).length) qs := by
  induction ps generalizing start with
  | nil => rfl
  | cons p ps ih =>
    cases p with
    | kept | replaced =>
      simp only [cons_append, pieceEdits, ih, flatMap_cons, length_append, Piece.before, Nat.add_assoc]

theorem of_mem_pieceEdits {start : Nat} {ps : List Piece} {e : Edit} (proper : ∀ p ∈ ps, p.Proper)
    (h : e ∈ pieceEdits start ps) :
    ∃ x, e.stop = some x ∧ (start : Int) ≤ e.start ∧ e.start < x ∧
      x ≤ (start + (ps.flatMap Piece.before).length : Nat) ∧ e.priority = 0 := by
  induction ps generalizing start with
  | nil => cases h
  | cons p ps ih =>
    have others := fun p' hp => proper p' (mem_cons_of_mem p hp)
    simp only [flatMap_cons, length_append]
    cases p with
    | kept text =>
      obtain ⟨x, stop, front, wide, back, plain⟩ := ih others h
      simp only [Piece.before]
      exact ⟨x, stop, by omega, wide, by omega, plain⟩
    | replaced old new =>
      have size := length_pos_iff.mpr (proper _ mem_cons_self)
      simp only [Piece.before]
      rcases mem_cons.mp h with rfl | h
      · exact ⟨_, rfl, Int.le_refl _, by simp only; omega, by omega, rfl⟩
      · obtain ⟨x, stop, front, wide, back, plain⟩ := ih others h
        exact ⟨x, stop, by omega, wide, by omega, plain⟩

theorem pieceEdits_apart (start : Nat) {ps : List Piece} (proper : ∀ p ∈ ps, p.Proper) :
    (pieceEdits start ps).Pairwise EndsBefore := by
  induction ps generalizing start with
  | nil => exact List.Pairwise.nil
  | cons p ps ih =>
    have others := fun p' hp => proper p' (mem_cons_of_mem p hp)
    cases p with
    | kept text => exact ih _ others
    | replaced old new =>
      refine pairwise_cons.mpr ⟨fun e he => ?_, ih _ others⟩
      obtain ⟨b, stop, front, -⟩ := of_mem_pieceEdits others he
      exact ⟨_, b, rfl, stop, front⟩

theorem foldr_pieceEdits (ps : List Piece) (front behind : Chars) :
    (pieceEdits front.length ps).foldr (fun e text => e.applyTo text)
      (front ++ ps.flatMap Piece.before ++ behind) = front ++ ps.flatMap Piece.after ++ behind := by
  induction ps generalizing front with
  | nil => rfl
  | cons p ps ih =>
    have rest := ih (front ++ p.before)
    rw [length_append, append_assoc front] at rest
    cases p with
    | kept text =>
      rw [flatMap_cons, flatMap_cons, pieceEdits]
      exact rest.trans (by rw [append_assoc front]; rfl)
    | replaced old new =>
      have own := applyTo_append front old new (ps.flatMap Piece.after ++ behind) 0
      rw [flatMap_cons, flatMap_cons, pieceEdits, foldr_cons]
      refine (congrArg _ rest).trans ?_
      simpa [Piece.before, Piece.after] using own

section

variable {ps : List Piece} (proper : ∀ p ∈ ps, p.Proper)

include proper

theorem pieceEdits_ascending (start : Nat) : (pieceEdits start ps).Pairwise fun a b =>
    a.start < b.start ∧ a.priority = 0 ∧ b.priority = 0 := by
  refine (pieceEdits_apart start proper).imp_of_mem fun ha hb ends => ?_
  obtain ⟨x, hx, -, wide, -, plain⟩ := of_mem_pieceEdits proper ha
  obtain ⟨-, -, -, -, -, plain'⟩ := of_mem_pieceEdits proper hb
  obtain ⟨y, _, hy, -, front⟩ := ends
  obtain rfl := Option.some.inj (hx.symm.trans hy)
  exact ⟨Int.lt_of_lt_of_le wide front, plain, plain'⟩

theorem sort_pieceEdits (start : Nat) :
    Edit.sort (pieceEdits start ps) = (pieceEdits start ps).reverse := by
  refine sortBy_eq_reverse ((pieceEdits_ascending proper start).imp ?_)
  rintro a b ⟨front, ha, hb⟩
  simp [precedes, ha, hb, front]

theorem retainFrom_pieceEdits (start : Nat) (inserted : List (Int × Chars)) :
    retainFrom [] inserted (pieceEdits start ps).reverse = .ok (pieceEdits start ps).reverse := by
  refine retainFrom_eq_self [] inserted (fun e he => ?_) (by simp)
    (pairwise_reverse.mpr (pieceEdits_apart start proper))
  obtain ⟨x, stop, -, wide, -⟩ := of_mem_pieceEdits proper (mem_reverse.mp he)
  simp only [isInsertion, stop, beq_eq_false_iff_ne, ne_eq, Option.some.injEq]
  omega

theorem sortBy_start_pieceEdits (start : Nat) :
    sortBy (fun a b : Edit => decide (b.start ≤ a.start)) (pieceEdits start ps).reverse =
      (pieceEdits start ps).reverse := by
  refine sortBy_eq_self (pairwise_reverse.mpr ((pieceEdits_ascending proper start).imp ?_))
  rintro a b ⟨front, -⟩
  exact decide_eq_true (Int.le_of_lt front)

theorem apply_pieceEdits : Edit.apply (pieceEdits 0 ps) (ps.flatMap Piece.before) =
    .ok (ps.flatMap Piece.after) := by
  have kept : retain (pieceEdits 0 ps) = .ok (pieceEdits 0 ps).reverse := by
    rw [retain, sort_pieceEdits proper, retainFrom_pieceEdits proper]
  have applied : applyAll (pieceEdits 0 ps).reverse (ps.flatMap Piece.before) =
      ps.flatMap Piece.after := by
    rw [applyAll, sortBy_start_pieceEdits proper, foldl_reverse]
    simpa using foldr_pieceEdits ps [] []
  rw [Edit.apply, kept]
  exact congrArg Except.ok applied

end

/-- An insertion between two pieces, made before the other edits are considered, is made besides
them, unless the piece that follows it is replaced. -/
theorem apply_insertion {ps qs : List Piece} (proper : ∀ p ∈ ps ++ qs, p.Proper) {place : Nat}
    (hp : place = (ps.flatMap Piece.before).length)
    (later : ∀ e ∈ pieceEdits place qs, (place : Int) < e.start) (text : Chars) {priority : Int}
    (first : 0 < priority) :
    Edit.apply (⟨place, some (place : Nat), text, priority⟩ :: pieceEdits 0 (ps ++ qs))
      ((ps ++ qs).flatMap Piece.before) =
        .ok (ps.flatMap Piece.after ++ (text ++ qs.flatMap Piece.after)) := by
  let i : Edit := ⟨place, some (place : Nat), text, priority⟩
  let es := pieceEdits 0 (ps ++ qs)
  have sorted : Edit.sort (i :: es) = i :: es.reverse := by
    show insertBy precedes i (Edit.sort es) = i :: es.reverse
    rw [sort_pieceEdits proper]
    refine insertBy_append [] _ (by simp) fun e he => ?_
    obtain ⟨-, -, -, -, -, plain⟩ := of_mem_pieceEdits proper (mem_reverse.mp (mem_of_mem_head? he))
    simp [precedes, i, plain, first]
  have kept : retain (i :: es) = .ok (i :: es.reverse) := by
    have inserts : i.isInsertion = true := by simp [i, isInsertion]
    have others := retainFrom_pieceEdits proper 0 [(i.start, i.text)]
    rw [retain, sorted, retainFrom]
    simp only [inserts, contains_nil, Bool.and_false, Bool.false_eq_true, if_false, if_true,
      overlapsAny, bind, Except.bind]
    exact congrArg (Except.map (i :: ·)) others
  have order : sortBy (fun a b : Edit => decide (b.start ≤ a.start)) (i :: es.reverse) =
      (pieceEdits 0 ps ++ i :: pieceEdits place qs).reverse := by
    show insertBy _ i (sortBy _ es.reverse) = _
    rw [sortBy_start_pieceEdits proper, pieceEdits_append, Nat.zero_add, ← hp, reverse_append,
      reverse_append, reverse_cons, append_assoc, singleton_append]
    refine insertBy_append _ _ (fun e he => ?_) fun e he => ?_
    · exact decide_eq_false (Int.not_le.mpr (later e (mem_reverse.mp he)))
    · obtain ⟨x, -, -, wide, back, -⟩ := of_mem_pieceEdits (fun p h => proper p (mem_append_left _ h))
        (mem_reverse.mp (mem_of_mem_head? he))
      simp only [i, decide_eq_true_eq]
      omega
  have applied : applyAll (i :: es.reverse) ((ps ++ qs).flatMap Piece.before) =
      ps.flatMap Piece.after ++ (text ++ qs.flatMap Piece.after) := by
    have behind := foldr_pieceEdits qs (ps.flatMap Piece.before) []
    have own := applyTo_append (ps.flatMap Piece.before) [] text (qs.flatMap Piece.after) priority
    have front := foldr_pieceEdits ps [] (text ++ qs.flatMap Piece.after)
    simp only [append_nil, nil_append, ← hp, length_nil, Nat.add_zero] at behind own front
    rw [applyAll, order, foldl_reverse, foldr_append, foldr_cons, flatMap_append,
      behind, own, append_assoc, front]
  rw [Edit.apply, kept]
  exact congrArg Except.ok applied

end LuaTune.Fix
