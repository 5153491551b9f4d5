import LuaTune.Proofs.Fix.Substitution
import Mathlib.Data.List.FinRange

/-!
# How conflicts between edits are settled

Equal edits may stand in a list more than once, so what is retained is told by the places of edits
in the list. Each that is dropped gives way to one that was considered before it.
-/

namespace LuaTune

open List

variable {α β : Type} {le : β → β → Bool} {f : α → β}

theorem insertBy_map (x : α) (xs : List α) :
    insertBy le (f x) (xs.map f) = (insertBy (fun a b => le (f a) (f b)) x xs).map f := by
  induction xs with
  | nil => rfl
  | cons y ys ih =>
    rw [map_cons, insertBy, insertBy]
    split
    · rfl
    · rw [map_cons, ih]

theorem sortBy_map (xs : List α) :
    sortBy le (xs.map f) = (sortBy (fun a b => le (f a) (f b)) xs).map f := by
  induction xs with
  | nil => rfl
  | cons x xs ih =>
    show insertBy le (f x) (sortBy le (xs.map f)) = _
    rw [ih, insertBy_map]
    rfl

theorem sortBy_stable {le : α → α → Bool} (total : ∀ x y, le x y ∨ le y x)
    (trans : ∀ x y z, le x y → le y z → le x z) {R : α → α → Prop} {xs : List α}
    (h : xs.Pairwise R) : (sortBy le xs).Pairwise fun x y => le x y ∧ (le y x → R x y) := by
  induction h with
  | nil => exact .nil
  | @cons x xs first _ ih =>
    show (insertBy le x (sortBy le xs)).Pairwise _
    have first : ∀ y ∈ sortBy le xs, R x y := fun y hy => first y (mem_sortBy.mp hy)
    generalize sortBy le xs = ys at ih first
    induction ys with
    | nil => exact pairwise_singleton _ x
    | cons y ys ih' =>
      obtain ⟨least, rest⟩ := pairwise_cons.mp ih
      unfold insertBy
      split
      · next front =>
        refine pairwise_cons.mpr ⟨fun z hz => ⟨?_, fun _ => first z hz⟩, ih⟩
        rcases mem_cons.mp hz with rfl | hz
        · exact front
        · exact trans x y z front (least z hz).1
      · next behind =>
        refine pairwise_cons.mpr ⟨fun z hz => ?_, ih' rest (forall_mem_cons.mp first).2⟩
        rcases mem_cons.mp ((insertBy_perm le x ys).mem_iff.mp hz) with rfl | hz
        · exact ⟨(total y z).resolve_right behind, fun front => absurd front behind⟩
        · exact least z hz

end LuaTune

namespace LuaTune.Fix.Edit

open List

/-- Both ends of the range are known, and it does not run backwards. -/
def HasRange (e : Edit) : Prop := ∃ x ∈ e.stop, e.start ≤ x

instance (e : Edit) : Decidable e.HasRange := inferInstanceAs (Decidable (∃ x ∈ e.stop, _))

/-- The edit at one place of a list comes before the one at another: it has a higher priority, or the
same and starts further back, or starts at the same offset and is listed first. -/
def ComesBefore (es : List Edit) (i j : Fin es.length) : Prop :=
  (es.get j).priority < (es.get i).priority ∨ (es.get i).priority = (es.get j).priority ∧
    ((es.get j).start < (es.get i).start ∨ (es.get i).start = (es.get j).start ∧ i < j)

/-- There is a character that both edits replace. -/
def Overlap (a b : Edit) : Prop := ∃ p, a.Covers p ∧ b.Covers p

/-- The edit inserts behind the first and in front of the last character that another one replaces. -/
def LiesInside (i r : Edit) : Prop := r.start < i.start ∧ r.Covers i.start

/-- Both edits insert the same text at the same offset. -/
def Repeats (a b : Edit) : Prop :=
  a.isInsertion ∧ b.isInsertion ∧ a.start = b.start ∧ a.text = b.text

/-- The edits at some places of a list do not get into each other's way, and every other one gives way
to one that comes before it. -/
structure Resolves (es : List Edit) (kept : List (Fin es.length)) : Prop where
  ordered : kept.Pairwise (ComesBefore es)
  disjoint : ∀ i ∈ kept, ∀ j ∈ kept, i ≠ j → ¬(es.get i).Overlap (es.get j)
  uncut : ∀ i ∈ kept, ∀ r ∈ kept, (es.get i).isInsertion → (es.get i).priority < (es.get r).priority →
    ¬(es.get i).LiesInside (es.get r)
  once : ∀ i ∈ kept, ∀ j ∈ kept, (es.get i).Repeats (es.get j) → i = j
  replacement : ∀ j, j ∉ kept → (es.get j).isInsertion = false →
    ∃ i ∈ kept, ComesBefore es i j ∧ (es.get i).Overlap (es.get j)
  insertion : ∀ j, j ∉ kept → (es.get j).isInsertion →
    (∃ i, ComesBefore es i j ∧ (es.get i).Repeats (es.get j)) ∨
      ∃ r ∈ kept, ComesBefore es r j ∧ (es.get j).LiesInside (es.get r)

variable {es kept : List Edit} {a b e i r : Edit}

/-! ## Two edits -/

theorem overlap_symm (h : a.Overlap b) : b.Overlap a := h.imp fun _ => And.symm

theorem repeats_symm (h : a.Repeats b) : b.Repeats a := ⟨h.2.1, h.1, h.2.2.1.symm, h.2.2.2.symm⟩

theorem reaches_of_overlap (h : a.Overlap b) : b.Reaches a := by
  obtain ⟨p, ⟨-, front, x, hx, behind⟩, -, front', y, hy, behind'⟩ := h
  exact ⟨y, x, hy, hx, by omega, by omega⟩

theorem overlap_of_reaches (ha : a.HasRange) (hb : b.HasRange) (replaces : a.isInsertion = false)
    (replaces' : b.isInsertion = false) (h : b.Reaches a) : a.Overlap b := by
  obtain ⟨x, y, hx, hy, front, behind⟩ := h
  have wide {e : Edit} {z : Int} (range : e.HasRange) (replaces : e.isInsertion = false)
      (hz : e.stop = some z) : e.start < z := by
    obtain ⟨z', hz', order⟩ := range
    obtain rfl := Option.some.inj (hz.symm.trans hz')
    refine Int.lt_iff_le_and_ne.mpr ⟨order, ?_⟩
    rintro rfl
    simp [isInsertion, hz] at replaces
  have := wide ha replaces hy
  have := wide hb replaces' hx
  exact ⟨max a.start b.start, ⟨replaces, by omega, y, hy, by omega⟩, replaces', by omega, x, hx, by omega⟩

theorem liesInside_iff (insertion : i.isInsertion) :
    i.LiesInside r ↔ r.isInsertion = false ∧ i.Reaches r := by
  rw [reaches_of_isInsertion insertion]
  constructor
  · rintro ⟨behind, replaces, -, inside⟩
    exact ⟨replaces, behind, inside⟩
  · rintro ⟨replaces, behind, inside⟩
    exact ⟨behind, replaces, Int.le_of_lt behind, inside⟩

/-! ## The order of places -/

def ranked (es : List Edit) : List (Fin es.length) :=
  sortBy (fun i j => (es.get i).precedes (es.get j)) (List.finRange es.length)

theorem sort_eq_map_ranked (es : List Edit) : sort es = (ranked es).map es.get := by
  unfold sort ranked
  rw [← sortBy_map, map_get_finRange]

theorem mem_ranked (j : Fin es.length) : j ∈ ranked es := mem_sortBy.mpr (mem_finRange j)

theorem ranked_pairwise (es : List Edit) : (ranked es).Pairwise (ComesBefore es) := by
  have stable : (ranked es).Pairwise fun i j => (es.get i).precedes (es.get j) ∧
      ((es.get j).precedes (es.get i) → i < j) :=
    sortBy_stable (fun i j => precedes_total (es.get i) (es.get j))
      (fun i j k => precedes_trans (es.get i) (es.get j) (es.get k)) (pairwise_lt_finRange es.length)
  refine stable.imp fun ⟨before, tie⟩ => ?_
  rw [precedes_iff] at before tie
  unfold ComesBefore
  omega

/-! ## One edit after the other -/

namespace Settled

variable {taken : List Edit} {inserted : List (Int × Chars)}

theorem fresh (h : Settled taken inserted es kept) :
    (∀ e ∈ kept, e.isInsertion → (e.start, e.text) ∉ inserted) ∧
      kept.Pairwise fun a b => ¬a.Repeats b := by
  induction h with
  | done => exact ⟨nofun, .nil⟩
  | repeated _ _ _ ih => exact ih
  | @blocked _ _ e _ _ _ _ _ _ ih =>
    refine ⟨fun i hi insertion seen => ih.1 i hi insertion ?_, ih.2⟩
    unfold considered
    split
    · exact mem_cons_of_mem _ seen
    · exact seen
  | @retained _ inserted e _ _ new _ _ ih =>
    have later (i : Edit) (unseen : (i.start, i.text) ∉ considered inserted e) :
        (i.start, i.text) ∉ inserted ∧ ¬e.Repeats i := by
      unfold considered at unseen
      constructor
      · split at unseen
        · exact fun seen => unseen (mem_cons_of_mem _ seen)
        · exact unseen
      · rintro ⟨insertion, -, start, text⟩
        rw [if_pos insertion, start, text] at unseen
        exact unseen mem_cons_self
    constructor
    · refine forall_mem_cons.mpr ⟨new, fun i hi insertion => (later i (ih.1 i hi insertion)).1⟩
    · refine pairwise_cons.mpr ⟨fun i hi same => ?_, ih.2⟩
      exact (later i (ih.1 i hi same.2.1)).2 same

/-- What is retained of edits at some places, told by the places, and what each of the others gives
way to. `Kept` holds of the places that were retained before. -/
theorem places {α : Type} {f : α → Edit} {R : α → α → Prop} {order : List α} (Kept : α → Prop)
    (h : Settled taken inserted (order.map f) kept) (sorted : order.Pairwise R)
    (seen : ∀ key ∈ inserted, ∃ i, (f i).isInsertion ∧ key = ((f i).start, (f i).text) ∧ ∀ j ∈ order, R i j)
    (held : ∀ r ∈ taken, ∃ i, Kept i ∧ f i = r ∧ r.isInsertion = false ∧ ∀ j ∈ order, R i j) :
    ∃ places : List α, kept = places.map f ∧ places.Sublist order ∧ ∀ j ∈ order, j ∉ places →
      (∃ i, R i j ∧ (f i).Repeats (f j)) ∨
        ∃ r, (Kept r ∨ r ∈ places) ∧ R r j ∧ (f r).isInsertion = false ∧ (f j).Reaches (f r) := by
  induction order generalizing taken inserted kept Kept with
  | nil =>
    cases h
    exact ⟨[], rfl, .slnil, nofun⟩
  | cons j js ih =>
    obtain ⟨first, sorted⟩ := pairwise_cons.mp sorted
    have seen' : ∀ key ∈ inserted,
        ∃ i, (f i).isInsertion ∧ key = ((f i).start, (f i).text) ∧ ∀ j ∈ js, R i j :=
      fun key hk => (seen key hk).imp fun _ h => ⟨h.1, h.2.1, (forall_mem_cons.mp h.2.2).2⟩
    have considered' : ∀ key ∈ considered inserted (f j),
        ∃ i, (f i).isInsertion ∧ key = ((f i).start, (f i).text) ∧ ∀ j ∈ js, R i j := by
      unfold considered
      split
      · next insertion => exact forall_mem_cons.mpr ⟨⟨j, insertion, rfl, first⟩, seen'⟩
      · exact seen'
    have held' : ∀ r ∈ taken, ∃ i, Kept i ∧ f i = r ∧ r.isInsertion = false ∧ ∀ j ∈ js, R i j :=
      fun r hr => (held r hr).imp fun _ h => ⟨h.1, h.2.1, h.2.2.1, (forall_mem_cons.mp h.2.2.2).2⟩
    cases h with
    | repeated insertion again rest =>
      obtain ⟨i, insertion', key, before⟩ := seen _ again
      obtain ⟨start, text⟩ := Prod.mk.inj key
      obtain ⟨places, rfl, sub, why⟩ := ih _ rest sorted seen' held'
      refine ⟨places, rfl, sub.cons _, forall_mem_cons.mpr ⟨fun _ => .inl ?_, why⟩⟩
      exact ⟨i, before j mem_cons_self, insertion', insertion, start.symm, text.symm⟩
    | blocked hr reaches rest =>
      obtain ⟨i, kept, rfl, replaces, before⟩ := held _ hr
      obtain ⟨places, rfl, sub, why⟩ := ih _ rest sorted considered' held'
      refine ⟨places, rfl, sub.cons _, forall_mem_cons.mpr ⟨fun _ => .inr ?_, why⟩⟩
      exact ⟨i, .inl kept, before j mem_cons_self, replaces, reaches⟩
    | retained _ _ rest =>
      have held : ∀ r ∈ taking taken (f j), ∃ i, (Kept i ∨ i = j) ∧ f i = r ∧ r.isInsertion = false ∧
          ∀ j ∈ js, R i j := by
        intro r hr
        rcases mem_taking.mp hr with hr | ⟨rfl, replaces⟩
        · exact (held' r hr).imp fun _ h => ⟨.inl h.1, h.2⟩
        · exact ⟨j, .inr rfl, rfl, replaces, first⟩
      obtain ⟨places, rfl, sub, why⟩ := ih _ rest sorted considered' held
      refine ⟨j :: places, rfl, sub.cons_cons _, forall_mem_cons.mpr ⟨?_, fun k hk dropped => ?_⟩⟩
      · exact fun dropped => absurd mem_cons_self dropped
      · rcases why k hk (not_mem_of_not_mem_cons dropped) with same | ⟨r, known, reason⟩
        · exact .inl same
        · refine .inr ⟨r, ?_, reason⟩
          rcases known with (kept | rfl) | later
          · exact .inl kept
          · exact .inr mem_cons_self
          · exact .inr (mem_cons_of_mem _ later)

end Settled

def Admits (es : List Edit) (i j : Fin es.length) : Prop :=
  ComesBefore es i j ∧ ((es.get i).isInsertion = false → ¬(es.get j).Reaches (es.get i)) ∧
    ¬(es.get i).Repeats (es.get j)

theorem admits_or {kept : List (Fin es.length)} (h : kept.Pairwise (Admits es)) {i j : Fin es.length}
    (hi : i ∈ kept) (hj : j ∈ kept) (ne : i ≠ j) : Admits es i j ∨ Admits es j i := by
  have : Std.Symm fun i j => Admits es i j ∨ Admits es j i := ⟨fun _ _ => Or.symm⟩
  have either : kept.Pairwise fun i j => Admits es i j ∨ Admits es j i := h.imp fun first => .inl first
  exact either.forall hi hj ne

/-- Edits with known ranges can be settled. Told by their places in the list, in the order of
priority, offset and place, those that are retained do not overlap, cut no insertion of a lower
priority and insert no text twice at an offset. A replacement that is dropped overlaps one that is
retained and comes before it; an insertion that is dropped repeats one that comes before it or lies
inside a replacement that is retained and comes before it. -/
theorem conflicts_resolved (es : List Edit) (ranges : ∀ e ∈ es, e.HasRange) :
    ∃ kept : List (Fin es.length), retain es = .ok (kept.map es.get) ∧
      (∀ text, Edit.apply es text = .ok (applyAll (kept.map es.get) text)) ∧ Resolves es kept := by
  have stops : ∀ e ∈ sort es, e.stop.isSome := by
    intro e he
    obtain ⟨x, hx, -⟩ := ranges e (mem_sortBy.mp he)
    exact Option.isSome_of_mem hx
  obtain ⟨retained, done⟩ : ∃ retained, retain es = .ok retained :=
    retainFrom_isOk [] (forall_mem_nil _) stops
  have settled : Settled [] [] ((ranked es).map es.get) retained :=
    sort_eq_map_ranked es ▸ settled_of_retain done
  obtain ⟨kept, rfl, sub, why⟩ := settled.places (fun _ => False) (ranked_pairwise es)
    (forall_mem_nil _) (forall_mem_nil _)
  have admits : kept.Pairwise (Admits es) := ((ranked_pairwise es).sublist sub).and
    ((pairwise_map.mp settled.apart).and (pairwise_map.mp settled.fresh.2))
  have range (i : Fin es.length) : (es.get i).HasRange := ranges _ (get_mem es i)
  refine ⟨kept, done, fun text => ?_, ?_, ?_, ?_, ?_, ?_, ?_⟩
  · rw [Edit.apply, done]
    rfl
  · exact admits.imp And.left
  · intro i hi j hj ne overlap
    rcases admits_or admits hi hj ne with ⟨-, clear, -⟩ | ⟨-, clear, -⟩
    · exact clear overlap.choose_spec.1.1 (reaches_of_overlap overlap)
    · exact clear overlap.choose_spec.2.1 (reaches_of_overlap (overlap_symm overlap))
  · intro i hi r hr insertion lower inside
    have ne : i ≠ r := by
      rintro rfl
      exact Int.lt_irrefl _ lower
    rcases admits_or admits hi hr ne with ⟨before, -⟩ | ⟨-, clear, -⟩
    · unfold ComesBefore at before
      omega
    · obtain ⟨replaces, reaches⟩ := (liesInside_iff insertion).mp inside
      exact clear replaces reaches
  · intro i hi j hj same
    by_contra ne
    rcases admits_or admits hi hj ne with ⟨-, -, new⟩ | ⟨-, -, new⟩
    · exact new same
    · exact new (repeats_symm same)
  · intro j dropped replaces
    rcases why j (mem_ranked j) dropped with ⟨i, -, -, insertion, -⟩ | ⟨r, hr, before, replaces', reaches⟩
    · cases insertion.symm.trans replaces
    · exact ⟨r, hr.resolve_left id, before, overlap_of_reaches (range r) (range j) replaces' replaces reaches⟩
  · intro j dropped insertion
    refine (why j (mem_ranked j) dropped).imp id ?_
    rintro ⟨r, hr, before, replaces, reaches⟩
    exact ⟨r, hr.resolve_left id, before, (liesInside_iff insertion).mpr ⟨replaces, reaches⟩⟩

def contestedEdits : List Edit :=
  [⟨0, some 4, ['x'], 0⟩, ⟨4, some 4, ['n'], 1⟩, ⟨3, some 6, ['y'], 2⟩, ⟨7, some 7, ['n'], 0⟩,
    ⟨7, some 7, ['n'], 0⟩, ⟨7, some 7, ['m'], 0⟩]

theorem contestedEdits_resolved :
    (∀ e ∈ contestedEdits, e.HasRange) ∧ ∃ kept : List (Fin contestedEdits.length),
      retain contestedEdits = .ok (kept.map contestedEdits.get) ∧
        kept.map contestedEdits.get =
          [⟨3, some 6, ['y'], 2⟩, ⟨7, some 7, ['n'], 0⟩, ⟨7, some 7, ['m'], 0⟩] ∧
        Resolves contestedEdits kept := by
  have ranges : ∀ e ∈ contestedEdits, e.HasRange := by decide
  obtain ⟨kept, done, -, resolves⟩ := conflicts_resolved contestedEdits ranges
  refine ⟨ranges, kept, done, Except.ok.inj (done.symm.trans ?_), resolves⟩
  decide

end LuaTune.Fix.Edit
