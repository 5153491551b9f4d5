/-! # Order and groups -/

namespace LuaTune

/-!
## Sorting

Elements of which each may stand before the other keep the order of the list.
-/

section

variable {α : Type}

/-- Put an element in front of the first one that it may stand before. -/
def insertBy (le : α → α → Bool) (x : α) : List α → List α
  | [] => [x]
  | y :: ys => if le x y then x :: y :: ys else y :: insertBy le x ys

theorem insertBy_perm (le : α → α → Bool) (x : α) (xs : List α) :
    (insertBy le x xs).Perm (x :: xs) := by
  induction xs with
  | nil => exact .refl _
  | cons y ys ih =>
    unfold insertBy
    split
    · exact .refl _
    · exact (ih.cons y).trans (.swap x y ys)

def sortBy (le : α → α → Bool) (xs : List α) : List α := xs.foldr (insertBy le) []

theorem sortBy_perm (le : α → α → Bool) (xs : List α) : (sortBy le xs).Perm xs := by
  induction xs with
  | nil => exact .refl _
  | cons x xs ih => exact (insertBy_perm le x (sortBy le xs)).trans (ih.cons x)

@[simp]
theorem mem_sortBy {le : α → α → Bool} {x : α} {xs : List α} : x ∈ sortBy le xs ↔ x ∈ xs :=
  (sortBy_perm le xs).mem_iff

theorem insertBy_pairwise {le : α → α → Bool} (total : ∀ x y, le x y ∨ le y x)
    (trans : ∀ x y z, le x y → le y z → le x z) (x : α) {xs : List α}
    (h : xs.Pairwise fun y z => le y z) : (insertBy le x xs).Pairwise fun y z => le y z := by
  induction xs with
  | nil => exact List.pairwise_singleton _ x
  | cons y ys ih =>
    obtain ⟨least, rest⟩ := List.pairwise_cons.mp h
    unfold insertBy
    split
    · rename_i first
      refine List.pairwise_cons.mpr ⟨fun z hz => ?_, h⟩
      rcases List.mem_cons.mp hz with rfl | hz
      · exact first
      · exact trans x y z first (least z hz)
    · rename_i later
      refine List.pairwise_cons.mpr ⟨fun z hz => ?_, ih rest⟩
      rcases List.mem_cons.mp ((insertBy_perm le x ys).mem_iff.mp hz) with rfl | hz
      · exact (total y z).resolve_right later
      · exact least z hz

theorem sortBy_pairwise {le : α → α → Bool} (total : ∀ x y, le x y ∨ le y x)
    (trans : ∀ x y z, le x y → le y z → le x z) (xs : List α) :
    (sortBy le xs).Pairwise fun y z => le y z := by
  induction xs with
  | nil => exact List.Pairwise.nil
  | cons x xs ih => exact insertBy_pairwise total trans x ih

theorem insertBy_append {le : α → α → Bool} {x : α} (ys zs : List α)
    (hy : ∀ y ∈ ys, le x y = false) (hz : ∀ z ∈ zs.head?, le x z) :
    insertBy le x (ys ++ zs) = ys ++ x :: zs := by
  induction ys with
  | nil =>
    cases zs with
    | nil => rfl
    | cons z zs => exact if_pos (hz z rfl)
  | cons y ys ih =>
    rw [List.cons_append, insertBy, hy y List.mem_cons_self,
      ih fun z h => hy z (List.mem_cons_of_mem y h)]
    rfl

theorem sortBy_eq_reverse {le : α → α → Bool} {xs : List α}
    (h : xs.Pairwise fun x y => le x y = false) : sortBy le xs = xs.reverse := by
  induction xs with
  | nil => rfl
  | cons x xs ih =>
    obtain ⟨last, rest⟩ := List.pairwise_cons.mp h
    have behind := insertBy_append xs.reverse [] (fun y hy => last y (List.mem_reverse.mp hy)) (by simp)
    rw [List.append_nil] at behind
    show insertBy le x (sortBy le xs) = (x :: xs).reverse
    rw [ih rest, behind, List.reverse_cons]

theorem sortBy_eq_self {le : α → α → Bool} {xs : List α}
    (h : xs.Pairwise fun x y => le x y) : sortBy le xs = xs := by
  induction xs with
  | nil => rfl
  | cons x xs ih =>
    obtain ⟨first, rest⟩ := List.pairwise_cons.mp h
    show insertBy le x (sortBy le xs) = x :: xs
    rw [ih rest]
    exact insertBy_append [] xs (by simp) fun z hz => first z (List.mem_of_mem_head? hz)

end

/-! ## Groups and tables in order of first occurrence -/

section

variable {κ α : Type} [BEq κ]

def addToGroup (k : κ) (x : α) : List (κ × List α) → List (κ × List α)
  | [] => [(k, [x])]
  | (k', xs) :: gs => if k' == k then (k', xs ++ [x]) :: gs else (k', xs) :: addToGroup k x gs

/-- The elements grouped by a key; groups and their elements keep the order of the list. -/
def groupOn (key : α → κ) (xs : List α) : List (κ × List α) :=
  xs.foldl (fun gs x => addToGroup (key x) x gs) []

def setKey (k : κ) (v : α) : List (κ × α) → List (κ × α)
  | [] => [(k, v)]
  | (k', v') :: es => if k' == k then (k', v) :: es else (k', v') :: setKey k v es

def getKey? (k : κ) (es : List (κ × α)) : Option α := (es.find? fun e => e.1 == k).map (·.2)

def sortNames (ss : List String) : List String := sortBy (fun a b => !(b < a)) ss

def distinct (xs : List κ) : List κ :=
  xs.foldl (fun ys x => if ys.contains x then ys else ys ++ [x]) []

def sumOf (ns : List Nat) : Nat := ns.foldl Nat.add 0

@[simp] theorem sumOf_nil : sumOf [] = 0 := rfl

@[simp] theorem sumOf_cons (n : Nat) (ns : List Nat) : sumOf (n :: ns) = n + sumOf ns := by
  have start : ∀ m k, ns.foldl Nat.add (m + k) = m + ns.foldl Nat.add k := by
    induction ns with
    | nil => exact fun _ _ => rfl
    | cons x xs ih =>
      intro m k
      exact (congrArg (xs.foldl Nat.add) (Nat.add_assoc m k x)).trans (ih m (k + x))
  show ns.foldl Nat.add (0 + n) = n + sumOf ns
  rw [Nat.zero_add]
  exact start n 0

end

end LuaTune
