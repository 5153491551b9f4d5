import LuaTune.Proofs.Lua.Blocks

/-!
# Rows in nested blocks

How many lines come before the first row, and whether a block ends between it and a later one. A
declaration that is put in front of a line binds the rows after it in the block of the line.
-/

namespace LuaTune.Lua

variable {o : Outline Target}

namespace Outline

open List

variable {α β : Type}

def map (f : α → β) : Outline α → Outline β
  | .done => .done
  | .row a rest => .row (f a) (rest.map f)
  | .block body rest => .block (body.map f) (rest.map f)

def rows : Outline α → Nat
  | .done => 0
  | .row _ rest => rest.rows + 1
  | .block body rest => body.rows + rest.rows

def height : Outline α → Nat
  | .done => 0
  | .row _ rest => rest.height + 1
  | .block body rest => body.height + rest.height + 2

def lead : Outline α → Nat
  | .done => 0
  | .row _ _ => 0
  | .block body rest => if body.rows = 0 then body.height + 2 + rest.lead else body.lead + 1

def goesOnAfterBlock : Outline α → Bool
  | .done => false
  | .row _ rest => rest.goesOnAfterBlock
  | .block _ rest => decide (0 < rest.rows) || rest.goesOnAfterBlock

/-- Does a row come after the block of the first row, or in that block after the end of another one
that opened behind the first row? -/
def leavesFirst : Outline α → Bool
  | .done => false
  | .row _ rest => rest.goesOnAfterBlock
  | .block body rest =>
    if body.rows = 0 then rest.leavesFirst else body.leavesFirst || decide (0 < rest.rows)

/-- Does a block that opens on the first line hold all rows? -/
def isHeld : Outline α → Bool
  | .block _ rest => rest.rows == 0
  | .done | .row _ _ => false

@[simp] theorem rows_map (f : α → β) (o : Outline α) : (o.map f).rows = o.rows := by
  induction o <;> simp_all [map, rows]

@[simp] theorem height_map (f : α → β) (o : Outline α) : (o.map f).height = o.height := by
  induction o <;> simp_all [map, height]

@[simp] theorem goesOnAfterBlock_map (f : α → β) (o : Outline α) :
    (o.map f).goesOnAfterBlock = o.goesOnAfterBlock := by
  induction o <;> simp_all [map, goesOnAfterBlock]

theorem rows_le_height (o : Outline α) : o.rows ≤ o.height := by
  induction o with
  | done => exact Nat.le_refl 0
  | row a o ih => exact Nat.succ_le_succ ih
  | block body o ihBody ih =>
    rw [rows, height]
    omega

theorem lead_lt_height {o : Outline α} (h : 0 < o.rows) : o.lead < o.height := by
  induction o with
  | done => cases h
  | row a o ih => exact Nat.succ_pos _
  | block body o ihBody ih =>
    rw [rows] at h
    rw [lead, height]
    split
    · have := ih (by omega)
      omega
    · have := ihBody (by omega)
      omega

theorem length_lines (o : Outline Row) (d : Nat) : (o.lines d).length = o.height := by
  induction o generalizing d with
  | done => rfl
  | row r o ih => simp [lines, height, ih]
  | block body o ihBody ih =>
    simp only [lines, height, List.length_cons, List.length_append, ihBody, ih]
    omega

/-! ## Putting a declaration in front of a line -/

def insertAt (i : Indent) : Nat → Outline Row → Outline Row
  | 0, o => .row (.copy i) o
  | _ + 1, .done => .row (.copy i) .done
  | k + 1, .row r rest => .row r (insertAt i k rest)
  | k + 1, .block body rest =>
    if k ≤ body.height then .block (insertAt i k body) rest
    else .block body (insertAt i (k - (body.height + 1)) rest)

theorem lines_insertAt (i : Indent) (o : Outline Row) (d : Nat) {k : Nat} (h : k ≤ o.height) :
    ∃ e, (insertAt i k o).lines d = (o.lines d).take k ++ .row e (.copy i) :: (o.lines d).drop k := by
  induction o generalizing d k with
  | done =>
    obtain rfl := Nat.le_zero.mp h
    exact ⟨d, rfl⟩
  | row r o ih =>
    cases k with
    | zero => exact ⟨d, rfl⟩
    | succ k =>
      obtain ⟨e, others⟩ := ih d (Nat.le_of_succ_le_succ h)
      exact ⟨e, by rw [insertAt, lines, others]; rfl⟩
  | block body o ihBody ih =>
    cases k with
    | zero => exact ⟨d, rfl⟩
    | succ k =>
      have size := body.length_lines (d + 1)
      rw [insertAt]
      split
      · rename_i inside
        obtain ⟨e, inner⟩ := ihBody (d + 1) inside
        refine ⟨e, ?_⟩
        rw [lines, inner, lines, take_succ_cons, drop_succ_cons,
          take_append_of_le_length (by omega), drop_append_of_le_length (by omega)]
        simp
      · rename_i outside
        rw [height] at h
        obtain ⟨j, rfl⟩ := Nat.exists_eq_add_of_le (show body.height + 1 ≤ k by omega)
        obtain ⟨e, others⟩ := ih d (k := j) (by omega)
        refine ⟨e, ?_⟩
        have place : body.height + 1 + j = (body.lines (d + 1)).length + (j + 1) := by omega
        rw [Nat.add_sub_cancel_left, lines, others, lines, place, take_succ_cons,
          drop_succ_cons, take_length_add_append, drop_length_add_append]
        simp

/-! ## Where the copy is bound -/

theorem unbound_true (o : Outline Row) : o.unbound true = false := by
  induction o with
  | done => rfl
  | row r o ih => cases r <;> simp [unbound, ih]
  | block body o ihBody ih => rw [unbound, ihBody, ih, Bool.or_self]

theorem unbound_calls (o : Outline Target) (bound : Bool) : (o.map Row.call).unbound bound = false := by
  induction o with
  | done => rfl
  | row x o ih => exact ih
  | block body o ihBody ih => rw [map, unbound, ihBody, ih, Bool.or_self]

theorem unbound_uses (o : Outline Target) : (o.map Row.use).unbound false = decide (0 < o.rows) := by
  induction o with
  | done => rfl
  | row x o ih => simp [map, unbound, rows]
  | block body o ihBody ih =>
    rw [map, unbound, ihBody, ih, rows, ← Bool.decide_or]
    exact decide_eq_decide.mpr (by omega)

/-- In front of the first row the declaration binds all rows, unless one comes after the block. -/
theorem unbound_insertAt_lead (i : Indent) (some : 0 < o.rows)
    (h : o.leavesFirst = false) : (insertAt i o.lead (o.map Row.use)).unbound false = false := by
  induction o with
  | done => rfl
  | row x o ih => exact unbound_true _
  | block body o ihBody ih =>
    rw [rows] at some
    rw [leavesFirst] at h
    by_cases empty : body.rows = 0
    · rw [if_pos empty] at h
      have inner := unbound_uses body
      have others := ih (by omega) h
      have place : ¬ body.height + 1 + o.lead ≤ (body.map Row.use).height := by
        rw [height_map]
        omega
      have rest : body.height + 1 + o.lead - ((body.map Row.use).height + 1) = o.lead := by
        rw [height_map]
        omega
      have lines : body.height + 2 + o.lead = body.height + 1 + o.lead + 1 := by omega
      rw [lead, if_pos empty, lines, map, insertAt, if_neg place, rest, unbound, inner, others, empty]
      rfl
    · rw [if_neg empty, Bool.or_eq_false_iff] at h
      have inner := ihBody (by omega) h.1
      have others := unbound_uses o
      have place : body.lead ≤ (body.map Row.use).height := by
        rw [height_map]
        exact Nat.le_of_lt (lead_lt_height (by omega))
      rw [lead, if_neg empty, map, insertAt, if_pos place, unbound, inner, others, h.2]
      rfl

/-- In front of the second line the declaration binds all rows exactly if a block that opens on the
first line holds them. -/
theorem unbound_insertAt_one (i : Indent) (h : o.leavesFirst) :
    (insertAt i 1 (o.map Row.use)).unbound false = !o.isHeld := by
  cases o with
  | done => cases h
  | row x o => rfl
  | block body o =>
    have others := unbound_uses o
    rw [map, insertAt, if_pos (Nat.zero_le _), insertAt, unbound, unbound, unbound_true, others, isHeld]
    cases o.rows <;> rfl

end Outline

/-! ## From the first row to the last one -/

def Line.isRow : Line → Bool
  | .row _ _ => true
  | .opens _ | .closes _ => false

def closesAt (depth : Nat) : Line → Bool
  | .closes d => decide (d ≤ depth)
  | .row _ _ | .opens _ => false

structure CutAfterRows (ls middle behind : List Line) : Prop where
  lines : ls = middle ++ behind
  ends : ∀ l ∈ middle.getLast?, l.isRow
  blank : ∀ l ∈ behind, l.isRow = false

structure CutAtRows (ls front : List Line) (depth : Nat) (x : Target) (middle behind : List Line) :
    Prop where
  lines : ls = front ++ .row depth (.call x) :: (middle ++ behind)
  lead : ∀ l ∈ front, l.isRow = false
  ends : ∀ l ∈ middle.getLast?, l.isRow
  blank : ∀ l ∈ behind, l.isRow = false

namespace Outline

theorem not_closesAt_lines (o : Outline Row) {d e : Nat} (h : e < d) :
    (o.lines d).any (closesAt e) = false := by
  induction o generalizing d with
  | done => rfl
  | row r o ih => exact ih h
  | block body o ihBody ih =>
    have inner := ihBody (Nat.lt_succ_of_lt h)
    have own : closesAt e (.closes d) = false := decide_eq_false (Nat.not_le.mpr h)
    simp only [lines, List.any_cons, List.any_append, inner, own, ih h]
    rfl

theorem isRow_lines {o : Outline Row} (h : o.rows = 0) (d : Nat) : ∀ l ∈ o.lines d, l.isRow = false := by
  induction o generalizing d with
  | done => exact fun _ hl => nomatch hl
  | row r o ih => cases h
  | block body o ihBody ih =>
    obtain ⟨hb, ho⟩ := Nat.add_eq_zero_iff.mp h
    simp only [lines, List.forall_mem_cons, List.forall_mem_append]
    exact ⟨rfl, ihBody hb (d + 1), rfl, ih ho d⟩

theorem goesOnAfterBlock_of_rows {o : Outline α} (h : o.rows = 0) : o.goesOnAfterBlock = false := by
  induction o with
  | done => rfl
  | row a o ih => cases h
  | block body o ihBody ih =>
    obtain ⟨-, ho⟩ := Nat.add_eq_zero_iff.mp h
    rw [goesOnAfterBlock, ho, ih ho]
    rfl

theorem exists_cutAfterRows (o : Outline Row) (d : Nat) : ∃ middle behind,
    CutAfterRows (o.lines d) middle behind ∧ middle.any (closesAt d) = o.goesOnAfterBlock ∧
      (0 < o.rows → middle ≠ []) := by
  induction o generalizing d with
  | done => exact ⟨[], [], ⟨rfl, by simp, by simp⟩, rfl, fun h => absurd h (Nat.lt_irrefl 0)⟩
  | row r o ih =>
    obtain ⟨middle, behind, cut, closes, -⟩ := ih d
    refine ⟨.row d r :: middle, behind, ⟨?_, ?_, cut.blank⟩, closes, fun _ => List.cons_ne_nil _ _⟩
    · rw [lines, cut.lines, List.cons_append]
    · intro l hl
      cases middle with
      | nil =>
        obtain rfl : Line.row d r = l := by simpa using hl
        rfl
      | cons m ms => exact cut.ends l (by simpa using hl)
  | block body o ihBody ih =>
    by_cases others : o.rows = 0
    · obtain ⟨middle, behind, cut, -, some⟩ := ihBody (d + 1)
      have inner := not_closesAt_lines body (Nat.lt_succ_self d)
      rw [cut.lines, List.any_append, Bool.or_eq_false_iff] at inner
      have blank : ∀ l ∈ behind ++ .closes d :: o.lines d, l.isRow = false := by
        simp only [List.forall_mem_append, List.forall_mem_cons]
        exact ⟨cut.blank, rfl, isRow_lines others d⟩
      have goesOn : goesOnAfterBlock (.block body o) = false := by
        rw [goesOnAfterBlock, others, goesOnAfterBlock_of_rows others]
        rfl
      cases middle with
      | nil =>
        -- no rows at all
        refine ⟨[], lines d (.block body o), ⟨rfl, by simp, ?_⟩, goesOn.symm, fun h => ?_⟩
        · rw [lines, cut.lines, List.append_assoc]
          exact List.forall_mem_cons.mpr ⟨rfl, blank⟩
        · rw [rows, others] at h
          exact absurd rfl (some h)
      | cons m ms =>
        refine ⟨.opens d :: m :: ms, behind ++ .closes d :: o.lines d, ⟨?_, ?_, blank⟩, ?_,
          fun _ => List.cons_ne_nil _ _⟩
        · rw [lines, cut.lines]
          simp
        · intro l hl
          exact cut.ends l (by simpa using hl)
        · rw [List.any_cons, inner.1, goesOn]
          rfl
    · obtain ⟨middle, behind, cut, -, some⟩ := ih d
      have rest := some (Nat.pos_of_ne_zero others)
      refine ⟨.opens d :: (body.lines (d + 1) ++ .closes d :: middle), behind, ⟨?_, ?_, cut.blank⟩, ?_,
        fun _ => List.cons_ne_nil _ _⟩
      · rw [lines, cut.lines]
        simp
      · intro l hl
        obtain ⟨m, ms, rfl⟩ := List.exists_cons_of_ne_nil rest
        exact cut.ends l (by simpa [List.getLast?_cons, List.getLast?_append] using hl)
      · have own : closesAt d (.closes d) = true := decide_eq_true (Nat.le_refl d)
        have after : decide (0 < o.rows) = true := decide_eq_true (Nat.pos_of_ne_zero others)
        rw [goesOnAfterBlock, after]
        simp [own]

/-- From the first row to the last one, the block of the first row ends exactly if the rows leave
it. -/
theorem exists_cutAtRows (h : 0 < o.rows) (d : Nat) :
    ∃ front depth x middle behind,
      CutAtRows ((o.map Row.call).lines d) front depth x middle behind ∧ front.length = o.lead ∧
        d ≤ depth ∧ middle.any (closesAt depth) = o.leavesFirst := by
  induction o generalizing d with
  | done => cases h
  | row x o ih =>
    obtain ⟨middle, behind, cut, closes, -⟩ := exists_cutAfterRows (o.map Row.call) d
    refine ⟨[], d, x, middle, behind, ⟨?_, by simp, cut.ends, cut.blank⟩, rfl, Nat.le_refl d, ?_⟩
    · rw [map, lines, cut.lines]
      rfl
    · rw [closes, leavesFirst, goesOnAfterBlock_map]
  | block body o ihBody ih =>
    rw [rows] at h
    have inner : (body.map Row.call).rows = body.rows := rows_map _ _
    have outer : (o.map Row.call).rows = o.rows := rows_map _ _
    by_cases empty : body.rows = 0
    · obtain ⟨front, depth, x, middle, behind, cut, lead, deep, closes⟩ := ih (by omega) d
      refine ⟨.opens d :: ((body.map Row.call).lines (d + 1) ++ .closes d :: front), depth, x, middle,
        behind, ⟨?_, ?_, cut.ends, cut.blank⟩, ?_, deep, ?_⟩
      · rw [map, lines, cut.lines]
        simp
      · simp only [List.forall_mem_cons, List.forall_mem_append]
        exact ⟨rfl, isRow_lines (inner.trans empty) _, rfl, cut.lead⟩
      · simp only [List.length_cons, List.length_append, length_lines, height_map, lead, Outline.lead,
          if_pos empty]
        omega
      · rw [closes, leavesFirst, if_pos empty]
    · obtain ⟨front, depth, x, middle, behind, cut, lead, deep, closes⟩ := ihBody (by omega) (d + 1)
      have lead' : (Line.opens d :: front).length = Outline.lead (.block body o) := by
        rw [List.length_cons, lead, Outline.lead, if_neg empty]
      have opening : ∀ l ∈ .opens d :: front, l.isRow = false := List.forall_mem_cons.mpr ⟨rfl, cut.lead⟩
      by_cases others : o.rows = 0
      · refine ⟨.opens d :: front, depth, x, middle, behind ++ .closes d :: (o.map Row.call).lines d,
          ⟨?_, opening, cut.ends, ?_⟩, lead', by omega, ?_⟩
        · rw [map, lines, cut.lines]
          simp
        · simp only [List.forall_mem_append, List.forall_mem_cons]
          exact ⟨cut.blank, rfl, isRow_lines (outer.trans others) d⟩
        · rw [closes, leavesFirst, if_neg empty, others]
          simp
      · obtain ⟨rest, behind', cut', -, some⟩ := exists_cutAfterRows (o.map Row.call) d
        have nonempty := some (by omega)
        refine ⟨.opens d :: front, depth, x, middle ++ (behind ++ .closes d :: rest), behind',
          ⟨?_, opening, ?_, cut'.blank⟩, lead', by omega, ?_⟩
        · rw [map, lines, cut.lines, cut'.lines]
          simp
        · intro l hl
          obtain ⟨m, ms, rfl⟩ := List.exists_cons_of_ne_nil nonempty
          exact cut'.ends l (by simpa [List.getLast?_cons, List.getLast?_append] using hl)
        · have own : closesAt depth (.closes d) = true := decide_eq_true (by omega)
          have after : decide (0 < o.rows) = true := decide_eq_true (Nat.pos_of_ne_zero others)
          rw [leavesFirst, if_neg empty, after]
          simp [own]

end Outline

end LuaTune.Lua
