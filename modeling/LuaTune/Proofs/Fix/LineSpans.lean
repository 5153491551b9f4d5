import LuaTune.Proofs.Fix.Rows

/-!
# The spans of all lines

The spans of the lines lie side by side and fill the script, so a line can be found by an offset and
an offset by its line.
-/

namespace LuaTune.Text

open List hiding splitOn

theorem not_mem_piece {cut : Char → Bool} {c : Char} (h : cut c) (n : Nat) (cs : Chars) : c ∉ piece cut n cs := by
  fun_induction piece cut n cs with
  | case1 => exact not_mem_nil
  | case2 d cs ends => exact not_mem_nil
  | case3 d cs goesOn ih => exact not_mem_cons_of_ne_of_not_mem (fun same => goesOn (same ▸ h)) ih
  | case4 n d cs ih => exact ih

theorem length_newlineLines (cs : Chars) : (newlineLines cs).length = countChar '\n' cs + 1 := by
  induction cs with
  | nil => rfl
  | cons c cs ih =>
    obtain ⟨l, ls, table⟩ := exists_cons_of_ne_nil (splitOn_ne_nil '\n' cs)
    rw [newlineLines, table] at ih
    by_cases newline : c = '\n'
    · simpa [newlineLines, splitOn, newline, table, countChar] using ih
    · simpa [newlineLines, splitOn, newline, table, countChar] using ih

end LuaTune.Text

namespace LuaTune.Fix

open List hiding splitOn
open Text

variable {source : Chars} {n : Nat}

theorem lineAt?_eq_some_iff {line : Int} {l : Chars} : lineAt? (newlineLines source) line = some l ↔
    ∃ n < (newlineLines source).length, line = (n + 1 : Nat) ∧ l = piece isNewline n source := by
  unfold lineAt?
  constructor
  · intro h
    split at h
    · obtain ⟨inside, -⟩ := List.getElem?_eq_some_iff.mp h
      refine ⟨(line - 1).toNat, inside, by omega, ?_⟩
      rw [← getD_splitOn, ← newlineLines, h, Option.getD_some]
    · cases h
  · rintro ⟨n, inside, rfl, rfl⟩
    have number : (((n + 1 : Nat) : Int) - 1).toNat = n := by omega
    rw [if_pos (by omega), number, ← getD_splitOn, ← newlineLines, getElem?_eq_getElem inside, Option.getD_some]

theorem lineSpan_eq_some_iff {line : Int} {a b : Nat} : lineSpan source line = some (a, b) ↔
    ∃ n < (newlineLines source).length,
      line = (n + 1 : Nat) ∧ a = lineOffset source n ∧ b = lineOffset source (n + 1) := by
  constructor
  · intro h
    obtain ⟨l, here, -⟩ := Option.map_eq_some_iff.mp h
    obtain ⟨n, inside, rfl, -⟩ := lineAt?_eq_some_iff.mp here
    rw [lineSpan_eq inside] at h
    cases h
    exact ⟨n, inside, rfl, rfl, rfl⟩
  · rintro ⟨n, inside, rfl, rfl, rfl⟩
    exact lineSpan_eq inside

theorem lineEnd_eq (h : n < (newlineLines source).length) :
    lineEnd source (n + 1 : Nat) = some (lineOffset source n + (piece isNewline n source).length) := by
  have number : (((n + 1 : Nat) : Int) - 1).toNat = n := by omega
  have start := lineStart_eq (Nat.le_of_lt h)
  rw [if_neg (Nat.ne_of_lt h)] at start
  rw [lineEnd, lineAt?_eq_some_iff.mpr ⟨n, h, rfl, rfl⟩, Option.map_some, number, start]
  rfl

theorem lineOffset_succ (h : n < (newlineLines source).length) : lineOffset source (n + 1) =
    lineOffset source n + (piece isNewline n source).length + if n < countChar '\n' source then 1 else 0 := by
  have size := length_newlineLines source
  have number : (((n + 1 : Nat) : Int) - 1).toNat = n := by omega
  have start := lineStart_eq (Nat.le_of_lt h)
  have span := lineSpan_eq h
  rw [if_neg (Nat.ne_of_lt h)] at start
  rw [lineSpan, lineAt?_eq_some_iff.mpr ⟨n, h, rfl, rfl⟩, Option.map_some, number, start] at span
  have stop := congrArg Prod.snd (Option.some.inj span)
  simp only [size, Nat.add_zero, Int.ofNat_lt, Nat.add_lt_add_iff_right] at stop
  rw [lineOffset, lineOffset, ← stop]
  split <;> rfl

/-- Only the last line has no newline behind it. -/
theorem lineText?_eq_piece (h : n < (newlineLines source).length) : lineText? source (n + 1 : Nat) =
    some (piece isNewline n source ++ if n < countChar '\n' source then ['\n'] else []) := by
  obtain ⟨stop, short, line⟩ := lineText?_eq h
  have size : (piece isNewline n source ++ stop).length = lineOffset source (n + 1) - lineOffset source n := by
    have cut := line
    rw [lineText?, lineSpan_eq h, Option.map_some, Option.some_inj] at cut
    rw [← cut, slice, length_take, length_drop]
    exact Nat.min_eq_left (Nat.sub_le_sub_right (lineOffset_le source (n + 1)) _)
  rw [lineOffset_succ h, length_append] at size
  rw [line]
  split at size
  · next inner => rw [if_pos inner, short.eq_of_length (by rw [length_singleton]; omega)]
  · next last => rw [if_neg last, eq_nil_of_length_eq_zero (l := stop) (by omega)]

/-! ## All lines -/

/-- Line `line` is the only one whose span has the offset `o` in it. -/
def IsLineOf (source : Chars) (o : Nat) (line : Int) : Prop :=
  ∀ n : Int, (∃ a b, lineSpan source n = some (a, b) ∧ a ≤ o ∧ o < b) ↔ n = line

/-- The line spans fill a script with `k` newlines. -/
structure LinesFill (source : Chars) (k : Nat) : Prop where
  defined : ∀ line : Int, (lineSpan source line).isSome ↔ 1 ≤ line ∧ line ≤ k + 1
  first : (lineSpan source 1).map Prod.fst = some 0
  next : ∀ n < k, (lineSpan source (n + 1 + 1 : Nat)).map Prod.fst = (lineSpan source (n + 1 : Nat)).map Prod.snd
  last : (lineSpan source (k + 1 : Nat)).map Prod.snd = some source.length
  whole : ((List.range (k + 1)).filterMap fun n => lineText? source (n + 1 : Nat)).flatten = source
  inner : ∀ n < k, ∃ l, '\n' ∉ l ∧ lineText? source (n + 1 : Nat) = some (l ++ ['\n'])
  final : ∃ l, '\n' ∉ l ∧ lineText? source (k + 1 : Nat) = some l
  start : ∀ line a b, lineSpan source line = some (a, b) → a = lineStart (newlineLines source) (line - 1).toNat
  stop : ∀ line, lineEnd source line = (lineSpan source line).map fun s => if line ≤ k then s.2 - 1 else s.2
  offsets : ∀ o < source.length, IsLineOf source o (lineOfOffset source o)

theorem isLineOf_lineOfOffset {o : Nat} (h : o < source.length) : IsLineOf source o (lineOfOffset source o) := by
  have around := Lua.firstLines_around (source.take o) source[o] (source.drop (o + 1))
  rw [← drop_eq_getElem_cons h, take_append_drop, length_take, Nat.min_eq_left (Nat.le_of_lt h)] at around
  obtain ⟨inside, before, behind⟩ := around
  intro line
  constructor
  · rintro ⟨a, b, span, start, stop⟩
    obtain ⟨n, -, rfl, rfl, rfl⟩ := lineSpan_eq_some_iff.mp span
    have low := lt_of_lineOffset_lt (Nat.lt_of_le_of_lt start behind)
    have high := lt_of_lineOffset_lt (Nat.lt_of_le_of_lt before stop)
    have same : n = countChar '\n' (source.take o) := by omega
    rw [same, lineOfOffset]
  · rintro rfl
    exact ⟨_, _, lineSpan_eq inside, before, behind⟩

theorem flatten_lineTexts (source : Chars) :
    ((List.range (newlineLines source).length).filterMap fun i => lineText? source (i + 1 : Nat)).flatten = source := by
  have each : ∀ i ∈ List.range (newlineLines source).length,
      lineText? source (i + 1 : Nat) = some (rowAt [] source i).old := by
    intro i hi
    rw [lineText?, lineSpan_eq (List.mem_range.mp hi), Option.map_some, rowAt]
    rfl
  rw [filterMap_congr each, filterMap_eq_map', ← flatMap_def, flatMap_rowAt_old, lineOffset, firstLines_all,
    take_length]

theorem lineEnd_eq_span (line : Int) : lineEnd source line =
    (lineSpan source line).map fun s => if line ≤ countChar '\n' source then s.2 - 1 else s.2 := by
  cases here : lineAt? (newlineLines source) line with
  | none => simp [lineEnd, lineSpan, here]
  | some l =>
    obtain ⟨n, inside, rfl, -⟩ := lineAt?_eq_some_iff.mp here
    have stop := lineOffset_succ inside
    rw [lineEnd_eq inside, lineSpan_eq_some_iff.mpr ⟨n, inside, rfl, rfl, rfl⟩, Option.map_some, Option.some_inj]
    split at stop <;> split <;> omega

/-- The spans of the lines are those of the pieces between newlines, and each offset lies in the line
that the newlines before it count. -/
theorem lineSpans_fill (source : Chars) : LinesFill source (countChar '\n' source) := by
  have size := length_newlineLines source
  have inside {n : Nat} (h : n ≤ countChar '\n' source) : n < (newlineLines source).length := by omega
  have newline {n : Nat} : '\n' ∉ piece isNewline n source := not_mem_piece rfl n source
  constructor
  case defined =>
    intro line
    rw [Option.isSome_iff_exists]
    constructor
    · rintro ⟨⟨a, b⟩, span⟩
      obtain ⟨n, inside, rfl, -⟩ := lineSpan_eq_some_iff.mp span
      omega
    · rintro ⟨low, high⟩
      have number : line = ((line - 1).toNat + 1 : Nat) := by omega
      exact ⟨_, number ▸ lineSpan_eq (inside (by omega))⟩
  case first =>
    have line : lineSpan source 1 = _ := lineSpan_eq (inside (Nat.zero_le _))
    rw [line, Option.map_some]
    exact congrArg some lineOffset_zero
  case next =>
    intro n hn
    rw [lineSpan_eq (inside hn), lineSpan_eq (inside (Nat.le_of_lt hn))]
    rfl
  case last =>
    rw [lineSpan_eq (inside (Nat.le_refl _)), ← size, firstLines_all]
    rfl
  case whole => exact size ▸ flatten_lineTexts source
  case inner =>
    intro n hn
    have line := lineText?_eq_piece (inside (Nat.le_of_lt hn))
    rw [if_pos hn] at line
    exact ⟨_, newline, line⟩
  case final =>
    have line := lineText?_eq_piece (inside (Nat.le_refl _))
    rw [if_neg (Nat.lt_irrefl _), append_nil] at line
    exact ⟨_, newline, line⟩
  case start =>
    intro line a b span
    obtain ⟨l, -, ends⟩ := Option.map_eq_some_iff.mp span
    exact (congrArg Prod.fst ends).symm
  case stop => exact lineEnd_eq_span
  case offsets => exact fun o inside => isLineOf_lineOfOffset inside

end LuaTune.Fix
