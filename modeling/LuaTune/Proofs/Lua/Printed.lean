import LuaTune.Fix.Edit
import LuaTune.Proofs.Lua.Pieces
import Mathlib.Data.List.Basic

/-!
# Printed tokens

The text of a token may hold any mark of its printed form. The offsets are read from the front and
the line from behind, and neither reading comes as far as the text.
-/

namespace LuaTune.Lua.Token

open List hiding find?
open Text

variable {c : Char} {n : Nat}

/-! ## Digits -/

theorem isDigit_of_mem_digits (h : c ∈ digits n) : c.isDigit :=
  Nat.isDigit_of_mem_toDigits (by decide) (by decide) h

theorem digit?_of_isDigit (h : c.isDigit) : digit? c = some (c.toNat - 48) := by
  obtain ⟨low, high⟩ := Bool.and_eq_true_iff.mp h
  have bounds : 48 ≤ c.toNat ∧ c.toNat ≤ 57 := ⟨of_decide_eq_true low, of_decide_eq_true high⟩
  have first : zeros.find? (fun z => z ≤ c.toNat && c.toNat < z + 10) = some 48 :=
    find?_cons_of_pos (by simp; omega)
  rw [digit?, first, Option.map_some]

theorem isDecimal_of_mem_digits (h : c ∈ digits n) : isDecimal c := by
  rw [isDecimal, digit?_of_isDigit (isDigit_of_mem_digits h), Option.isSome_some]

theorem readDecimal_digits (short : Decimal.isShort n) : readDecimal (digits n) = .ok n := by
  have few : (digits n).length ≤ Decimal.maxDigits := by
    rwa [digits, Nat.length_toDigits_le_iff (by decide) (by decide), ← Nat.pow_eq, ← Decimal.isShort_iff]
  have value : (digits n).foldl (fun k d => 10 * k + (digit? d).getD 0) 0 = Nat.ofDigitChars 10 (digits n) 0 :=
    foldl_ext _ _ 0 fun k d hd => by rw [digit?_of_isDigit (isDigit_of_mem_digits hd)]; rfl
  rw [readDecimal, if_pos few, value, digits, Nat.ofDigitChars_toDigits (by decide) (by decide)]

theorem groupedDigits?_eq_self {ds : Chars} (h : ∀ c ∈ ds, isDecimal c) (filled : ds ≠ []) :
    groupedDigits? ds = some ds := by
  induction ds with
  | nil => exact absurd rfl filled
  | cons c ds ih =>
    have first := h c mem_cons_self
    by_cases last : ds = []
    · rw [last, groupedDigits?, if_pos first]
    · rw [groupedDigits?, if_pos first, ih (fun d hd => h d (mem_cons_of_mem c hd)) last, Option.map_some]
      · exact last
      · rintro cs rfl
        exact absurd (h '_' (by simp)) (by decide)

theorem wholeNumber?_digits (short : Decimal.isShort n) : wholeNumber? (digits n) = some (n : Int) := by
  have bare : strip (digits n) = digits n :=
    strip_eq_self fun c hc => isBlank_of_isDigit (isDigit_of_mem_digits hc)
  have unsigned : signed (digits n) = (false, digits n) := by
    rw [signed] <;> intro cs h
    · exact not_mem_digits (c := '-') (by decide) n (h ▸ mem_cons_self)
    · exact not_mem_digits (c := '+') (by decide) n (h ▸ mem_cons_self)
  have grouped : groupedDigits? (digits n) = some (digits n) :=
    groupedDigits?_eq_self (fun _ => isDecimal_of_mem_digits) Nat.toDigits_ne_nil
  simp [wholeNumber?, bare, unsigned, grouped, readDecimal_digits short, Except.toOption]

/-! ## Reading -/

theorem digitsBefore?_append {m : Char} (other : isDecimal m = false) (marks rest : Chars) :
    digitsBefore? (m :: marks) (digits n ++ (m :: marks ++ rest)) = some (digits n, rest) := by
  have all : ∀ c ∈ digits n, isDecimal c := fun _ => isDecimal_of_mem_digits
  have front : (digits n ++ (m :: marks ++ rest)).takeWhile isDecimal = digits n := by
    rw [takeWhile_append_of_pos all, cons_append, takeWhile_cons_of_neg (by simp [other]), append_nil]
  have behind : (digits n ++ (m :: marks ++ rest)).dropWhile isDecimal = m :: marks ++ rest := by
    rw [dropWhile_append_of_pos all, cons_append, dropWhile_cons_of_neg (by simp [other])]
  have filled : (digits n).isEmpty = false := isEmpty_eq_false_iff.mpr Nat.toDigits_ne_nil
  simp only [digitsBefore?, front, behind, filled, stripPrefix?_eq_some.mpr rfl]
  rfl

theorem offsetDigits?_printedAs (t : Token) (kind : Chars) :
    offsetDigits? (t.printedAs kind) = some (digits t.start, digits t.stop) := by
  have mark (m : Char) (marks : Chars) (other : isDecimal m = false) (n : Nat) (rest : Chars) :=
    digitsBefore?_append (n := n) other marks rest
  unfold printedAs offsetDigits?
  simp only [append_assoc, stripPrefix?_eq_some.mpr rfl, Option.bind_eq_bind, Option.bind_some]
  rw [mark ',' [] (by decide), Option.bind_some, mark ':' [] (by decide), Option.bind_some,
    mark '=' ['\''] (by decide)]
  rfl

/-- The last comma is the one before the line, whatever comes before it. -/
theorem readLine_append (front : Chars) {line : Nat} (short : Decimal.isShort line) (column : Nat) :
    readLine (front ++ [','] ++ digits line ++ [':'] ++ digits column ++ [']']) = some (line : Int) := by
  let place := digits line ++ ':' :: digits column
  have whole : front ++ [','] ++ digits line ++ [':'] ++ digits column ++ [']'] =
      front ++ ',' :: (place ++ [']']) := by simp [place]
  have last : findLastChar? ',' (front ++ ',' :: (place ++ [']'])) = some front.length :=
    findLastChar?_append front (by simp [place, not_mem_digits])
  have behind : (front ++ ',' :: (place ++ [']'])).drop (front.length + 1) = place ++ [']'] := by simp
  have bracket : ']' ∉ place := by simp [place, not_mem_digits]
  have bare : dropEndWhile (· == ']') (place ++ [']']) = place := by
    rw [dropEndWhile, reverse_append, reverse_singleton, singleton_append, dropWhile_cons_of_pos rfl]
    exact dropEndWhile_eq_self fun c hc => beq_false_of_ne fun same => bracket (same ▸ hc)
  have colon : place.contains ':' := by simp [place]
  have before : place.takeWhile (· != ':') = digits line := by
    have plain : ∀ c ∈ digits line, c != ':' := fun c hc =>
      bne_iff_ne.mpr fun same => not_mem_digits (by decide) line (same ▸ hc)
    rw [takeWhile_append_of_pos plain]
    exact append_nil _
  simp only [readLine, whole, last, Option.bind_eq_bind, Option.bind_some, behind, bare, colon, if_true, before,
    wholeNumber?_digits short]

/-! ## Printing -/

/-- Numbers that are too long cannot be written. -/
def print? (t : Token) (kind : Chars) : Option Chars :=
  if [t.index, t.start, t.stop, t.line, t.column].all Decimal.isShort then some (t.printedAs kind) else none

/-- The places of a token as they are read from a printed form, and as they are taken for its nodes. -/
structure ReadsBack (t : Token) (s : Chars) : Prop where
  start : readStart s = .ok (some t.start)
  stop : readEnd s = .ok (some (t.stop + 1))
  line : lineOf (some s) = t.line
  endLine : ∀ first, endLineOf first (some s) = t.line
  offsets : readStart s = .ok (Fix.tokenStart (.at t)) ∧ readEnd s = .ok (Fix.tokenEnd (some t))
  lines : ∀ n : Node, (n.first = .at t → lineOf (some s) = n.line) ∧
    (n.last = some t → ∀ first, endLineOf first (some s) = n.endLine)

/-- Whatever the text of a token is and whatever stands for its kind, its places survive printing. -/
theorem places_survive_printing (t : Token) (kind s : Chars) (printed : t.print? kind = some s) :
    t.ReadsBack s := by
  obtain ⟨short, rfl⟩ : [t.index, t.start, t.stop, t.line, t.column].all Decimal.isShort ∧ t.printedAs kind = s := by
    simpa [print?] using printed
  simp only [all_cons, all_nil, Bool.and_true, Bool.and_eq_true] at short
  obtain ⟨-, start, stop, line, -⟩ := short
  have startRead : readStart (t.printedAs kind) = .ok (some t.start) := by
    rw [readStart, offsetDigits?_printedAs]
    simp [readDecimal_digits start]
  have endRead : readEnd (t.printedAs kind) = .ok (some (t.stop + 1)) := by
    rw [readEnd, offsetDigits?_printedAs]
    simp [readDecimal_digits stop]
  have read : readLine (t.printedAs kind) = some (t.line : Int) := readLine_append _ line t.column
  have lineRead : lineOf (some (t.printedAs kind)) = t.line := by
    rw [lineOf, Option.bind_some, read, Option.getD_some]
  have endLineRead (first) : endLineOf first (some (t.printedAs kind)) = t.line := by
    rw [endLineOf, Option.bind_some, read, Option.getD_some]
  refine ⟨startRead, endRead, lineRead, endLineRead, ⟨startRead, endRead⟩, fun n => ⟨fun first => ?_, fun last f => ?_⟩⟩
  · rw [lineRead, Node.line, first]
    rfl
  · rw [endLineRead, Node.endLine, last]

/-- A string whose text looks like the end of one printed form and the beginning of another. -/
def disguised : Token where
  kind := .string
  index := 7
  start := 40
  stop := 68
  text := "\"x',<58>,9:0],[@1,2:3='\n:,]\"".toList
  line := 3
  column := 12
  afterBreak := false

theorem disguised_read : ∃ s, disguised.print? (digits disguised.kind.code) = some s ∧ disguised.ReadsBack s := by
  have printed : disguised.print? (digits disguised.kind.code) = some disguised.render := by decide +kernel
  exact ⟨_, printed, places_survive_printing disguised _ _ printed⟩

end LuaTune.Lua.Token
