import LuaTune.Lua.Syntax.Parse
import Mathlib.Tactic.Common

/-!
# Reading names and symbols

What stands in front of a text is read without regard to the text, as long as the text does not go
on with the same token. So tokens can be read one after the other.
-/

namespace LuaTune.Lua

open Text List

variable {c : Char} {cs : Chars}

/-! ## Names -/

structure Identifier where
  first : Char
  rest : Chars
  starts : isNameStart first
  goesOn : rest.all isNameChar
  free : Keyword.ofText? (first :: rest) = none

def Identifier.text (n : Identifier) : Chars := n.first :: n.rest

theorem isNameChar_of_isNameStart (h : isNameStart c) : isNameChar c := by
  simp only [isNameStart, isNameChar, Char.isAlphanum, Bool.or_eq_true] at *
  rcases h with alpha | underscore
  · exact .inl (.inl alpha)
  · exact .inr underscore

theorem ne_of_isNameChar {d : Char} (h : isNameChar c) (hd : isNameChar d = false) : c ≠ d := by
  rintro rfl
  simp [hd] at h

theorem isBlank_eq_false (h : isNameChar c) : isBlank c = false := by
  change (((c.isUpper || c.isLower) || c.isDigit) || c == '_') = true at h
  have range : 48 ≤ c.toNat ∧ c.toNat ≤ 122 := by
    simp only [Bool.or_eq_true, beq_iff_eq] at h
    rcases h with ((upper | lower) | digit) | rfl
    · obtain ⟨low, high⟩ := of_decide_eq_true upper
      exact ⟨Nat.le_trans (by decide) low, Nat.le_trans high (by decide)⟩
    · obtain ⟨low, high⟩ := Bool.and_eq_true_iff.mp lower
      exact ⟨Nat.le_trans (by decide) (of_decide_eq_true low), of_decide_eq_true high⟩
    · obtain ⟨low, high⟩ := Bool.and_eq_true_iff.mp digit
      exact ⟨of_decide_eq_true low, Nat.le_trans (of_decide_eq_true high) (by decide)⟩
    · decide
  simp only [isBlank, Bool.or_eq_false_iff, Bool.and_eq_false_iff, decide_eq_false_iff_not,
    beq_eq_false_iff_ne]
  omega

namespace Identifier

variable (n : Identifier)

theorem isNameChar_of_mem {c : Char} (h : c ∈ n.text) : isNameChar c := by
  rcases mem_cons.mp h with rfl | h
  · exact isNameChar_of_isNameStart n.starts
  · exact all_eq_true.mp n.goesOn c h

theorem not_mem {d : Char} (hd : isNameChar d = false) : d ∉ n.text :=
  fun h => ne_of_isNameChar (n.isNameChar_of_mem h) hd rfl

theorem not_mem_of_mem {c : Char} {ds : Chars} (h : c ∈ n.text)
    (hd : ds.any isNameChar = false) : c ∉ ds :=
  fun hc => any_eq_false.mp hd c hc (n.isNameChar_of_mem h)

theorem first_beq {d : Char} (hd : isNameChar d = false) : (n.first == d) = false :=
  beq_eq_false_iff_ne.mpr (ne_of_isNameChar (isNameChar_of_isNameStart n.starts) hd)

end Identifier

/-! ## Places -/

def Cursor.ahead (p : Cursor) (chars pieces : Nat) : Cursor :=
  ⟨p.offset + chars, p.line, p.column + chars, p.index + pieces, false⟩

def Cursor.newline (p : Cursor) : Cursor := ⟨p.offset + 1, p.line + 1, 0, p.index + 1, true⟩

def Cursor.token (p : Cursor) (k : Kind) (text : Chars) : Token :=
  ⟨k, p.index, p.offset, p.offset + (text.length - 1), text, p.line, p.column, p.afterBreak⟩

theorem Cursor.pass_of_not_mem (p : Cursor) (h : '\n' ∉ cs) :
    p.pass cs = ⟨p.offset + cs.length, p.line, p.column + cs.length, p.index, p.afterBreak⟩ := by
  unfold Cursor.pass countChar
  rw [count_eq_zero_of_not_mem h]
  rfl

theorem Cursor.ahead_ahead (p : Cursor) (c d i j : Nat) :
    (p.ahead c i).ahead d j = p.ahead (c + d) (i + j) := by
  simp [Cursor.ahead, Nat.add_assoc]

/-! ## Reading -/

theorem scanFrom_append (p : Cursor) (xs ys : Chars) :
    scanFrom xs.length p (xs ++ ys) = scanFrom 0 p ys := by
  induction xs with
  | nil => rfl
  | cons x xs ih => exact ih

theorem runLength_append {p : Char → Bool} {xs : Chars} (h : ∀ c ∈ xs, p c)
    (ends : ∀ c ∈ cs.head?, p c = false) : runLength p (xs ++ cs) = xs.length := by
  unfold runLength
  rw [takeWhile_append_of_pos h]
  cases cs with
  | nil => simp
  | cons c cs => simp [ends c rfl]

theorem lexeme_identifier (n : Identifier) (ends : ∀ c ∈ cs.head?, isNameChar c = false) :
    lexeme n.first (n.rest ++ cs) = ⟨.token .name, n.rest.length⟩ := by
  have other := @Identifier.first_beq n
  have run := runLength_append (all_eq_true.mp n.goesOn) ends
  have text : (n.rest ++ cs).take n.rest.length = n.rest := take_left
  unfold lexeme isEndOfLine
  simp only [@other ' ' (by decide), @other '\t' (by decide), @other '\n' (by decide),
    @other '\r' (by decide), @other '\x0c' (by decide), n.starts, run, text, n.free, Bool.or_self,
    Bool.false_eq_true, if_false, if_true]

theorem scanFrom_lexeme (p : Cursor) (c : Char) (cs rest : Chars) {k : Kind}
    (h : lexeme c (cs ++ rest) = ⟨.token k, cs.length⟩) (hn : '\n' ∉ c :: cs) :
    scanFrom 0 p (c :: cs ++ rest) =
      p.token k (c :: cs) :: scanFrom 0 (p.ahead (c :: cs).length 1) rest := by
  rw [cons_append, scanFrom]
  simp only [h, take_left]
  rw [scanFrom_append, p.pass_of_not_mem hn]
  rfl

theorem scanFrom_identifier (n : Identifier) (p : Cursor) (hc : isNameChar c = false) (cs : Chars) :
    scanFrom 0 p (n.text ++ c :: cs) =
      p.token .name n.text :: scanFrom 0 (p.ahead n.text.length 1) (c :: cs) :=
  scanFrom_lexeme p _ _ _ (lexeme_identifier n (by simpa using hc)) (n.not_mem (by decide))

theorem scanFrom_blank (p : Cursor) (k i : Nat) (hc : isNameChar c) (cs : Chars) :
    scanFrom 0 (p.ahead k i) (' ' :: c :: cs) = scanFrom 0 (p.ahead (k + 1) (i + 1)) (c :: cs) := by
  have other : ∀ d, isNameChar d = false → (c == d) = false := fun d hd =>
    beq_eq_false_iff_ne.mpr (ne_of_isNameChar hc hd)
  have hidden : lexeme ' ' (c :: cs) = ⟨.hidden, 0⟩ := by
    unfold lexeme runLength
    simp [other ' ' (by decide), other '\t' (by decide)]
  rw [scanFrom, hidden]
  rfl

theorem scanFrom_token (p : Cursor) {k : Kind} (h : lexeme c cs = ⟨.token k, 0⟩) (hc : c ≠ '\n') :
    scanFrom 0 p (c :: cs) = p.token k [c] :: scanFrom 0 (p.ahead 1 1) cs :=
  scanFrom_lexeme p c [] cs h (by simpa using hc.symm)

theorem lexeme_hash (hc : c ≠ '!') (cs : Chars) : lexeme '#' (c :: cs) = ⟨.token (.symbol .hash), 0⟩ := by
  have other : ((c :: cs).head? == some '!') = false :=
    beq_eq_false_iff_ne.mpr fun h => hc (Option.some.inj h)
  unfold lexeme
  rw [other, Bool.and_false]
  rfl

theorem scanFrom_equal (p : Cursor) (k i : Nat) (hc : isNameChar c) (cs : Chars) :
    scanFrom 0 (p.ahead k i) (' ' :: '=' :: ' ' :: c :: cs) =
      (p.ahead (k + 1) (i + 1)).token (.symbol .equal) ['='] ::
        scanFrom 0 (p.ahead (k + 3) (i + 3)) (c :: cs) :=
  congrArg _ (scanFrom_blank p (k + 2) (i + 2) hc cs)

theorem scanFrom_value (n : Identifier) (p : Cursor) (k i : Nat) (hc : isNameChar c = false) (cs : Chars) :
    scanFrom 0 (p.ahead k i) (' ' :: '=' :: ' ' :: (n.text ++ c :: cs)) =
      (p.ahead (k + 1) (i + 1)).token (.symbol .equal) ['='] :: (p.ahead (k + 3) (i + 3)).token .name n.text ::
        scanFrom 0 (p.ahead (k + 3 + n.text.length) (i + 4)) (c :: cs) := by
  have value := scanFrom_identifier n (p.ahead (k + 3) (i + 3)) hc cs
  rw [Cursor.ahead_ahead] at value
  exact (scanFrom_equal p k i (isNameChar_of_isNameStart n.starts) _).trans (congrArg _ value)

/-! ## Lines -/

def isSpace (c : Char) : Bool := c == ' ' || c == '\t'

def startsLine (c : Char) : Bool := isNameChar c || isSpace c

theorem scanFrom_newline (p : Cursor) (h : ∀ c ∈ cs.head?, startsLine c) :
    scanFrom 0 p ('\n' :: cs) = scanFrom 0 p.newline cs := by
  have noBreak : runLength (fun c => isEndOfLine c || c == '\x0c') cs = 0 := by
    cases cs with
    | nil => rfl
    | cons c cs =>
      have other : ∀ d, startsLine d = false → (c == d) = false := fun d hd =>
        beq_eq_false_iff_ne.mpr fun same => by simp [← same, h c rfl] at hd
      simp [runLength, isEndOfLine, other '\n' (by decide), other '\r' (by decide),
        other '\x0c' (by decide)]
  have ends : lexeme '\n' cs = ⟨.lineBreak, 0⟩ := by
    unfold lexeme
    rw [noBreak]
    rfl
  rw [scanFrom, ends]
  rfl

def Cursor.indented (p : Cursor) : Chars → Cursor
  | [] => p
  | b :: bs => { p.ahead (b :: bs).length 1 with afterBreak := p.afterBreak }

theorem Cursor.offset_indented (p : Cursor) (bs : Chars) :
    (p.indented bs).offset = p.offset + bs.length := by
  cases bs <;> rfl

theorem Cursor.line_indented (p : Cursor) (bs : Chars) : (p.indented bs).line = p.line := by
  cases bs <;> rfl

theorem scanFrom_indented (p : Cursor) {bs : Chars} (hb : bs.all isSpace) (hc : isNameChar c)
    (cs : Chars) : scanFrom 0 p (bs ++ c :: cs) = scanFrom 0 (p.indented bs) (c :: cs) := by
  cases bs with
  | nil => rfl
  | cons b bs =>
    have spaces := all_eq_true.mp hb
    have none : '\n' ∉ b :: bs := fun h => Bool.false_ne_true (spaces _ h)
    have other : isSpace c = false := by
      have blank : (c == ' ') = false := beq_eq_false_iff_ne.mpr (ne_of_isNameChar hc (by decide))
      have tab : (c == '\t') = false := beq_eq_false_iff_ne.mpr (ne_of_isNameChar hc (by decide))
      rw [isSpace, blank, tab, Bool.or_self]
    have run : runLength isSpace (bs ++ c :: cs) = bs.length :=
      runLength_append (fun x hx => spaces x (mem_cons_of_mem b hx)) (by simpa using other)
    have hidden : lexeme b (bs ++ c :: cs) = ⟨.hidden, bs.length⟩ := by
      have first : (b == ' ' || b == '\t') = true := spaces b mem_cons_self
      rw [lexeme, if_pos first]
      exact congrArg (Lexeme.mk .hidden) run
    rw [cons_append, scanFrom]
    simp only [hidden, take_left]
    rw [scanFrom_append, p.pass_of_not_mem none]
    rfl

/-! ## Statements -/

def nameAt (t : Token) : Expr := .name ⟨t.name, t⟩

def startsStat (k : Kind) : Prop := k = .name ∨ k = .keyword .local_ ∨ k = .keyword .do_

namespace Grammar

theorem lastTaken_append (taken rest : List Token) :
    lastTaken (taken ++ rest) rest = taken.getLast? := by
  simp [lastTaken]

end Grammar

end LuaTune.Lua
