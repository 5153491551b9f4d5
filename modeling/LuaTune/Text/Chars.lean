/-! # Characters -/

namespace LuaTune

abbrev Chars := List Char

end LuaTune

namespace LuaTune.Text

/-! ## Columns of text -/

def blanks (n : Nat) : String := String.ofList (List.replicate n ' ')

def padRight (width : Nat) (s : String) : String := s ++ blanks (width - s.length)

def padLeft (width : Nat) (s : String) : String := blanks (width - s.length) ++ s

/-!
## Blank characters

Scripts are read one byte to a character, so `\x85` and `\xa0` do occur.
-/

/-- White space in the widest sense: the ASCII controls from tab to return and from file to unit
separator, the space, the next-line and no-break characters, and the other Unicode spaces. -/
def isBlank (c : Char) : Bool :=
  let n := c.toNat
  (9 ≤ n && n ≤ 13) || (28 ≤ n && n ≤ 32) || n == 0x85 || n == 0xa0 || n == 0x1680
    || (0x2000 ≤ n && n ≤ 0x200a) || n == 0x2028 || n == 0x2029 || n == 0x202f || n == 0x205f
    || n == 0x3000

def dropEndWhile (p : Char → Bool) (cs : Chars) : Chars :=
  (cs.reverse.dropWhile p).reverse

def stripLeft (cs : Chars) : Chars := cs.dropWhile isBlank

def stripRight (cs : Chars) : Chars := dropEndWhile isBlank cs

def strip (cs : Chars) : Chars := stripRight (stripLeft cs)

section

variable {p : Char → Bool} {cs : Chars}

theorem dropWhile_eq_self (h : ∀ c ∈ cs, p c = false) : cs.dropWhile p = cs := by
  cases cs with
  | nil => rfl
  | cons c cs => rw [List.dropWhile_cons_of_neg (by simp [h c List.mem_cons_self])]

theorem dropEndWhile_eq_self (h : ∀ c ∈ cs, p c = false) : dropEndWhile p cs = cs := by
  rw [dropEndWhile, dropWhile_eq_self (by simpa using h), List.reverse_reverse]

theorem strip_eq_self (h : ∀ c ∈ cs, isBlank c = false) : strip cs = cs := by
  rw [strip, stripLeft, stripRight, dropWhile_eq_self h, dropEndWhile_eq_self h]

end

def trimWhile (p : Char → Bool) (cs : Chars) : Chars := dropEndWhile p (cs.dropWhile p)

def indentOf (cs : Chars) : Chars := cs.takeWhile isBlank

def wordsFrom (run : Chars) : Chars → List Chars
  | [] => if run.isEmpty then [] else [run.reverse]
  | c :: cs =>
    if isBlank c then
      if run.isEmpty then wordsFrom [] cs else run.reverse :: wordsFrom [] cs
    else wordsFrom (c :: run) cs

def words (cs : Chars) : List Chars := wordsFrom [] cs

/-! ## Word characters -/

/-- Letters and digits of the first 256 characters, which is all that a script read one byte to a
character can hold: the ASCII ones, the accented letters, and the raised and fractional numbers. -/
def isAlnum (c : Char) : Bool :=
  let n := c.toNat
  (48 ≤ n && n ≤ 57) || (65 ≤ n && n ≤ 90) || (97 ≤ n && n ≤ 122)
    || n == 0xaa || n == 0xb5 || n == 0xba || n == 0xb2 || n == 0xb3 || n == 0xb9
    || (0xbc ≤ n && n ≤ 0xbe) || (0xc0 ≤ n && n ≤ 0xff && n != 0xd7 && n != 0xf7)

def isWordChar (c : Char) : Bool := isAlnum c || c == '_'

def isUpperName (s : String) : Bool :=
  s.toList.any (fun c => 'A' ≤ c && c ≤ 'Z') && !s.toList.any (fun c => 'a' ≤ c && c ≤ 'z')

end LuaTune.Text
