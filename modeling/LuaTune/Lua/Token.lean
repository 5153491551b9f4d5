import LuaTune.Text.Numeral
import LuaTune.Text.Search

/-! # Tokens -/

namespace LuaTune.Lua

open Text Decimal

/-!
## Tokens of a Lua script

A token has a printed form, `[@index,start:stop='text',<kind>,line:column]`, from which the
positions can be read again.
-/

inductive Keyword where
  | and_ | break_ | do_ | else_ | elseif_ | end_ | false_ | for_ | function_ | goto_ | if_ | in_
  | local_ | nil_ | not_ | or_ | repeat_ | return_ | then_ | true_ | until_ | while_
deriving DecidableEq, Repr, Inhabited

inductive Symbol where
  | plus | minus | star | slash | slashSlash | percent | caret | hash
  | equalEqual | tildeEqual | lessEqual | greaterEqual | less | greater | equal
  | ampersand | bar | tilde | shiftRight | shiftLeft
  | openParen | closeParen | openBrace | closeBrace | openBracket | closeBracket
  | colonColon | colon | comma | dots | dotDot | dot | semicolon
deriving DecidableEq, Repr, Inhabited

inductive Kind where
  | name
  | keyword (k : Keyword)
  | number
  | string
  | symbol (s : Symbol)
deriving DecidableEq, Repr, Inhabited

structure Token where
  kind : Kind
  index : Nat
  start : Nat
  stop : Nat
  text : Chars
  line : Nat
  column : Nat
  /-- A line break stands between this token and the one before it. -/
  afterBreak : Bool
deriving DecidableEq, Repr, Inhabited

def Keyword.all : List (Keyword × String) :=
  [(.and_, "and"), (.break_, "break"), (.do_, "do"), (.else_, "else"), (.elseif_, "elseif"),
   (.end_, "end"), (.false_, "false"), (.for_, "for"), (.function_, "function"), (.goto_, "goto"),
   (.if_, "if"), (.in_, "in"), (.local_, "local"), (.nil_, "nil"), (.not_, "not"), (.or_, "or"),
   (.repeat_, "repeat"), (.return_, "return"), (.then_, "then"), (.true_, "true"),
   (.until_, "until"), (.while_, "while")]

def Keyword.ofText? (cs : Chars) : Option Keyword :=
  (Keyword.all.find? fun p => p.2.toList == cs).map (·.1)

/-- Symbols with their spelling, a longer one before its own beginnings. -/
def Symbol.all : List (Symbol × String) :=
  [(.dots, "..."), (.slashSlash, "//"), (.equalEqual, "=="), (.tildeEqual, "~="),
   (.lessEqual, "<="), (.greaterEqual, ">="), (.shiftRight, ">>"), (.shiftLeft, "<<"),
   (.colonColon, "::"), (.dotDot, ".."), (.plus, "+"), (.minus, "-"), (.star, "*"), (.slash, "/"),
   (.percent, "%"), (.caret, "^"), (.hash, "#"), (.less, "<"), (.greater, ">"), (.equal, "="),
   (.ampersand, "&"), (.bar, "|"), (.tilde, "~"), (.openParen, "("), (.closeParen, ")"),
   (.openBrace, "\x7b"), (.closeBrace, "\x7d"), (.openBracket, "["), (.closeBracket, "]"),
   (.colon, ":"), (.comma, ","), (.dot, "."), (.semicolon, ";")]

def Kind.code : Kind → Nat
  | .keyword k => 1 + (Keyword.all.findIdx fun p => p.1 == k)
  | .symbol s => 23 + (Symbol.all.findIdx fun p => p.1 == s)
  | .name => 56
  | .number => 57
  | .string => 58

namespace Token

open Text

def name (t : Token) : String := String.ofList t.text

def shownText : Chars → Chars
  | [] => []
  | '\n' :: cs => '\\' :: 'n' :: shownText cs
  | '\r' :: cs => '\\' :: 'r' :: shownText cs
  | '\t' :: cs => '\\' :: 't' :: shownText cs
  | c :: cs => c :: shownText cs

def digits (n : Nat) : Chars := Nat.toDigits 10 n

theorem not_mem_digits {c : Char} (h : c.isDigit = false) (n : Nat) : c ∉ digits n := by
  intro hc
  rw [Nat.isDigit_of_mem_toDigits (by decide) (by decide) hc] at h
  cases h

/-- The printed form with what stands for the kind. -/
def printedAs (t : Token) (kind : Chars) : Chars :=
  ['[', '@'] ++ digits t.index ++ [','] ++ digits t.start ++ [':'] ++ digits t.stop
    ++ ['=', '\''] ++ shownText t.text ++ ['\'', ',', '<'] ++ kind ++ ['>']
    ++ [','] ++ digits t.line ++ [':'] ++ digits t.column ++ [']']

def render (t : Token) : Chars := t.printedAs (digits t.kind.code)

/-- The digits that a text starts with, at least one, and what follows the mark behind them. -/
def digitsBefore? (mark cs : Chars) : Option (Chars × Chars) :=
  let ds := cs.takeWhile isDecimal
  if ds.isEmpty then none else (stripPrefix? mark (cs.dropWhile isDecimal)).map (ds, ·)

def offsetDigits? (cs : Chars) : Option (Chars × Chars) := do
  let (_, cs) ← digitsBefore? [','] (← stripPrefix? ['[', '@'] cs)
  let (start, cs) ← digitsBefore? [':'] cs
  let (stop, _) ← digitsBefore? ['=', '\''] cs
  return (start, stop)

def readStart (cs : Chars) : Except Decimal.TooLong (Option Nat) :=
  (offsetDigits? cs).mapM fun ds => readDecimal ds.1

def readEnd (cs : Chars) : Except Decimal.TooLong (Option Nat) :=
  (offsetDigits? cs).mapM fun ds => (· + 1) <$> readDecimal ds.2

/-- The line in a printed form: what stands between the last comma and a colon behind it. -/
def readLine (cs : Chars) : Option Int := do
  let n ← findLastChar? ',' cs
  let place := dropEndWhile (· == ']') (cs.drop (n + 1))
  if place.contains ':' then wholeNumber? (place.takeWhile (· != ':')) else none

/-- The line of a node by the printed form of its first token, if it has one. -/
def lineOf (first : Option Chars) : Int := (first.bind readLine).getD 0

def endLineOf (first last : Option Chars) : Int := (last.bind readLine).getD (lineOf first)

end Token

/-!
## Reading tokens

White space, comments and lines that start with `#!` are hidden from the grammar; a character that
starts no token is dropped, and so is a quoted string from its opening quote up to the character
that breaks it.
-/

/-! ### Lengths of what may stand at the start of a text -/

def isNameStart (c : Char) : Bool := c.isAlpha || c == '_'

def isNameChar (c : Char) : Bool := c.isAlphanum || c == '_'

def isHexDigit (c : Char) : Bool := c.isDigit || ('a' ≤ c && c ≤ 'f') || ('A' ≤ c && c ≤ 'F')

def isEndOfLine (c : Char) : Bool := c == '\n' || c == '\r'

def runLength (p : Char → Bool) (cs : Chars) : Nat := (cs.takeWhile p).length

def lineLength (cs : Chars) : Nat := runLength (!isEndOfLine ·) cs

def longBracket? : Chars → Option Nat
  | '[' :: cs =>
    let level := runLength (· == '=') cs
    match cs.drop level with
    | '[' :: body =>
      (find? (']' :: List.replicate level '=' ++ [']']) body).map (· + 2 * (level + 2))
    | _ => none
  | _ => none

/-- A comment after its two dashes. One that looks like a long bracket but is not closed ends
before the second bracket. -/
def commentLength : Chars → Nat
  | '[' :: cs =>
    match longBracket? ('[' :: cs) with
    | some n => n
    | none =>
      let level := runLength (· == '=') cs
      match cs.drop level with
      | '[' :: _ => 1 + level
      | rest => 1 + level + lineLength rest
  | cs => lineLength cs

/-- Where the reading of a quoted string stands: between characters, after a backslash, or with
`n + 1` hexadecimal digits still to come. -/
inductive QuoteState where
  | plain
  | escape
  | hex (n : Nat)

/-- A quoted string after its opening quote: whether it is closed, and how many characters it
takes, the closing quote or the character that breaks it included. -/
def quotedLength (q : Char) : QuoteState → Chars → Bool × Nat
  | _, [] => (false, 0)
  | .plain, c :: cs =>
    if c = q then (true, 1)
    else if isEndOfLine c then (false, 1)
    else (quotedLength q (if c = '\\' then .escape else .plain) cs).map id (· + 1)
  | .escape, c :: cs =>
    if c = 'x' then (quotedLength q (.hex 1) cs).map id (· + 1)
    else if c.isDigit || isEndOfLine c || "abfnrtvz\"'\\".toList.contains c then
      (quotedLength q .plain cs).map id (· + 1)
    else (false, 1)
  | .hex n, c :: cs =>
    if isHexDigit c then
      (quotedLength q (match n with | 0 => .plain | k + 1 => .hex k) cs).map id (· + 1)
    else (false, 1)

def exponentLength (mark : Char → Bool) : Chars → Nat
  | c :: '+' :: cs => if mark c && runLength Char.isDigit cs > 0 then 2 + runLength Char.isDigit cs else 0
  | c :: '-' :: cs => if mark c && runLength Char.isDigit cs > 0 then 2 + runLength Char.isDigit cs else 0
  | c :: cs => if mark c && runLength Char.isDigit cs > 0 then 1 + runLength Char.isDigit cs else 0
  | [] => 0

def numberTail (digit mark : Char → Bool) (cs : Chars) : Nat :=
  let whole := runLength digit cs
  let fraction := match cs.drop whole with
    | '.' :: rest => 1 + runLength digit rest
    | _ => 0
  whole + fraction + exponentLength mark (cs.drop (whole + fraction))

def numeralLength (cs : Chars) : Nat :=
  let decimal := numberTail Char.isDigit (fun c => c == 'e' || c == 'E')
  match cs with
  | '0' :: x :: d :: rest =>
    if (x == 'x' || x == 'X') && isHexDigit d then
      2 + numberTail isHexDigit (fun c => c == 'p' || c == 'P') (d :: rest)
    else decimal cs
  | '.' :: d :: rest => if d.isDigit then decimal ('.' :: d :: rest) else 0
  | c :: _ => if c.isDigit then decimal cs else 0
  | [] => 0

/-! ### The token at the start of a text -/

inductive Reading where
  | token (k : Kind)
  | lineBreak
  | hidden
  | dropped

structure Lexeme where
  reading : Reading
  tail : Nat

def symbolAt? (cs : Chars) : Option (Symbol × Nat) :=
  (Symbol.all.find? fun p => startsWith cs p.2.toList).map fun p => (p.1, p.2.toList.length)

def symbolLexeme (cs : Chars) : Lexeme :=
  match symbolAt? cs with
  | some (s, n) => ⟨.token (.symbol s), n - 1⟩
  | none => ⟨.dropped, 0⟩

def lexeme (c : Char) (cs : Chars) : Lexeme :=
  if c == ' ' || c == '\t' then
    ⟨.hidden, runLength (fun c => c == ' ' || c == '\t') cs⟩
  else if isEndOfLine c || c == '\x0c' then
    ⟨.lineBreak, runLength (fun c => isEndOfLine c || c == '\x0c') cs⟩
  else if isNameStart c then
    let n := runLength isNameChar cs
    match Keyword.ofText? (c :: cs.take n) with
    | some k => ⟨.token (.keyword k), n⟩
    | none => ⟨.token .name, n⟩
  else if numeralLength (c :: cs) > 0 then ⟨.token .number, numeralLength (c :: cs) - 1⟩
  else if c == '"' || c == '\'' then
    let (closed, n) := quotedLength c .plain cs
    ⟨if closed then .token .string else .dropped, n⟩
  else if c == '[' then
    match longBracket? (c :: cs) with
    | some n => ⟨.token .string, n - 1⟩
    | none => ⟨.token (.symbol .openBracket), 0⟩
  else if c == '-' && cs.head? == some '-' then ⟨.hidden, 1 + commentLength (cs.drop 1)⟩
  else if c == '#' && cs.head? == some '!' then ⟨.hidden, lineLength cs⟩
  else symbolLexeme (c :: cs)

/-! ### The tokens of a text -/

structure Cursor where
  offset : Nat
  line : Nat
  column : Nat
  index : Nat
  afterBreak : Bool

def Cursor.start : Cursor := ⟨0, 1, 0, 0, false⟩

def Cursor.pass (p : Cursor) (cs : Chars) : Cursor :=
  let breaks := countChar '\n' cs
  { p with
    offset := p.offset + cs.length
    line := p.line + breaks
    column := if breaks = 0 then p.column + cs.length else runLength (· != '\n') cs.reverse }

/-- The tokens of a text that starts at `p`; the first `skip` characters belong to a lexeme that
was read before. -/
def scanFrom : Nat → Cursor → Chars → List Token
  | _, _, [] => []
  | skip + 1, p, _ :: cs => scanFrom skip p cs
  | 0, p, c :: cs =>
    let l := lexeme c cs
    let text := c :: cs.take l.tail
    let next := p.pass text
    match l.reading with
    | .token k =>
      ⟨k, p.index, p.offset, p.offset + l.tail, text, p.line, p.column, p.afterBreak⟩
        :: scanFrom l.tail { next with index := p.index + 1, afterBreak := false } cs
    | .lineBreak => scanFrom l.tail { next with index := p.index + 1, afterBreak := true } cs
    | .hidden => scanFrom l.tail { next with index := p.index + 1 } cs
    | .dropped => scanFrom l.tail next cs

def scan (source : Chars) : List Token := scanFrom 0 .start source

/-!
## Numerals

Whole numbers are exact; the others are rounded to 53 binary digits. A whole number with a
superfluous zero in front counts as one of the others, and so does a decimal one with too many
digits.
-/

inductive Numeral where
  | int (n : Nat)
  | float (x : Magnitude)
deriving DecidableEq, Repr, Inhabited

def hexValue (c : Char) : Nat :=
  if c.isDigit then c.toNat - 48 else if c.toNat ≥ 97 then c.toNat - 87 else c.toNat - 55

def digitsValue (base : Nat) (cs : Chars) : Nat :=
  cs.foldl (fun n c => base * n + hexValue c) 0

namespace Numeral

def exponentValue : Chars → Int
  | '-' :: ds => -(digitsValue 10 ds : Int)
  | '+' :: ds => digitsValue 10 ds
  | ds => digitsValue 10 ds

/-- Whether digits alone state a whole number: they are all zeros, or start with another digit and
are not too many. -/
def isWhole (digits : Chars) : Bool :=
  digits.all (· == '0') || (digits.head? != some '0' && digits.length ≤ maxDigits)

def ofDecimalText (cs : Chars) : Numeral :=
  let whole := cs.takeWhile Char.isDigit
  let rest := cs.dropWhile Char.isDigit
  if rest.isEmpty && !whole.isEmpty && isWhole whole then
    .int (digitsValue 10 whole)
  else
    let (fraction, rest) := match rest with
      | '.' :: r => (r.takeWhile Char.isDigit, r.dropWhile Char.isDigit)
      | r => ([], r)
    let e := exponentValue (rest.drop 1)
    .float (.ofDecimal (digitsValue 10 (whole ++ fraction)) (e - fraction.length))

/-- The value of a numeral; hexadecimal numerals with a fraction or an exponent have none. -/
def ofText? (cs : Chars) : Option Numeral :=
  match cs with
  | '0' :: x :: ds =>
    if x == 'x' || x == 'X' then
      if ds.all isHexDigit then some (.int (digitsValue 16 ds)) else none
    else some (ofDecimalText cs)
  | _ => some (ofDecimalText cs)

def text : Numeral → String
  | .int n => toString n
  | .float x => x.text

def isPrintable : Numeral → Bool
  | .int n => isShort n
  | .float _ => true

def isQuotient (num den : Nat) : Numeral → Bool
  | .int n => n * den == num
  | .float x => x.quotient? == some (num, den) || (x.quotient?.any fun (a, b) => a * den == num * b)

end Numeral

end LuaTune.Lua
