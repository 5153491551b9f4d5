import LuaTune.Decimal
import LuaTune.Text.Chars

/-!
# Numbers as arguments

Blanks around a number are passed over, a sign may come first, and single underscores may stand
between digits, which may be those of any script.
-/

namespace LuaTune.Text

/-- The decimal zeros of all scripts; behind each of them stand its other nine digits. -/
def zeros : List Nat :=
  [0x30, 0x660, 0x6f0, 0x7c0, 0x966, 0x9e6, 0xa66, 0xae6, 0xb66, 0xbe6, 0xc66, 0xce6, 0xd66, 0xde6,
   0xe50, 0xed0, 0xf20, 0x1040, 0x1090, 0x17e0, 0x1810, 0x1946, 0x19d0, 0x1a80, 0x1a90, 0x1b50,
   0x1bb0, 0x1c40, 0x1c50, 0xa620, 0xa8d0, 0xa900, 0xa9d0, 0xa9f0, 0xaa50, 0xabf0, 0xff10, 0x104a0,
   0x10d30, 0x11066, 0x110f0, 0x11136, 0x111d0, 0x112f0, 0x11450, 0x114d0, 0x11650, 0x116c0,
   0x11730, 0x118e0, 0x11950, 0x11c50, 0x11d50, 0x11da0, 0x16a60, 0x16ac0, 0x16b50, 0x1d7ce,
   0x1d7d8, 0x1d7e2, 0x1d7ec, 0x1d7f6, 0x1e140, 0x1e2f0, 0x1e950, 0x1fbf0]

def digit? (c : Char) : Option Nat :=
  (zeros.find? fun z => z ≤ c.toNat && c.toNat < z + 10).map (c.toNat - ·)

def isDecimal (c : Char) : Bool := (digit? c).isSome

def groupedDigits? : Chars → Option Chars
  | [] => none
  | [c] => if isDecimal c then some [c] else none
  | c :: '_' :: cs => if isDecimal c then (groupedDigits? cs).map (c :: ·) else none
  | c :: cs => if isDecimal c then (groupedDigits? cs).map (c :: ·) else none

def signed : Chars → Bool × Chars
  | '-' :: cs => (true, cs)
  | '+' :: cs => (false, cs)
  | cs => (false, cs)

def readDecimal (ds : Chars) : Except Decimal.TooLong Nat :=
  if ds.length ≤ Decimal.maxDigits then .ok (ds.foldl (fun n d => 10 * n + (digit? d).getD 0) 0)
  else .error ⟨ds.length⟩

def wholeNumber? (cs : Chars) : Option Int := do
  let (negative, rest) := signed (strip cs)
  let n ← (readDecimal (← groupedDigits? rest)).toOption
  return if negative then -n else n

def emptyOrDigits (cs : Chars) : Bool := cs.isEmpty || (groupedDigits? cs).isSome

def isMantissa (cs : Chars) : Bool :=
  let whole := cs.takeWhile (· != '.')
  match cs.dropWhile (· != '.') with
  | [] => (groupedDigits? whole).isSome
  | _ :: fraction =>
    emptyOrDigits whole && emptyOrDigits fraction && !(whole.isEmpty && fraction.isEmpty)

def isRealNumber (cs : Chars) : Bool :=
  let rest := ((signed (strip cs)).2).map Char.toLower
  if ["inf", "infinity", "nan"].any fun w => w.toList == rest then true
  else
    isMantissa (rest.takeWhile (· != 'e')) &&
      match rest.dropWhile (· != 'e') with
      | [] => true
      | _ :: exponent => (groupedDigits? (signed exponent).2).isSome

end LuaTune.Text
