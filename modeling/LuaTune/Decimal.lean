/-! # Numbers -/

namespace LuaTune.Decimal

/-!
## Binary numbers of 53 digits

Decimal numbers are kept as the nearest multiple of a power of two that has at most 53 binary
digits. All arithmetic is on natural numbers, so what is rounded is always the exact value.
-/

def roundDiv (num den : Nat) : Nat :=
  let q := num / den
  let r := num % den
  if 2 * r < den then q
  else if den < 2 * r then q + 1
  else if q % 2 = 0 then q
  else q + 1

def scale (base : Nat) (e : Int) (num den : Nat) : Nat × Nat :=
  if 0 ≤ e then (num * Nat.pow base e.toNat, den) else (num, den * Nat.pow base (-e).toNat)

/-- A number without sign: `mantissa * 2 ^ exponent`, or more than can be held. In `finite` the
mantissa has 53 binary digits or the exponent is the least one, so equal values are equal terms. -/
inductive Magnitude where
  | finite (mantissa : Nat) (exponent : Int)
  | infinite
deriving DecidableEq, Repr, Inhabited

structure Binary where
  negative : Bool
  magnitude : Magnitude
deriving DecidableEq, Repr, Inhabited

namespace Magnitude

def leastExponent : Int := -1074

def greatestExponent : Int := 971

def zero : Magnitude := .finite 0 leastExponent

def ofQuotient (num den : Nat) : Magnitude :=
  if num = 0 then zero
  else
    let guess : Int := (num.log2 : Int) - (den.log2 : Int) - 52
    let fits (e : Int) : Bool :=
      let s := scale 2 (-e) num den
      s.1 / s.2 < Nat.pow 2 53
    let e := if fits (guess - 1) then guess - 1 else if fits guess then guess else guess + 1
    let e := max e leastExponent
    let s := scale 2 (-e) num den
    let m := roundDiv s.1 s.2
    let (m, e) := if m = Nat.pow 2 53 then (Nat.pow 2 52, e + 1) else (m, e)
    if e > greatestExponent then .infinite else .finite m e

/-- The nearest magnitude to `coefficient * 10 ^ exponent`. Exponents far outside the range are
settled by the number of digits alone. -/
def ofDecimal (coefficient : Nat) (exponent : Int) : Magnitude :=
  if coefficient = 0 then zero
  else
    let digits : Int := (Nat.toDigits 10 coefficient).length
    if digits + exponent > 400 then .infinite
    else if digits + exponent < -400 then zero
    else
      let s := scale 10 exponent coefficient 1
      ofQuotient s.1 s.2

def quotient? : Magnitude → Option (Nat × Nat)
  | .finite m e => some (scale 2 e m 1)
  | .infinite => none

def isZero : Magnitude → Bool
  | .finite m _ => m == 0
  | .infinite => false

end Magnitude

namespace Binary

def zero : Binary := ⟨false, .zero⟩

def ofNat (n : Nat) : Binary := ⟨false, .ofQuotient n 1⟩

def ofInt (n : Int) : Binary := ⟨n < 0, .ofQuotient n.natAbs 1⟩

def ofQuotient (num : Int) (den : Nat) : Binary := ⟨num < 0, .ofQuotient num.natAbs den⟩

def isZero (x : Binary) : Bool := x.magnitude.isZero

def quotient? (x : Binary) : Option (Int × Nat) :=
  x.magnitude.quotient?.map fun (n, d) => (if x.negative then -(n : Int) else n, d)

def compare (x y : Binary) : Ordering :=
  match x.quotient?, y.quotient? with
  | some (a, b), some (c, d) => Ord.compare (a * d) (c * b)
  | none, some _ => if x.negative then .lt else .gt
  | some _, none => if y.negative then .gt else .lt
  | none, none =>
    if x.negative = y.negative then .eq else if x.negative then .lt else .gt

def lt (x y : Binary) : Bool := compare x y == .lt

end Binary

/-!
## Sums and middle values

The exact result is rounded to the nearest number.
-/

namespace Binary

/-- The sum. Infinite numbers win; the first one decides. -/
def add (x y : Binary) : Binary :=
  match x.quotient?, y.quotient? with
  | some (a, b), some (c, d) => ofQuotient (a * d + c * b) (b * d)
  | none, _ => x
  | _, none => y

def neg (x : Binary) : Binary := { x with negative := !x.negative }

def sub (x y : Binary) : Binary := x.add y.neg

def half (x : Binary) : Binary :=
  match x.quotient? with
  | some (a, b) => ofQuotient a (2 * b)
  | none => x

def sort (xs : List Binary) : List Binary := xs.mergeSort fun x y => !(lt y x)

def median (xs : List Binary) : Binary :=
  let ys := sort xs
  let n := ys.length
  if n % 2 = 1 then ys.getD (n / 2) zero
  else if n = 0 then zero
  else ((ys.getD (n / 2 - 1) zero).add (ys.getD (n / 2) zero)).half

def least (xs : List Binary) : Binary := (sort xs).headD zero

end Binary

/-!
## Long whole numbers

Whole numbers are read and written with a limited number of decimal digits.
-/

def maxDigits : Nat := 4300

/-- Whether a number can be written with the digits allowed. Numbers that are small in binary need
no comparison. -/
def isShort (n : Nat) : Bool := n.log2 < 3 * maxDigits || n < Nat.pow 10 maxDigits

theorem lt_ten_pow_of_log2_lt {n k : Nat} (h : n.log2 < 3 * k) : n < Nat.pow 10 k := by
  have h2 : n < Nat.pow 2 (3 * k) := by
    by_cases h0 : n = 0
    · rw [h0]
      exact Nat.two_pow_pos _
    · exact (Nat.log2_lt h0).mp h
  have h8 : Nat.pow 2 (3 * k) = Nat.pow 8 k := Nat.pow_mul 2 3 k
  rw [h8] at h2
  exact Nat.lt_of_lt_of_le h2 (Nat.pow_le_pow_left (by decide) k)

theorem isShort_iff (n : Nat) : isShort n = true ↔ n < Nat.pow 10 maxDigits := by
  simp only [isShort, Bool.or_eq_true, decide_eq_true_eq]
  exact ⟨fun h => h.elim lt_ten_pow_of_log2_lt id, Or.inr⟩

/-- What is said of a number with too many digits to be read. -/
structure TooLong where
  digits : Nat

def tooLongToWrite : String :=
  "Exceeds the limit (" ++ toString maxDigits ++ " digits) for integer string conversion; use sys.set_int_max_str_digits() to increase the limit"

def tooLongToRead (digits : Nat) : String :=
  "Exceeds the limit (" ++ toString maxDigits ++ " digits) for integer string conversion: value has " ++ toString digits ++ " digits; use sys.set_int_max_str_digits() to increase the limit"

/-!
## Fixed decimal places

The exact value is rounded to the nearest, a half to the even neighbour.
-/

def padZeros (n : Nat) (s : String) : String :=
  String.ofList (List.replicate (n - s.length) '0') ++ s

def fixedText (n places : Nat) : String :=
  if places = 0 then toString n
  else toString (n / Nat.pow 10 places) ++ "." ++ padZeros places (toString (n % Nat.pow 10 places))

def fixedQuotient (num den places : Nat) : String :=
  fixedText (roundDiv (num * Nat.pow 10 places) den) places

namespace Binary

def fixed (x : Binary) (places : Nat) : String :=
  let sign := if x.negative then "-" else ""
  match x.magnitude.quotient? with
  | some (n, d) => sign ++ fixedQuotient n d places
  | none => sign ++ "inf"

def round (x : Binary) (places : Nat) : Binary :=
  match x.magnitude.quotient? with
  | some (n, d) => ⟨x.negative, .ofQuotient (roundDiv (n * Nat.pow 10 places) d) (Nat.pow 10 places)⟩
  | none => x

def timesNat (x : Binary) (n : Nat) : Binary :=
  match x.magnitude.quotient? with
  | some (a, b) => ⟨x.negative, .ofQuotient (a * n) b⟩
  | none => x

def dividedBy (x : Binary) (n : Nat) : Binary :=
  match x.magnitude.quotient? with
  | some (a, b) => ⟨x.negative, .ofQuotient a (b * n)⟩
  | none => x

end Binary

def percentage (part whole : Nat) : Binary := (Binary.ofQuotient part whole).timesNat 100

/-!
## The shortest decimal text of a number

A number is written with the fewest digits that read back as the same number; of several such
decimals the nearest one is taken.
-/

structure Scientific where
  digits : Nat
  exponent : Int
deriving DecidableEq, Repr, Inhabited

/-- The reals that round to a finite magnitude, all given as numerators over one denominator:
both ends, the value itself, and whether the ends belong to it. -/
structure Basin where
  low : Nat
  value : Nat
  high : Nat
  den : Nat
  closed : Bool

/-- The basin of `m * 2 ^ e`. Below a power of two the grid is twice as fine. -/
def Basin.of (m : Nat) (e : Int) : Basin :=
  let s (n : Nat) : Nat := if 0 ≤ e - 2 then n * Nat.pow 2 (e - 2).toNat else n
  let den := if 0 ≤ e - 2 then 1 else Nat.pow 2 (2 - e).toNat
  let below := if m = Nat.pow 2 52 ∧ e > Magnitude.leastExponent then 4 * m - 1 else 4 * m - 2
  ⟨s below, s (4 * m), s (4 * m + 2), den, m % 2 == 0⟩

def Basin.holds (b : Basin) (d : Scientific) : Bool :=
  let x := scale 10 d.exponent d.digits 1
  let mid := x.1 * b.den
  let low := b.low * x.2
  let high := b.high * x.2
  if b.closed then low ≤ mid && mid ≤ high else low < mid && mid < high

def integerDigits (num den : Nat) : Int :=
  if den ≤ num then (Nat.toDigits 10 (num / den)).length
  else
    let k := (Nat.toDigits 10 (den / num)).length
    -- `10 ^ (k - 1) ≤ den / num < 10 ^ k` up to the fraction that division drops
    if num * Nat.pow 10 (k - 1) < den then -((k : Int) - 1) else -((k : Int) - 2)

def Basin.onGrid (b : Basin) (k : Int) (n : Nat) : Option Scientific :=
  let e := k - n
  let x := scale 10 (-e) b.value b.den
  let lo : Scientific := ⟨x.1 / x.2, e⟩
  let hi : Scientific := ⟨x.1 / x.2 + 1, e⟩
  let r := x.1 % x.2
  let (first, second) :=
    if 2 * r < x.2 || (2 * r == x.2 && lo.digits % 2 == 0) then (lo, hi) else (hi, lo)
  if b.holds first then some first else if b.holds second then some second else none

def Scientific.trim : Nat → Scientific → Scientific
  | 0, d => d
  | n + 1, d =>
    if d.digits ≠ 0 ∧ d.digits % 10 = 0 then trim n ⟨d.digits / 10, d.exponent + 1⟩ else d

def shortest (m : Nat) (e : Int) : Scientific :=
  let b := Basin.of m e
  let k := integerDigits b.value b.den
  let found := (List.range 17).findSome? fun n => b.onGrid k (n + 1)
  (found.getD ⟨b.value / b.den, 0⟩).trim 400

/-- How numbers are written: positional from `10 ^ -4` up to `10 ^ 16`, always with a point, and
otherwise one digit before the point and an exponent with sign and at least two digits. -/
def Scientific.text (d : Scientific) : String :=
  let ds := Nat.toDigits 10 d.digits
  let point : Int := ds.length + d.exponent
  if -4 < point ∧ point ≤ 16 then
    if point ≤ 0 then
      "0." ++ String.ofList (List.replicate (-point).toNat '0' ++ ds)
    else
      let p := point.toNat
      let ds := ds ++ List.replicate (p - ds.length) '0'
      let tail := ds.drop p
      String.ofList (ds.take p ++ '.' :: (if tail.isEmpty then ['0'] else tail))
  else
    let x := point - 1
    let body := match ds with
      | [] => []
      | [c] => [c]
      | c :: cs => c :: '.' :: cs
    let n := toString x.natAbs
    let n := if n.length < 2 then "0" ++ n else n
    String.ofList body ++ "e" ++ (if x < 0 then "-" else "+") ++ n

def Magnitude.text : Magnitude → String
  | .finite m e => if m = 0 then "0.0" else (shortest m e).text
  | .infinite => "inf"

def Binary.text (x : Binary) : String :=
  (if x.negative then "-" else "") ++ x.magnitude.text

end LuaTune.Decimal
