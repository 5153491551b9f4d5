import LuaTune.Json.Value

/-!
# Reading JSON

The standard grammar and the words `NaN`, `Infinity` and `-Infinity`.
-/

namespace LuaTune.Json

open Decimal

/-- Why a text is not JSON; every cause has the number of characters left at the fault. -/
inductive ReadError where
  | expectedValue (left : Nat)
  | expectedColon (left : Nat)
  | expectedComma (left : Nat)
  | expectedName (left : Nat)
  | unterminated (left : Nat)
  | badEscape (left : Nat)
  | controlCharacter (left : Nat)
  | extraData (left : Nat)
  | longNumber (digits left : Nat)
deriving Repr

def ReadError.left : ReadError → Nat
  | .expectedValue n | .expectedColon n | .expectedComma n | .expectedName n | .unterminated n
  | .badEscape n | .controlCharacter n | .extraData n | .longNumber _ n => n

def ReadError.cause : ReadError → String
  | .expectedValue _ => "Expecting value"
  | .expectedColon _ => "Expecting ':' delimiter"
  | .expectedComma _ => "Expecting ',' delimiter"
  | .expectedName _ => "Expecting property name enclosed in double quotes"
  | .unterminated _ => "Unterminated string starting at"
  | .badEscape _ => "Invalid \\escape"
  | .controlCharacter _ => "Invalid control character at"
  | .extraData _ => "Extra data"
  | .longNumber digits _ => tooLongToRead digits

def ReadError.message (e : ReadError) (text : List Char) : String :=
  let place := text.length - e.left
  let before := text.take place
  let column := (before.reverse.takeWhile (· != '\n')).length + 1
  e.cause ++ ": line " ++ toString (before.count '\n' + 1) ++ " column " ++ toString column
    ++ " (char " ++ toString place ++ ")"

abbrev Reader (α : Type) := List Char → Except ReadError (α × List Char)

def isSpace (c : Char) : Bool := c == ' ' || c == '\t' || c == '\n' || c == '\r'

def skipSpace (cs : List Char) : List Char := cs.dropWhile isSpace

def hexDigit? (c : Char) : Option Nat :=
  if c.isDigit then some (c.toNat - 48)
  else if 'a' ≤ c ∧ c ≤ 'f' then some (c.toNat - 87)
  else if 'A' ≤ c ∧ c ≤ 'F' then some (c.toNat - 55)
  else none

def unit? : List Char → Option (Nat × List Char)
  | a :: b :: c :: d :: cs => do
    let a ← hexDigit? a
    let b ← hexDigit? b
    let c ← hexDigit? c
    let d ← hexDigit? d
    return (((a * 16 + b) * 16 + c) * 16 + d, cs)
  | _ => none

def lowUnit? : List Char → Option (Nat × List Char)
  | '\\' :: 'u' :: cs => (unit? cs).filter fun u => 0xdc00 ≤ u.1 && u.1 < 0xe000
  | _ => none

def simpleEscape? : Char → Option Char
  | '"' => some '"'
  | '\\' => some '\\'
  | '/' => some '/'
  | 'b' => some '\x08'
  | 'f' => some '\x0c'
  | 'n' => some '\n'
  | 'r' => some '\r'
  | 't' => some '\t'
  | _ => none

def stringChars : Nat → List Char → Reader String
  | 0, _, cs => .error (.unterminated cs.length)
  | n + 1, acc, cs =>
    match cs with
    | [] => .error (.unterminated 0)
    | '"' :: cs => .ok (String.ofList acc.reverse, cs)
    | '\\' :: 'u' :: rest =>
      match unit? rest with
      | none => .error (.badEscape cs.length)
      | some (u, rest) =>
        if 0xd800 ≤ u ∧ u < 0xdc00 then
          match lowUnit? rest with
          | some (v, rest) =>
            stringChars n (Char.ofNat (0x10000 + (u - 0xd800) * 0x400 + (v - 0xdc00)) :: acc) rest
          | none => stringChars n ('�' :: acc) rest
        else stringChars n ((if 0xdc00 ≤ u ∧ u < 0xe000 then '�' else Char.ofNat u) :: acc) rest
    | '\\' :: c :: rest =>
      match simpleEscape? c with
      | some d => stringChars n (d :: acc) rest
      | none => .error (.badEscape cs.length)
    | c :: rest =>
      if c.toNat < 32 then .error (.controlCharacter cs.length)
      else if c = '\\' then .error (.unterminated cs.length)
      else stringChars n (c :: acc) rest

def string : Reader String := fun cs =>
  match stringChars (cs.length + 1) [] cs with
  | .error (.unterminated _) => .error (.unterminated (cs.length + 1))
  | r => r

def digitsNat (ds : List Char) : Nat := ds.foldl (fun n c => 10 * n + (c.toNat - 48)) 0

def fraction : List Char → List Char × List Char
  | '.' :: cs =>
    match cs.takeWhile Char.isDigit with
    | [] => ([], '.' :: cs)
    | ds => (ds, cs.dropWhile Char.isDigit)
  | cs => ([], cs)

def exponent (cs : List Char) : Option Int × List Char :=
  match cs with
  | e :: rest =>
    if e == 'e' || e == 'E' then
      let (neg, rest) := match rest with
        | '-' :: r => (true, r)
        | '+' :: r => (false, r)
        | r => (false, r)
      match rest.takeWhile Char.isDigit with
      | [] => (none, cs)
      | ds => (some (if neg then -(digitsNat ds : Int) else digitsNat ds), rest.dropWhile Char.isDigit)
    else (none, cs)
  | [] => (none, [])

def number? (negative : Bool) (cs : List Char) : Option (Value × List Char) :=
  let whole := match cs with
    | '0' :: _ => ['0']
    | _ => cs.takeWhile Char.isDigit
  if whole.isEmpty then none
  else
    let rest := cs.drop whole.length
    let (frac, rest) := fraction rest
    let (exp, rest) := exponent rest
    if frac.isEmpty && exp.isNone then
      let n : Int := digitsNat whole
      some (.int (if negative then -n else n), rest)
    else
      let e := exp.getD 0 - frac.length
      some (.float ⟨negative, .ofDecimal (digitsNat (whole ++ frac)) e⟩, rest)

def wordValues : List (String × Value) :=
  [("null", .null), ("true", .bool true), ("false", .bool false), ("NaN", .notANumber),
   ("Infinity", .float ⟨false, .infinite⟩), ("-Infinity", .float ⟨true, .infinite⟩)]

def word? (cs : List Char) : Option (Value × List Char) :=
  (wordValues.find? fun w => w.1.toList.isPrefixOf cs).map fun w => (w.2, cs.drop w.1.length)

def signedNumber? (cs : List Char) : Option (Except ReadError (Value × List Char)) :=
  let (negative, ds) := match cs with
    | '-' :: ds => (true, ds)
    | ds => (false, ds)
  (number? negative ds).map fun r =>
    match r with
    | (.int _, rest) =>
      let digits := ds.length - rest.length
      if digits ≤ maxDigits then .ok r else .error (.longNumber digits ds.length)
    | r => .ok r

def scalar : Reader Value := fun cs =>
  match word? cs with
  | some r => .ok r
  | none => (signedNumber? cs).getD (.error (.expectedValue cs.length))

mutual

def value : Nat → Reader Value
  | 0, cs => .error (.expectedValue cs.length)
  | n + 1, cs =>
    match cs with
    | '"' :: rest => do
      let (s, rest) ← string rest
      return (.str s, rest)
    | '[' :: rest =>
      match skipSpace rest with
      | ']' :: rest => .ok (.arr [], rest)
      | rest => do
        let (vs, rest) ← items n rest
        return (.arr vs, rest)
    | '\x7b' :: rest =>
      match skipSpace rest with
      | '\x7d' :: rest => .ok (.obj [], rest)
      | rest => do
        let (ms, rest) ← members n [] rest
        return (.obj ms, rest)
    | _ => scalar cs

def items : Nat → Reader (List Value)
  | 0, cs => .error (.expectedValue cs.length)
  | n + 1, cs => do
    let (v, rest) ← value n cs
    match skipSpace rest with
    | ',' :: rest =>
      let (vs, rest) ← items n (skipSpace rest)
      return (v :: vs, rest)
    | ']' :: rest => return ([v], rest)
    | rest => throw (.expectedComma rest.length)

def members : Nat → Members → Reader Members
  | 0, _, cs => .error (.expectedValue cs.length)
  | n + 1, ms, cs =>
    match cs with
    | '"' :: rest => do
      let (k, rest) ← string rest
      match skipSpace rest with
      | ':' :: rest =>
        let (v, rest) ← value n (skipSpace rest)
        match skipSpace rest with
        | ',' :: rest => members n (ms.set k v) (skipSpace rest)
        | '\x7d' :: rest => return (ms.set k v, rest)
        | rest => throw (.expectedComma rest.length)
      | rest => throw (.expectedColon rest.length)
    | _ => .error (.expectedName cs.length)

end

def parse (text : String) : Except ReadError Value := do
  let cs := text.toList
  let (v, rest) ← value (cs.length + 2) (skipSpace cs)
  match skipSpace rest with
  | [] => return v
  | rest => throw (.extraData rest.length)

end LuaTune.Json
