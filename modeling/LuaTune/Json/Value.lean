import LuaTune.Decimal

/-! # JSON values -/

namespace LuaTune.Json

open Decimal

/-!
## JSON values

Whole numbers are exact and other numbers are rounded to 53 binary digits. An object keeps its
members in the order in which their names first occurred.
-/

inductive Value where
  | null
  | bool (b : Bool)
  | int (n : Int)
  | float (x : Binary)
  | notANumber
  | str (s : String)
  | arr (items : List Value)
  | obj (members : List (String × Value))
deriving Repr, Inhabited

abbrev Members := List (String × Value)

def Members.set (k : String) (v : Value) : Members → Members
  | [] => [(k, v)]
  | (k', v') :: ms => if k' = k then (k, v) :: ms else (k', v') :: Members.set k v ms

def Members.get? (ms : Members) (k : String) : Option Value :=
  (ms.find? fun m => m.1 == k).map (·.2)

namespace Value

def get? (v : Value) (k : String) : Option Value :=
  match v with
  | .obj ms => Members.get? ms k
  | _ => none

def member? (v : Value) (k : String) : Option Value :=
  match v.get? k with
  | some .null => none
  | r => r

def str? : Value → Option String
  | .str s => some s
  | _ => none

def int? : Value → Option Int
  | .int n => some n
  | _ => none

def nat? : Value → Option Nat
  | .int n => if 0 ≤ n then some n.toNat else none
  | _ => none

def bool? : Value → Option Bool
  | .bool b => some b
  | _ => none

def items : Value → List Value
  | .arr vs => vs
  | _ => []

def members : Value → Members
  | .obj ms => ms
  | _ => []

end Value

end LuaTune.Json

namespace LuaTune.Json.Value

open Decimal

/-!
## Numbers among values

Truth values count as one and zero. Whole numbers stay whole as long as only whole numbers meet.
-/

def whole? : Value → Option Int
  | .int n => some n
  | .bool b => some (if b then 1 else 0)
  | _ => none

def real? : Value → Option Binary
  | .float x => some x
  | v => v.whole?.map .ofInt

def isNotANumber : Value → Bool
  | .notANumber => true
  | _ => false

def isNumeric (v : Value) : Bool := v.real?.isSome || v.isNotANumber

def less? (v w : Value) : Option Bool :=
  match v.whole?, w.whole? with
  | some m, some n => some (decide (m < n))
  | _, _ =>
    match v.real?, w.real? with
    | some x, some y => some (x.lt y)
    | _, _ => if v.isNumeric && w.isNumeric then some false else none

def minus? (v w : Value) : Option Value :=
  match v.whole?, w.whole? with
  | some m, some n => some (.int (m - n))
  | _, _ =>
    match v.real?, w.real? with
    | some x, some y => some (.float (x.sub y))
    | _, _ => if v.isNumeric && w.isNumeric then some .notANumber else none

def toPlaces (places : Nat) : Value → Value
  | .float x => .float (x.round places)
  | v => v

end LuaTune.Json.Value

namespace LuaTune.Json

open Decimal

/-!
## Writing JSON

Every character outside of ASCII is escaped by its UTF-16 units.
-/

def hexDigits (n width : Nat) : List Char :=
  let ds := Nat.toDigits 16 n
  List.replicate (width - ds.length) '0' ++ ds

def unitEscape (n : Nat) : List Char := '\\' :: 'u' :: hexDigits n 4

def escapeChar (c : Char) : List Char :=
  match c with
  | '"' => ['\\', '"']
  | '\\' => ['\\', '\\']
  | '\n' => ['\\', 'n']
  | '\r' => ['\\', 'r']
  | '\t' => ['\\', 't']
  | '\x08' => ['\\', 'b']
  | '\x0c' => ['\\', 'f']
  | c =>
    let n := c.toNat
    if 32 ≤ n ∧ n ≤ 126 then [c]
    else if n < 0x10000 then unitEscape n
    else unitEscape (0xd800 + (n - 0x10000) / 0x400) ++ unitEscape (0xdc00 + (n - 0x10000) % 0x400)

def quote (s : String) : List Char := '"' :: s.toList.flatMap escapeChar ++ ['"']

structure Layout where
  itemSep : List Char
  nameSep : List Char
  /-- Characters of indentation for each level, with line breaks; none keeps all on one line. -/
  indent : Option Nat

def Layout.line : Layout := ⟨", ".toList, ": ".toList, none⟩

def Layout.indented (n : Nat) : Layout := ⟨",".toList, ": ".toList, some n⟩

def Layout.break (l : Layout) (depth : Nat) : List Char :=
  match l.indent with
  | some n => '\n' :: List.replicate (n * depth) ' '
  | none => []

mutual

def Value.write (l : Layout) (depth : Nat) : Value → List Char
  | .null => "null".toList
  | .bool true => "true".toList
  | .bool false => "false".toList
  | .int n => (toString n).toList
  | .float x =>
    match x.magnitude with
    | .infinite => if x.negative then "-Infinity".toList else "Infinity".toList
    | _ => x.text.toList
  | .notANumber => "NaN".toList
  | .str s => quote s
  | .arr [] => "[]".toList
  | .arr (v :: vs) =>
    '[' :: l.break (depth + 1) ++ v.write l (depth + 1) ++ writeItems l (depth + 1) vs
      ++ l.break depth ++ [']']
  | .obj [] => ['\x7b', '\x7d']
  | .obj ((k, v) :: ms) =>
    '\x7b' :: l.break (depth + 1) ++ quote k ++ l.nameSep ++ v.write l (depth + 1)
      ++ writeMembers l (depth + 1) ms ++ l.break depth ++ ['\x7d']

def writeItems (l : Layout) (depth : Nat) : List Value → List Char
  | [] => []
  | v :: vs => l.itemSep ++ l.break depth ++ v.write l depth ++ writeItems l depth vs

def writeMembers (l : Layout) (depth : Nat) : List (String × Value) → List Char
  | [] => []
  | (k, v) :: ms =>
    l.itemSep ++ l.break depth ++ quote k ++ l.nameSep ++ v.write l depth
      ++ writeMembers l depth ms

end

def Value.render (v : Value) (l : Layout) : String := String.ofList (v.write l 0)

end LuaTune.Json
