import LuaTune.Grouping
import LuaTune.Lua.Syntax.Walk

/-! # Edits and where they stand -/

namespace LuaTune.Fix

open Lua Text

/-!
## Edits of a text

An edit replaces the characters from `start` up to `stop` by a text; one whose ends are equal
inserts. Of edits that overlap the one with the higher priority is kept, and of equal ones the one
further back.

Offsets follow the rule for slices: a negative one counts from the end, one past the end means the
end, and an unknown end means that the whole text follows again.
-/

structure Edit where
  start : Int
  stop : Option Int
  text : Chars
  priority : Int := 0
deriving DecidableEq, Repr, Inhabited

inductive EditFault where
  | openRange
  | openEdit
deriving DecidableEq, Repr

def EditFault.message : EditFault → String
  | .openRange => "'<' not supported between instances of 'int' and 'NoneType'"
  | .openEdit => "'>' not supported between instances of 'NoneType' and 'int'"

namespace Edit

def isInsertion (e : Edit) : Bool := e.stop == some e.start

/-- The order in which edits are considered: higher priority first, then further back. -/
def precedes (a b : Edit) : Bool :=
  b.priority < a.priority || (a.priority == b.priority && b.start ≤ a.start)

def sort (edits : List Edit) : List Edit := sortBy precedes edits

def overlaps (e : Edit) (range : Int × Option Int) : Except EditFault Bool :=
  match range.2 with
  | none => .error .openRange
  | some stop =>
    if e.start < stop then
      match e.stop with
      | none => .error .openEdit
      | some x => .ok (range.1 < x)
    else .ok false

def overlapsAny (e : Edit) : List (Int × Option Int) → Except EditFault Bool
  | [] => .ok false
  | r :: rs => do
    if ← e.overlaps r then return true else overlapsAny e rs

/-- Leave out what overlaps a range taken before, and insertions made before. -/
def retainFrom (taken : List (Int × Option Int)) (inserted : List (Int × Chars)) :
    List Edit → Except EditFault (List Edit)
  | [] => .ok []
  | e :: es =>
    if e.isInsertion && inserted.contains (e.start, e.text) then retainFrom taken inserted es
    else do
      let inserted := if e.isInsertion then (e.start, e.text) :: inserted else inserted
      if ← e.overlapsAny taken then retainFrom taken inserted es
      else
        let taken := if e.isInsertion then taken else taken ++ [(e.start, e.stop)]
        let kept ← retainFrom taken inserted es
        return e :: kept

def retain (edits : List Edit) : Except EditFault (List Edit) := retainFrom [] [] (sort edits)

def offset (n : Nat) (i : Int) : Nat := if i < 0 then (i + n).toNat else min i.toNat n

def applyTo (e : Edit) (text : Chars) : Chars :=
  let rest := match e.stop with
    | some i => text.drop (offset text.length i)
    | none => text
  text.take (offset text.length e.start) ++ e.text ++ rest

/-- Apply edits from the back to the front; of several at one place the first comes last. -/
def applyAll (edits : List Edit) (text : Chars) : Chars :=
  (sortBy (fun a b => b.start ≤ a.start) edits).foldl (fun t e => e.applyTo t) text

def apply (edits : List Edit) (text : Chars) : Except EditFault Chars := do
  let kept ← retain edits
  return applyAll kept text

end Edit

/-!
## Where things stand in the source

Offsets of nodes, of the function name in a call, and of lines. An end may be unknown where the tree
keeps no token for it.
-/

abbrev Span := Option Nat × Option Nat

def tokenStart (a : Anchor) : Option Nat := a.token?.map (·.start)

def tokenEnd (t : Option Token) : Option Nat := t.map (·.stop + 1)

/-- Does the printed form of a token look like an opening parenthesis or an empty text? -/
def looksLikeParen (a : Anchor) : Bool :=
  match a.token? with
  | some t => contains t.render ['=', '\'', '(', '\''] || contains t.render ['=', '\'', '\'']
  | none => false

def wordStartBefore (source : Chars) (offset : Nat) : Nat :=
  let before := dropEndWhile (fun c => c == ' ' || c == '\t' || c == '\n') (source.take offset)
  (dropEndWhile isWordChar before).length

def tokenSpan (first : Anchor) (last : Option Token) : Span :=
  if first.isAbsent || last.isNone then (none, none) else (tokenStart first, tokenEnd last)

/-- A call whose callee starts with a parenthesis starts at the word before it. -/
def callSpan (source : Chars) (callee : Expr) (last : Option Token) : Span :=
  let found : Option Span := do
    if looksLikeParen callee.first then
      let start ← tokenStart callee.first
      let stop ← tokenEnd last
      return (some (wordStartBefore source start), some stop)
    else none
  match found with
  | some s => s
  | none =>
    match callee with
    | .index _ base _ => (tokenStart base.first, tokenEnd last)
    | _ => tokenSpan callee.first last

def exprSpan (source : Chars) : Expr → Span
  | .call callee _ last => callSpan source callee last
  | e => tokenSpan e.first e.last

def nodeSpan (source : Chars) : Node → Span
  | .expr e => exprSpan source e
  | n => tokenSpan n.first n.last

def sourceFrom (source : Chars) (start : Nat) (stop : Option Nat) : Chars :=
  match stop with
  | some b => slice source start b
  | none => source.drop start

/-- The first place where a name is a whole word. -/
def findWord? (name : Chars) : Option Char → Chars → Option Nat
  | _, [] => none
  | before, c :: cs =>
    let outside (c : Option Char) : Bool := !(c.any isWordChar)
    if startsWith (c :: cs) name && outside before && outside ((c :: cs).drop name.length).head? then
      some 0
    else (findWord? name (some c) cs).map (· + 1)

def nameSpanIn (source : Chars) (e : Expr) (name : Chars) : Span :=
  match exprSpan source e with
  | (none, _) => (none, none)
  | (some start, stop) =>
    let text := sourceFrom source start stop
    let found := if name.contains '.' then find? name text else findWord? name none text
    match found with
    | some n => (some (start + n), some (start + n + name.length))
    | none => (none, none)

/-- The span of the function name in a call: from the base to the field of `module.func`, else the
called expression or the method, else the name wherever it occurs in the call. -/
def funcSpan (source : Chars) (e : Expr) (name : Chars) : Span :=
  match e with
  | .call (.index form base key) _ _ =>
    match name.contains '.', tokenStart base.first, tokenEnd (Expr.index form base key).last with
    | true, some start, some stop => (some start, some stop)
    | _, _, _ => nameSpanIn source e name
  | .call callee _ _ =>
    match exprSpan source callee with
    | (some start, stop) => (some start, stop)
    | (none, _) => nameSpanIn source e name
  | .invoke _ method _ => (some method.token.start, some (method.token.stop + 1))
  | _ => nameSpanIn source e name

/-! ### Lines -/

def lineStart (lines : List Chars) (n : Nat) : Nat :=
  sumOf ((lines.take n).map fun l => l.length + 1)

def lineAt? (lines : List Chars) (line : Int) : Option Chars :=
  if 1 ≤ line then lines[(line - 1).toNat]? else none

/-- The offsets of a line with its line break. -/
def lineSpan (source : Chars) (line : Int) : Option (Nat × Nat) :=
  let lines := newlineLines source
  (lineAt? lines line).map fun l =>
    let start := lineStart lines (line - 1).toNat
    let stop := start + l.length
    (start, if line < lines.length then stop + 1 else stop)

def lineEnd (source : Chars) (line : Int) : Option Nat :=
  let lines := newlineLines source
  (lineAt? lines line).map fun l => lineStart lines (line - 1).toNat + l.length

def lineIndent (source : Chars) (line : Int) : Chars :=
  match lineAt? (newlineLines source) line with
  | some l => indentOf l
  | none => []

end LuaTune.Fix
