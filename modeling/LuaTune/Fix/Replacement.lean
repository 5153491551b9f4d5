import LuaTune.Finding.Basic
import LuaTune.Fix.Edit

/-! # Fixes of calls and concatenations -/

namespace LuaTune.Fix

open Lua Text

/-! ## Replacing a call by an operator -/

def editAt (start : Nat) (stop : Option Nat) (text : Chars) (priority : Int := 0) : Edit :=
  ⟨start, stop.map Int.ofNat, text, priority⟩

def findingSpan? (source : Chars) (f : Finding) : Option (Nat × Option Nat) := do
  let n ← f.details.node? "node"
  let s := nodeSpan source n
  let start ← s.1
  return (start, s.2)

def nonEmpty? (f : Finding) (key : String) : Option Chars :=
  (f.details.text? key).bind fun s => if s.isEmpty then none else some s.toList

/-! ### The second argument of a call -/

/-- The offset of the parenthesis that closes the one before the text. Parentheses in quotes do not
count; a quote after a backslash does not close. -/
def closingParen? (previous : Char) (quote : Option Char) (depth : Nat) :
    Chars → Option Nat
  | [] => none
  | c :: cs =>
    match quote with
    | some q =>
      (closingParen? c (if c = q ∧ previous ≠ '\\' then none else some q) depth cs).map (· + 1)
    | none =>
      if c = '"' ∨ c = '\'' then (closingParen? c (some c) depth cs).map (· + 1)
      else if c = '(' then (closingParen? c none (depth + 1) cs).map (· + 1)
      else if c = ')' then
        match depth with
        | 0 => some 0
        | d + 1 => (closingParen? c none d cs).map (· + 1)
      else (closingParen? c none depth cs).map (· + 1)

/-- The text from the first comma to the end of a call. -/
def insertedValue? (call : Chars) : Option Chars := do
  let paren ← findChar? '(' call
  let comma ← findFrom? [','] paren call
  let close ← closingParen? '(' none 0 (call.drop (paren + 1))
  return strip (slice call (comma + 1) (paren + 1 + close))

/-! ### Edits -/

/-- `table.insert(t, v)` becomes `t[#t+1] = v`. -/
def appendEdits (source : Chars) (f : Finding) : List Edit :=
  let edit : Option Edit := do
    let (start, stop) ← findingSpan? source f
    let table ← nonEmpty? f "table"
    let value ← insertedValue? (sourceFrom source start stop)
    if value.isEmpty then none
    else some (editAt start stop (table ++ "[#".toList ++ table ++ "+1] = ".toList ++ value))
  edit.toList

/-- A call for a length becomes `#name`. -/
def lengthEdits (source : Chars) (f : Finding) (key : String) : List Edit :=
  let edit : Option Edit := do
    let (start, stop) ← findingSpan? source f
    let name ← nonEmpty? f key
    return editAt start stop ('#' :: name)
  edit.toList

def wholeExponent? (f : Finding) : Option Int :=
  match f.details.get? "exponent" with
  | some (.int n) => some n
  | some (.bool b) => some (if b then 1 else 0)
  | _ => none

def powerText? (f : Finding) (base : Chars) : Option Chars :=
  match f.details.text? "type" with
  | some "sqrt" => some (base ++ "^0.5".toList)
  | some "power" =>
    (wholeExponent? f).map fun n => ['*'].intercalate (List.replicate n.toNat base)
  | _ => none

/-- `math.pow` becomes `base^0.5` or a product. -/
def powerEdits (source : Chars) (f : Finding) : List Edit :=
  let edit : Option Edit := do
    let (start, stop) ← findingSpan? source f
    let base ← nonEmpty? f "base"
    let text ← powerText? f base
    return editAt start stop text
  edit.toList

/-!
## Collecting the parts of a text

A text that grows in a loop is collected in a table and joined after the loop. All lines that add to
it must have the plain form `var = var .. expr`; otherwise nothing is changed.
-/

def hasWholeLoop (line : Chars) : Bool :=
  anyTail (fun before t =>
    match wordAt? "for".toList before t with
    | some rest => hasWord "end".toList (some 'r') rest
    | none => false) none line

def hasLoopHead (line : Chars) : Bool :=
  anyTail (fun before t =>
    isBoundary before t.head? &&
      match stripPrefix? "for".toList t with
      | some rest => rest.head?.any isBlank
      | none => false) none line

/-- The expression `e` in a line `var = var .. e`. -/
def addedPart? (var line : Chars) : Option Chars := do
  let rest ← stripPrefix? var (stripLeft line)
  let rest ← stripPrefix? ['='] (stripLeft rest)
  let rest ← stripPrefix? var (stripLeft rest)
  let rest ← stripPrefix? ['.', '.'] (stripLeft rest)
  if rest.isEmpty then none else some (strip rest)

def emptyTest? (var cs : Chars) : Option Chars := do
  let rest ← stripPrefix? var cs
  let rest ← stripPrefix? ['=', '='] (stripLeft rest)
  stripPrefix? ['"', '"'] (stripLeft rest)

def guardsFirst (var cs : Chars) : Bool :=
  anyTail (fun _ t =>
    (do
      let rest ← stripPrefix? ['('] t
      let rest ← emptyTest? (lowered var) (stripLeft rest)
      let rest ← someBlanks? rest
      let rest ← stripPrefix? "and".toList rest
      someBlanks? rest).isSome) none (lowered cs)
where
  lowered (cs : Chars) : Chars := cs.map Char.toLower

def replaceEmptyTests (var text : Chars) (before : Option Char) : Nat → Chars → Chars
  | _, [] => []
  | skip + 1, c :: cs => replaceEmptyTests var text (some c) skip cs
  | 0, c :: cs =>
    match if isBoundary before (some c) then emptyTest? var (c :: cs) else none with
    | some rest =>
      text ++ replaceEmptyTests var text (some c) (cs.length - rest.length) cs
    | none => c :: replaceEmptyTests var text (some c) 0 cs

def partsName (var : Chars) : Chars := '_' :: var ++ "_parts".toList

/-- The part as it is added to the table. The variable is not there yet, so it may be used only in
tests for the first part. -/
def collectedPart? (var part : Chars) : Option Chars :=
  if !hasWord var none part then some part
  else if guardsFirst var part then
    some (replaceEmptyTests var ('#' :: partsName var ++ " == 0".toList) none 0 part)
  else none

def collectEdit? (source var : Chars) (line : Int) : Option Edit := do
  let (start, stop) ← lineSpan source line
  let text := dropEndWhile (fun c => c == '\n' || c == '\r') (slice source start stop)
  let part ← addedPart? var text
  let part ← collectedPart? var part
  let parts := partsName var
  return editAt start (some stop)
    (lineIndent source line ++ parts ++ "[#".toList ++ parts ++ "+1] = ".toList ++ part ++ ['\n'])
    50

def lineNumbers (f : Finding) (key : String) : List Int :=
  match f.details.get? key with
  | some (.list items) => items.filterMap fun d =>
    match d with
    | .int n => some n
    | _ => none
  | _ => []

/-- Collect the parts of a text that grows in a loop in a table. -/
def concatEdits (source : Chars) (f : Finding) : List Edit :=
  let edits : Option (List Edit) := do
    let var ← nonEmpty? f "variable"
    let first ← f.details.int? "init_line"
    let loopEnd ← f.details.int? "loop_end"
    let loopStart := f.details.int? "loop_start"
    let lines := lineNumbers f "concat_lines"
    if first == 0 || loopEnd == 0 || lines.isEmpty || !f.details.holds "is_safe" then none
    if loopStart == some loopEnd then none
    if lines.any fun n => loopStart == some n || n == loopEnd then none
    let shown := lines.filterMap fun n => (lineSpan source n).map fun s => slice source s.1 s.2
    if shown.any fun l => hasWholeLoop l || hasLoopHead l then none
    let (start, stop) ← lineSpan source first
    let added ← lines.mapM (collectEdit? source var)
    let after ← lineEnd source loopEnd
    let indent := lineIndent source first
    let parts := partsName var
    let isLocal := startsWith (strip (slice source start stop)) "local ".toList
    let declaration := indent ++ (if isLocal then "local ".toList else []) ++ parts
      ++ " = \x7b\x7d\n".toList
    let join := '\n' :: indent ++ "local ".toList ++ var ++ " = table.concat(".toList ++ parts
      ++ [')']
    return editAt start (some stop) declaration 50 :: added
      ++ [editAt after (some after) join 50]
  edits.getD []

end LuaTune.Fix
