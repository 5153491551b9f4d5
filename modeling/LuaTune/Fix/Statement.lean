import LuaTune.Fix.Replacement

/-! # Fixes of whole statements -/

namespace LuaTune.Fix

open Lua Text

/-!
## Commenting out debug output

All lines of the call are commented out, unless the call is part of an expression that started on
the line before, or one of its lines holds a word of control flow.
-/

def controlWords : List Chars :=
  ["if ", "then ", "else", "elseif ", "end", "for ", "while ", "do ", "repeat", "until ",
   "function ", "return "].map String.toList

def continuations : List Chars :=
  [" and", " or", "(", ",", "=", "\x7b", "["].map String.toList

def lowered (cs : Chars) : Chars := cs.map Char.toLower

/-- Does the line before look unfinished? -/
def continuesLineBefore (source : Chars) (line : Int) : Bool :=
  1 < line &&
    match lineSpan source (line - 1) with
    | some (a, b) =>
      let before := stripRight (slice source a b)
      continuations.any (endsWith before)
    | none => false

def isComment (line : Chars) : Bool := startsWith (stripLeft line) ['-', '-']

def hasControlWord (line : Chars) : Bool :=
  controlWords.any (contains (lowered (stripLeft line)))

def commentEdit (source : Chars) (span : Nat × Nat) : Edit :=
  let line := slice source span.1 span.2
  editAt span.1 (some span.2) (indentOf line ++ "-- ".toList ++ stripLeft line) 200

/-- Comment out the lines, all or none; comments stay. -/
def commentLines (source : Chars) (first last : Nat) : List Edit :=
  if continuesLineBefore source first then []
  else
    let spans := (List.range' first (last + 1 - first)).filterMap fun (n : Nat) => lineSpan source n
    let spans := spans.filter fun s => !isComment (slice source s.1 s.2)
    if spans.any fun s => hasControlWord (slice source s.1 s.2) then []
    else spans.map (commentEdit source)

def lineOfOffset (source : Chars) (offset : Nat) : Nat :=
  countChar '\n' (source.take offset) + 1

/-- Comment out the lines of a debug call. -/
def debugEdits (source : Chars) (f : Finding) : List Edit :=
  match findingSpan? source f with
  | some (start, stop) =>
    let last := lineOfOffset source (stop.getD source.length)
    commentLines source (lineOfOffset source start) last
  | none =>
    -- without a place for the call only the line of the finding is known
    match lineSpan source f.line with
    | some _ => commentLines source f.line.toNat f.line.toNat
    | none => []

/-!
## Wrapping a use in a test

A line that uses a value which may be missing is wrapped in `if … then … end` if it is a whole
statement by its look and the next line does not use the same variable.
-/

def unwrappedStarts : List Chars :=
  ["local ", "if ", "if(", "for ", "while ", "repeat", "function ", "function("].map String.toList

/-- Does a line look like a whole statement? -/
def looksWhole (line : Chars) : Bool :=
  !(unwrappedStarts.any (startsWith line)) && countChar '(' line ≤ countChar ')' line
    && !(endsWith line ['('] || endsWith line [','] || endsWith line ['.', '.'])

def startsWithCallOn (var : Chars) (source : Chars) (line : Int) : Bool :=
  match lineSpan source line with
  | some (a, b) => startsWith (strip (slice source a b)) (var ++ [':'])
  | none => false

def wrapped (var line : Chars) : Chars :=
  let indent := line.takeWhile fun c => c == ' ' || c == '\t'
  indent ++ "if ".toList ++ var ++ " then\n".toList
    ++ indent ++ "    ".toList ++ strip line ++ ['\n']
    ++ indent ++ "end".toList ++ (if endsWith line ['\n'] then ['\n'] else [])

/-- Put a call on a value that may be missing into a test. -/
def nilGuardEdits (source : Chars) (f : Finding) : List Edit :=
  let edit : Option Edit := do
    if !f.details.holds "is_safe_to_fix" then none
    let var ← nonEmpty? f "var_name"
    let assigned ← f.details.int? "assign_line"
    if assigned == 0 then none
    let (start, stop) ← lineSpan source f.line
    let line := slice source start stop
    if !looksWhole (strip line) || startsWithCallOn var source (f.line + 1) then none
    else some (editAt start (some stop) (wrapped var line) 50)
  edit.toList

/-! ## Removing dead code -/

/-- Remove the lines of dead code. -/
def deadCodeEdits (source : Chars) (f : Finding) : List Edit :=
  let edit : Option Edit := do
    if !f.details.holds "is_safe_to_remove" then none
    let first ← f.details.int? "start_line"
    let last ← f.details.int? "end_line"
    let (start, _) ← lineSpan source first
    let (_, stop) ← lineSpan source last
    let kind ← f.details.text? "dead_type"
    if ["after_return", "after_break", "if_false", "while_false"].contains kind then
      some (editAt start (some stop) [] 10)
    else none
  edit.toList

end LuaTune.Fix
