import LuaTune.Decimal
import LuaTune.Files.Tree

/-! # Commands and their world -/

namespace LuaTune.Console

open Files

/-! ## Moments -/

structure Moment where
  year : Nat
  month : Nat
  day : Nat
  hour : Nat
  minute : Nat
  second : Nat
deriving DecidableEq, Repr

namespace Moment

def two (n : Nat) : String := Decimal.padZeros 2 (toString n)

def date (m : Moment) (sign : String) : String :=
  sign.intercalate [Decimal.padZeros 4 (toString m.year), two m.month, two m.day]

def time (m : Moment) (sign : String) : String :=
  sign.intercalate [two m.hour, two m.minute, two m.second]

def text (m : Moment) : String := m.date "-" ++ " " ++ m.time ":"

def standard (m : Moment) : String := m.date "-" ++ "T" ++ m.time ":"

def fileName (m : Moment) : String := m.date "-" ++ "_" ++ m.time "-"

def compact (m : Moment) : String := m.date "" ++ "_" ++ m.time ""

end Moment

/-!
## The world of a command

What a command sees and changes: files, what was typed, what was printed. What a command did before
it stops stays done.
-/

inductive Breakdown where
  /-- The task is lost with its worker. -/
  | crash
  /-- The task alone fails. -/
  | failure
  /-- The task is refused, those before it have run. -/
  | refusal
deriving DecidableEq, Repr

/-- A breakdown that is to happen: in which pool and at which task, counted from zero. -/
structure PlannedBreakdown where
  kind : Breakdown
  pool : Nat
  task : Nat
deriving DecidableEq, Repr

structure World where
  tree : Tree
  input : Chars := []
  output : String := ""
  now : Moment
  directory : String
  program : String := "luatune"
  processors : Nat
  breakdown : Option PlannedBreakdown := none
  noPools : Bool := false
  interrupts : Bool := false
  prompts : Bool := true

inductive Failure where
  | file (cause : FileError)
  | endOfInput
  | noName (path : Path)
  | noWorkers
  | notText (place : Nat) (kind : String)
deriving DecidableEq, Repr

def Failure.message : Failure → String
  | .file e => e.message
  | .endOfInput => "EOF when reading a line"
  | .noName p => "PosixPath('" ++ p.text ++ "') has an empty name"
  | .noWorkers => "max_workers must be greater than 0"
  | .notText n kind =>
    "sequence item " ++ toString n ++ ": expected str instance, " ++ kind ++ " found"

inductive Stop where
  | exit (code : Nat)
  | failure (cause : Failure)
  | interrupt
deriving DecidableEq, Repr

abbrev Action := EStateM Stop World

def put (s : String) : Action Unit := modify fun w => { w with output := w.output ++ s }

def say (s : String) : Action Unit := put (s ++ "\n")

def sayAll (ss : List String) : Action Unit := ss.forM say

def exit {α : Type} (code : Nat) : Action α := throw (.exit code)

def fail {α : Type} (f : Failure) : Action α := throw (.failure f)

def ask (question : String) : Action Chars := do
  let w ← get
  if w.interrupts then throw .interrupt
  if w.prompts then put question
  match w.input with
  | [] => fail .endOfInput
  | cs =>
    modify fun w => { w with input := (cs.dropWhile (· != '\n')).drop 1 }
    return cs.takeWhile (· != '\n')

def tryFiles (f : Tree → Except FileError Tree) : Action (Option FileError) := do
  match f (← get).tree with
  | .ok t => modify fun w => { w with tree := t }; return none
  | .error e => return some e

def changeFiles (f : Tree → Except FileError Tree) : Action Unit := do
  match ← tryFiles f with
  | some e => fail (.file e)
  | none => return ()

def absoluteText (w : World) (p : Path) : String :=
  if p.rooted then p.text
  else if p.parts.isEmpty then w.directory
  else w.directory ++ "/" ++ p.text

/-! ### Columns -/

def right (width : Nat) (s : String) : String :=
  String.ofList (List.replicate (width - s.length) ' ') ++ s

def left (width : Nat) (s : String) : String :=
  s ++ String.ofList (List.replicate (width - s.length) ' ')

def rule (sign : Char) (n : Nat) : String := String.ofList (List.replicate n sign)

/-!
## Writing archives

Files are added one by one. If one cannot be read, the archive is left with those before it.
-/

def archiveEntry (t : Tree) (p : Path) (name : String) : Except FileError ArchiveEntry :=
  match t.stat p with
  | .error o => .error ⟨o, p.text⟩
  | .ok .directory => .ok ⟨entryName name ++ "/", []⟩
  | .ok (.file c) => .ok ⟨entryName name, c.toBytes⟩

def leadsTo (t : Tree) (p archive : Path) : Bool :=
  match t.locate p, t.locate archive with
  | .ok l, .ok m => l == m
  | _, _ => false

/-- Add something to the archive at a path. Of itself an archive holds what was written before: its
directory is still to come. -/
def addEntry (archive : Path) (p : Path) (name : String) (t : Tree) : Except FileError Tree := do
  let e ← archiveEntry t p name
  match t.read archive with
  | .ok (.archive a) =>
    let e := if leadsTo t p archive then { e with content := a.flatMap ArchiveEntry.encoded } else e
    t.write archive (.archive (a ++ [e]))
  | _ => t.write archive (.archive [e])

def startArchive (archive : Path) (t : Tree) : Except FileError Tree := t.write archive (.archive [])

end LuaTune.Console
