import LuaTune.Files.Tree
import LuaTune.Fix.Script

/-!
# Scripts in a file tree

Before a script is written for the first time it is copied beside itself; a copy that is there
stays, so that it holds the script as it was before all fixes.
-/

namespace LuaTune.Files

open Text

/-- The text of a script that can be read. -/
def scriptAt? (t : Tree) (p : Path) : Option Chars :=
  match t.read p with
  | .ok c => some (scriptText c.toBytes)
  | .error _ => none

/-- The findings about the script at a path; none if it cannot be read. -/
def analyzeFile (settings : Settings) (t : Tree) (p : Path) :
    Except Analysis.Fault (List Finding) :=
  match scriptAt? t p with
  | some source => analyzeSource settings source
  | none => .ok []

/-- Where the copy of a script is. -/
def backupOf (p : Path) : Path := p.appendToName ".flao-bak"

structure FixOptions extends Fix.Options where
  backup : Bool := true
  dryRun : Bool := false
deriving DecidableEq, Repr

inductive FixFault where
  | script (cause : Fix.Fault)
  | file (cause : FileError)
deriving DecidableEq, Repr

def FixFault.message : FixFault → String
  | .script f => f.message
  | .file e => e.message

/-- Copy a script beside itself unless there is a copy. -/
def keepBackup (t : Tree) (p : Path) : Except FileError Tree :=
  if t.contains (backupOf p) then .ok t else t.copy p (backupOf p)

/-- Write a script anew, after its copy. -/
def writeFixed (o : FixOptions) (t : Tree) (p : Path) (content : Chars) :
    Except FileError Tree := do
  let t ← if o.backup then keepBackup t p else .ok t
  t.write p (.bytes (bytesOfChars content))

/-- Fix the script at a path. One that cannot be read counts as empty. -/
def fixFile (o : FixOptions) (t : Tree) (p : Path) : Except FixFault (Tree × Fix.Fixed) :=
  match scriptAt? t p with
  | none => .ok (t, ⟨false, [], 0, []⟩)
  | some source => do
    let r ← (Fix.fixSource o.toOptions source).mapError FixFault.script
    if r.modified && !o.dryRun then
      let t ← (writeFixed o t p r.content).mapError FixFault.file
      return (t, r)
    else return (t, r)

end LuaTune.Files
