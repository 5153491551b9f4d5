import LuaTune.Console
import LuaTune.Files.Script
import LuaTune.Resources

/-! # Backups -/

namespace LuaTune.Command

open Console Files Resources

/-! ## Backing up all scripts -/

abbrev ScriptItem := String × Path

def megabytes (n : Nat) : String := (Decimal.Binary.ofQuotient n (1024 * 1024)).fixed 2

def zipPath (p : Path) : Path :=
  if p.suffix.map Char.toLower == ".zip" then p else p.withSuffix ".zip"

/-- The path of an archive. Only a name can have an ending. -/
def asArchive (p : Path) : Action Path :=
  if p.name.isEmpty then fail (.noName p) else return zipPath p

/-- The name of a script in an archive. -/
def backupName (root : Option Path) (s : ScriptItem) : String :=
  match root.bind s.2.relativeTo? with
  | some rel => rel.text
  | none => ((Path.ofString s.1).join (.ofString s.2.name)).text

def backupPath (root : Option Path) (asked : Option String) (now : Moment) : Path :=
  let name := "fivem-scripts-backup-" ++ now.fileName ++ ".zip"
  match asked with
  | none | some "auto" => ((root.map fun r => r.child name).getD ⟨false, [name]⟩)
  | some s => .ofString s

/-- Add scripts to an archive up to the first error. -/
def backupScripts (archive : Path) (root : Option Path) (quiet : Bool) (total : Nat) :
    Nat → List ScriptItem → Action (Option FileError)
  | _, [] => return none
  | done, s :: ss => do
    match ← tryFiles (addEntry archive s.2 (backupName root s)) with
    | some e => return some e
    | none =>
      if !quiet && (done + 1) % 500 == 0 then
        say ("  " ++ toString (done + 1) ++ "/" ++ toString total ++ " files...")
      backupScripts archive root quiet total (done + 1) ss

def writeBackup (archive : Path) (root : Option Path) (quiet : Bool) (scripts : List ScriptItem) :
    Action (Option FileError) := do
  match ← tryFiles (startArchive archive) with
  | some e => return some e
  | none => backupScripts archive root quiet scripts.length 0 scripts

def archiveSize (t : Tree) (p : Path) : Nat :=
  match t.read p with
  | .ok (.archive a) => a.encode.length
  | .ok (.bytes bs) => bs.length
  | .error _ => 0

def note (quiet : Bool) (s : String) : Action Unit := if quiet then return () else say s

def backupAll (scripts : List ScriptItem) (asked : Option String) (root : Option Path)
    (quiet : Bool) : Action (Option Path) := do
  if scripts.isEmpty then
    note quiet "No scripts to backup."
    return none
  else
    let archive ← asArchive (backupPath root asked (← get).now)
    note quiet ("Creating backup: " ++ archive.text)
    note quiet ("Backing up " ++ toString scripts.length ++ " script files...")
    match ← writeBackup archive root quiet scripts with
    | some e =>
      note quiet ("Backup failed: " ++ e.message)
      return none
    | none =>
      let size := archiveSize (← get).tree archive
      note quiet ("Backup complete: " ++ archive.text ++ " (" ++ megabytes size ++ " MB)")
      return some archive

/-! ## Working with the copies of scripts -/

structure Kept where
  script : Path
  resource : String

def Kept.copy (k : Kept) : Path := backupOf k.script

/-- The scripts that have copies. -/
def keptScripts (t : Tree) (table : ScriptTable) : List Kept :=
  table.flatMap fun e =>
    (e.2.filter fun p => t.contains (backupOf p)).map fun p => ⟨p, e.1⟩

def keptByResource (kept : List Kept) : List (String × List Kept) :=
  sortBy (fun a b => !(b.1 < a.1)) (groupOn Kept.resource kept)

def listBackups (kept : List Kept) : Action Unit := do
  say ("Found " ++ toString kept.length ++ " backup files:\n")
  (keptByResource kept).forM fun g => do
    say ("  [" ++ g.1 ++ "]")
    g.2.forM fun k => say ("    - " ++ k.copy.name)

def confirm (question : String) : Action Unit := do
  let reply ← ask question
  if (Text.strip reply).map Char.toLower != ['y'] then
    say "Cancelled."
    exit 0

/-- How many steps went well; the others are reported. -/
def countDone (complaint : Kept → String) (step : Kept → Action (Option FileError)) :
    List Kept → Action Nat
  | [] => return 0
  | k :: ks => do
    let one ← match ← step k with
      | none => pure 1
      | some e =>
        say ("  [ERROR] " ++ complaint k ++ ": " ++ e.message)
        pure 0
    return one + (← countDone complaint step ks)

def cleanBackups (kept : List Kept) : Action Unit := do
  confirm ("Delete " ++ toString kept.length ++ " backup files? [y/N]: ")
  let n ← countDone (fun k => "Could not delete " ++ k.copy.name)
    (fun k => tryFiles fun t => t.remove k.copy) kept
  say ("Deleted " ++ toString n ++ " backup files.")

/-- Put the copy in the place of the script. -/
def restore (verbose : Bool) (k : Kept) : Action (Option FileError) := do
  match ← tryFiles fun t => t.copy k.copy k.script with
  | some e => return some e
  | none =>
    match ← tryFiles fun t => t.remove k.copy with
    | some e => return some e
    | none =>
      if verbose then say ("  [RESTORED] " ++ k.script.name)
      return none

def revert (verbose : Bool) (kept : List Kept) : Action Unit := do
  confirm ("Restore " ++ toString kept.length ++ " files from backups? [y/N]: ")
  let n ← countDone (fun k => "Could not restore " ++ k.script.name) (restore verbose) kept
  say ("Restored " ++ toString n ++ " files from backups.")

/-! ### Archives for debugging -/

def addPair (archive : Path) (verbose : Bool) (k : Kept) : Action Unit := do
  let script := k.resource ++ "/" ++ k.script.name
  let copy := k.resource ++ "/" ++ k.copy.name
  changeFiles (addEntry archive k.script script)
  changeFiles (addEntry archive k.copy copy)
  if verbose then
    say ("  + " ++ script)
    say ("  + " ++ copy)

def extractTo (archive : Path) (verbose : Bool) (groups : List (String × List Kept)) :
    Action Unit := do
  changeFiles (startArchive archive)
  groups.forM fun g => g.2.forM (addPair archive verbose)

def chunksFrom {α : Type} (n : Nat) : Nat → List α → List α → List (List α)
  | _, current, [] => if current.isEmpty then [] else [current.reverse]
  | 0, current, x :: xs => current.reverse :: chunksFrom n (n - 1) [x] xs
  | room + 1, current, x :: xs => chunksFrom n room (x :: current) xs

def chunks {α : Type} (n : Nat) (xs : List α) : List (List α) := chunksFrom n n [] xs

def pairCount (groups : List (String × List Kept)) : Nat := sumOf (groups.map fun g => g.2.length)

def pieceArchive (whole : Path) (number : Nat) : Path :=
  whole.parent.child (whole.stem ++ "_" ++ toString number ++ ".zip")

def extractPieces (whole : Path) (verbose : Bool) (total : Nat) :
    Nat → List (List (String × List Kept)) → Action Unit
  | _, [] => return ()
  | index, piece :: pieces => do
    let archive := pieceArchive whole (index + 1)
    extractTo archive verbose piece
    say ("  [" ++ toString (index + 1) ++ "/" ++ toString total ++ "] " ++ archive.name ++ ": "
      ++ toString piece.length ++ " resources, " ++ toString (pairCount piece) ++ " file pairs")
    extractPieces whole verbose total (index + 1) pieces

/-- Pack scripts and copies, some resources to an archive. -/
def extractSplit (archive : Path) (verbose : Bool) (split : Nat)
    (groups : List (String × List Kept)) : Action Unit := do
  let pieces := chunks split groups
  say ("Extracting " ++ toString (pairCount groups) ++ " modified files from "
    ++ toString groups.length ++ " resources into " ++ toString pieces.length ++ " archives...")
  extractPieces archive verbose pieces.length 0 pieces
  say ("\nSaved " ++ toString pieces.length ++ " archives to: "
    ++ absoluteText (← get) archive.parent)

def extractWhole (archive : Path) (verbose : Bool) (groups : List (String × List Kept)) :
    Action Unit := do
  let count := toString (pairCount groups)
  say ("Extracting " ++ count ++ " modified files to " ++ archive.text ++ "...")
  extractTo archive verbose groups
  say ("\nExtracted " ++ count ++ " file pairs from " ++ toString groups.length ++ " resources:")
  groups.forM fun g => say ("  [" ++ g.1 ++ "] " ++ toString g.2.length ++ " files")
  say ("\nSaved to: " ++ absoluteText (← get) archive)

def debugArchive (p : Path) : Path := if p.suffix.isEmpty then p.withSuffix ".zip" else p

def extractDebug (asked : Path) (split : Int) (verbose : Bool) (kept : List Kept) :
    Action Unit := do
  if kept.isEmpty then
    say "No modified files found (no .flao-bak backups exist)."
  else if asked.name.isEmpty then fail (.noName asked)
  else if 0 < split then
    extractSplit (debugArchive asked) verbose split.toNat (keptByResource kept)
  else extractWhole (debugArchive asked) verbose (keptByResource kept)

end LuaTune.Command
