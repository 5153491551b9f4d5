import LuaTune.Command.Analyze

/-!
# Fixing all scripts

Before the first fix of a directory all scripts are backed up. Scripts that have a copy were fixed
before and are passed over.
-/

namespace LuaTune.Command

open Console Files

/-- The archives of earlier backups. The root is read as a pattern too. -/
def earlierBackups (t : Tree) (root : Path) : List Path :=
  glob t (root.child "fivem-scripts-backup-*.zip")

structure Repairs where
  modified : Nat := 0
  edits : Nat := 0
  completed : Nat := 0
  processed : List Path := []

def Repairs.next (r : Repairs) : Repairs := { r with completed := r.completed + 1 }

def fixItem (o : Options) (p : Path) : Action (Except FixFault Fix.Fixed) := do
  match fixFile o.fixOptions (← get).tree p with
  | .ok (t, r) => modify fun w => { w with tree := t }; return .ok r
  | .error e => return .error e

def noteFixed (o : Options) (r : Repairs) (p : Path) (result : Except FixFault Fix.Fixed) :
    Action Repairs :=
  match result with
  | .error e => do
    if o.verbose then say ("\n  [FIX ERROR] " ++ p.name ++ ": " ++ e.message)
    return r
  | .ok fixed => do
    if fixed.modified then
      if o.verbose then say ("\n  [FIXED] " ++ p.name ++ " (" ++ toString fixed.count ++ " edits)")
      return { r with modified := r.modified + 1, edits := r.edits + fixed.count }
    else return r

def showFixing (o : Options) (r : Repairs) (total : Nat) : Action Unit :=
  if o.quiet then return ()
  else put (progressText r.completed total ++ "Fixing " ++ toString r.completed ++ "/"
    ++ toString total ++ "...")

/-- Fix scripts one by one. -/
def fixSingly (o : Options) (total : Nat) : Repairs → List Path → Action Repairs
  | r, [] => return r
  | r, p :: ps => do
    let r := r.next
    showFixing o r total
    let r ← noteFixed o r p (← fixItem o p)
    fixSingly o total r ps

/-- Count what the workers hand back, up to a crash. -/
def collectFixes (o : Options) (total : Nat) :
    Repairs → List (Path × Outcome (Except FixFault Fix.Fixed)) → Action (Repairs × Bool)
  | r, [] => return (r, false)
  | r, (p, outcome) :: rest => do
    let r := r.next
    showFixing o r total
    match outcome with
    | .crashed => return (r, true)
    | .failed =>
      if o.verbose then say "\n  [ERROR] task failed"
      collectFixes o total r rest
    | .done result =>
      let r ← noteFixed o { r with processed := p :: r.processed } p result
      collectFixes o total r rest

/-- Fix scripts in a pool, as large as that of the analysis, and singly what a crash leaves. -/
def fixByPool (o : Options) (paths : List Path) : Action Repairs := do
  let total := paths.length
  let (r, crashed) ← match ← runPool 1 (fixItem o) paths with
    | none => pure ({}, true)
    | some outcomes => collectFixes o total {} (paths.zip outcomes)
  let r ← if crashed then do
      if !o.quiet then say crashLine
      fixSingly o total r (paths.filter fun p => !r.processed.contains p)
    else pure r
  if !o.quiet then put ("\r" ++ rule ' ' 60 ++ "\r")
  return r

def fixKinds (o : Options) : List String :=
  [(o.fix, "GREEN"), (o.fixYellow, "YELLOW"), (o.fixDebug, "DEBUG"),
   (o.experimental, "EXPERIMENTAL"), (o.fixNil, "NIL-GUARD"), (o.removeDeadCode, "DEAD-CODE")]
    |>.filterMap fun k => if k.1 then some k.2 else none

/-- End the run unless an archive is there or can be made. -/
def requireBackup (o : Options) (root : Path) (scripts : List ScriptItem) : Action Unit := do
  match earlierBackups (← get).tree root with
  | first :: _ => if o.verbose then say ("Found existing backup: " ++ first.text)
  | [] =>
    sayAll ["\n" ++ rule '=' 60, "FIRST-TIME SAFETY BACKUP", rule '=' 60,
      "No previous backup found. Creating automatic backup...",
      "(Use --no-first-time-auto-backup to skip this in future)\n"]
    match ← backupAll scripts none (some root) o.quiet with
    | some archive =>
      say ("\nBackup created: " ++ archive.text)
      say (rule '=' 60 ++ "\n")
    | none =>
      say "\nBackup failed! Aborting fixes for safety."
      say "  Run with --no-first-time-auto-backup to skip (not recommended)"
      exit 1

def showSkipped (o : Options) (before : List ScriptItem) : Action Unit := do
  if o.verbose then
    before.forM fun s => say ("  [SKIP] " ++ s.2.name ++ " - backup already exists")
  if !before.isEmpty && !o.quiet then
    say ("Skipping " ++ toString before.length
      ++ " files with existing backups (already processed)")
    say ("Tip: Use --revert first if you want to re-process, or --clean-backups to remove old "
      ++ "backups\n")

/-- The scripts without copies. -/
def unfixed (o : Options) (scripts : List ScriptItem) : Action (List Path) := do
  let t := (← get).tree
  showSkipped o (scripts.filter fun s => t.contains (backupOf s.2))
  return (scripts.filter fun s => !t.contains (backupOf s.2)).map (·.2)

def fixPaths (o : Options) (paths : List Path) : Action Repairs := do
  if paths.isEmpty then
    note o.quiet "No files to process (all have existing backups)."
    return {}
  else if o.singleThread then
    note o.quiet "Running in single-thread mode..."
    let r ← fixSingly o paths.length {} paths
    note o.quiet ""
    return r
  else fixByPool o paths

def repairAll (o : Options) (root : Path) (scripts : List ScriptItem) : Action Repairs := do
  if !o.noFirstBackup then requireBackup o root scripts
  say ("Applying fixes (" ++ ", ".intercalate (fixKinds o) ++ ") with "
    ++ toString (workerCount o (← get)) ++ " workers...")
  fixPaths o (← unfixed o scripts)

end LuaTune.Command
