import LuaTune.Command.Repair
import LuaTune.Report.Save

/-! # The linter -/

namespace LuaTune.Command

open Console Files Resources Text

/-! ## The path -/

def isQuote (c : Char) : Bool := c == '"' || c == '\''

def cleanPath (cs : Chars) : Path :=
  .ofChars (dropEndWhile (fun c => c == '/' || c == '\\') (trimWhile isQuote cs))

def cutFrom (piece : Chars) (run : Chars) : Nat → Chars → List Chars
  | _, [] => [run.reverse]
  | skip + 1, _ :: cs => cutFrom piece run skip cs
  | 0, c :: cs =>
    if startsWith (c :: cs) piece then run.reverse :: cutFrom piece [] (piece.length - 1) cs
    else cutFrom piece (c :: run) 0 cs

/-- Take an option from a piece of a broken path. -/
def recover (o : Options) (part : Chars) : Action Options := do
  let recovered (o : Options) (s : String) : Action Options := do
    say ("  Recovered: --" ++ s)
    return o
  let flag := (words part).headD part
  match String.ofList flag with
  | "direct" => recovered { o with direct := true } "direct"
  | "fix" => recovered { o with fix := true } "fix"
  | "fix-yellow" => recovered { o with fixYellow := true } "fix-yellow"
  | "fix-debug" => recovered { o with fixDebug := true } "fix-debug"
  | "experimental" => recovered { o with experimental := true } "experimental"
  | _ =>
    if startsWith flag "report".toList then
      match words (part.drop 6) with
      | [] => return o
      | file :: _ =>
        let file := String.ofList (trimWhile isQuote file)
        recovered { o with report := file } ("report " ++ file)
    else return o

def recoverAll (o : Options) : List Chars → Action Options
  | [] => return o
  | part :: parts => do recoverAll (← recover o part) parts

/-- Take options from a path that a stray quote has run into. -/
def recoverOptions (o : Options) : Action (Options × Chars) := do
  sayAll
    ["WARNING: Detected malformed input - likely caused by trailing backslash before quote.",
     "         Windows interprets \\\" as an escaped quote, breaking argument parsing.", "",
     "Instead of:  \"C:\\\\path\\\\\" --flags", "Use:         \"C:\\\\path\" --flags", ""]
  let parts := cutFrom " --".toList [] 0 o.path.toList
  let o ← recoverAll o (parts.drop 1)
  say ""
  return (o, parts.headD [])

def askPath : Action Path := do
  say "FiveM Lua Auto Optimizer (FLAO)"
  say (rule '=' 55)
  let reply := strip (← ask "\nEnter path to FiveM resources directory: ")
  if reply.isEmpty then
    say "No path provided. Exiting."
    exit 1
  return cleanPath reply

def choosePath (o : Options) : Action (Options × Path) := do
  if o.path.isEmpty then return (o, ← askPath)
  else if contains o.path.toList " --".toList then
    let (o, path) ← recoverOptions o
    return (o, cleanPath path)
  else return (o, cleanPath o.path.toList)

/-! ## The scripts -/

/-- The names in a list of resources to leave out. Lines that start with a hash are comments. -/
def excludedNames (text : Chars) : List String :=
  ((newlineLines text).map strip).filterMap fun l =>
    if l.isEmpty || startsWith l ['#'] then none else some (String.ofList l)

/-- Leave out the resources that a file names. -/
def exclude (o : Options) (table : ScriptTable) : Action ScriptTable := do
  let p := Path.ofString o.exclude
  let t := (← get).tree
  if o.exclude.isEmpty then return table
  else if !t.contains p then
    say ("Warning: Exclude file not found: " ++ p.text)
    return table
  else
    let text : Except String Chars := match t.read p with
      | .error e => .error e.message
      | .ok c => (decodeStrictly c.toBytes).mapError DecodeError.message
    match text with
    | .error e =>
      say ("Warning: Could not read exclude file: " ++ e)
      return table
    | .ok cs =>
      let names := excludedNames (unifyNewlines cs)
      let rest := table.filter fun e => !names.contains e.1
      if rest.length < table.length then
        say ("Excluded " ++ toString (table.length - rest.length) ++ " resources from " ++ p.name)
      return rest

def scriptsAt (o : Options) (t : Tree) (root : Path) : ScriptTable :=
  if o.direct then discoverDirect t root else discover t root

def stopWithoutScripts {α : Type} (o : Options) : Action α := do
  if o.direct then say "No Lua scripts found in path."
  else
    say "No FiveM resources with scripts found."
    say ("Tip: Make sure the path contains resources with fxmanifest.lua or "
      ++ "__resource.lua")
  exit 0

def showFound (o : Options) (table : ScriptTable) : Action Unit :=
  let count := toString (sumOf (table.map fun e => e.2.length))
  if o.direct then say ("Found " ++ count ++ " Lua files (direct mode)\n")
  else say ("Found " ++ toString table.length ++ " resources with " ++ count ++ " Lua files\n")

def findScripts (o : Options) (root : Path) : Action ScriptTable := do
  say ("\nScanning: " ++ root.text)
  let table ← exclude o (scriptsAt o (← get).tree root)
  if table.isEmpty then stopWithoutScripts o
  else
    showFound o table
    return table

/-! ## Work on copies -/

/-- List, clean, restore or pack copies, and end the run if that was asked. -/
def handleCopies (o : Options) (table : ScriptTable) : Action Unit := do
  let kept := keptScripts (← get).tree table
  if o.listBackups || o.revert || o.cleanBackups then
    if kept.isEmpty then say "No backup files found."
    else if o.listBackups then listBackups kept
    else if o.cleanBackups then cleanBackups kept
    else revert o.verbose kept
    exit 0
  if !o.extractDebug.isEmpty then
    extractDebug (.ofString o.extractDebug) o.split o.verbose kept
    exit 0

/-! ## Backups -/

/-- Back up all scripts before the first fix; the run goes on if that holds. -/
def firstBackup (o : Options) (root : Path) (scripts : List ScriptItem) : Action Bool := do
  if !o.fixes || o.noFirstBackup || !o.backupAll.isEmpty then return true
  if !(earlierBackups (← get).tree root).isEmpty then return true
  if !o.quiet then
    sayAll [rule '=' 60, "SAFETY: No backup found. Creating automatic backup first...",
      "        (use --no-first-time-auto-backup to skip this)", rule '=' 60]
  match ← Command.backupAll scripts (some "auto") (some root) o.quiet with
  | some _ =>
    if !o.quiet then say ""
    return true
  | none =>
    sayAll ["\n[!] WARNING: Auto-backup failed!", "    For safety, aborting fix operation.",
      "    You can:", "      1. Fix the backup issue and try again",
      "      2. Use --no-first-time-auto-backup to skip (not recommended)",
      "      3. Manually backup your resources folder first"]
    return false

def askedBackup (o : Options) (root : Path) (scripts : List ScriptItem) : Action Unit := do
  if !o.backupAll.isEmpty then
    let made ← Command.backupAll scripts (some o.backupAll) (some root) o.quiet
    if made.isNone && !o.quiet then say "Warning: Backup failed, continuing anyway..."
    say ""

/-! ## Results -/

def findingsLine (r : Report) : String :=
  let b := r.summary
  let fs := r.all
  let count (p : Finding → Bool) : Nat := fs.countP p
  let named (start : String) (f : Finding) : Bool := startsWith f.pattern.toList start.toList
  let nils := count fun f => f.pattern == "potential_nil_access"
  let fixableNils := count fun f =>
    f.pattern == "potential_nil_access" && f.details.holds "is_safe_to_fix"
  let dead := count (named "dead_code_") + count (named "unused_")
  let removable := count fun f => named "dead_code_" f && f.details.holds "is_safe_to_remove"
  let distances := count fun f => f.pattern == "distance_native"
  let some_ (n : Nat) (s : String) : String := if n = 0 then "" else ", " ++ toString n ++ s
  toString b.green ++ " GREEN (auto-fixable), " ++ toString b.yellow ++ " YELLOW (review), "
    ++ toString b.red ++ " RED (info)" ++ some_ b.debug " DEBUG (logging)"
    ++ some_ nils (" NIL (" ++ toString fixableNils ++ " fixable)")
    ++ some_ dead (" DEAD-CODE (" ++ toString removable ++ " removable)")
    ++ some_ distances " DISTANCE (use vector math)"

def tips (o : Options) (r : Report) : List String :=
  let b := r.summary
  let has (p : Finding → Bool) : Bool := r.all.any p
  [(0 < b.green && !o.fix, "\nTip: Run with --fix to automatically apply GREEN fixes"),
   (0 < b.yellow && !o.fixYellow,
    "Tip: Run with --fix-yellow to also apply YELLOW fixes (review carefully)"),
   (0 < b.debug && !o.fixDebug, "Tip: Run with --fix-debug to comment out DEBUG statements"),
   (0 < b.yellow && !o.experimental,
    "Tip: Run with --experimental to fix string concat in loops (experimental)"),
   (has (fun f => f.pattern == "potential_nil_access" && f.details.holds "is_safe_to_fix")
      && !o.fixNil,
    "Tip: Run with --fix-nil to add nil guards for safe nil access patterns"),
   (has (fun f => startsWith f.pattern.toList "dead_code_".toList
      && f.details.holds "is_safe_to_remove") && !o.removeDeadCode,
    "Tip: Run with --remove-dead-code to remove safe unreachable code"),
   (has (fun f => f.pattern == "distance_native"),
    "Tip: Replace GetDistanceBetweenCoords() with #(coords1 - coords2) for better performance"),
   (o.fixes, "Tip: Run with --revert to undo all changes using .flao-bak files")]
    |>.filterMap fun t => if t.1 then some t.2 else none

def saveReport (o : Options) (r : Report) : Action Unit := do
  if !o.report.isEmpty then
    let p := Path.ofString o.report
    say ("\nGenerating report: " ++ p.name ++ "...")
    r.save p (!o.quiet)
    say ("Report saved to: " ++ p.text)

def showResults (o : Options) (t : Tally) (done : Repairs) : Action Unit := do
  if !o.quiet then
    t.report.printSummary
    if o.verbose then t.report.printDetailed
  saveReport o t.report
  say ("\n" ++ rule '=' 55)
  say ("Files analyzed: " ++ toString t.analyzed)
  say ("Files with issues: " ++ toString t.withIssues)
  if 0 < t.skipped then say ("Files skipped (timeout/error): " ++ toString t.skipped)
  if 0 < t.parseErrors then say ("Files with parse errors: " ++ toString t.parseErrors)
  if o.fixes then
    say ("Files modified: " ++ toString done.modified)
    say ("Total edits applied: " ++ toString done.edits)
  say ("\nFindings: " ++ findingsLine t.report)
  sayAll (tips o t.report)

/-! ## The command -/

def chooseTask (args : List String) : Action (Options × Path) := do
  choosePath (← readOptions args)

def lintScripts (o : Options) (root : Path) (scripts : List ScriptItem) : Action Unit := do
  if ← firstBackup o root scripts then
    askedBackup o root scripts
    startWorkers o
    let t ← analyzeAll o scripts
    let done ← if o.fixes then repairAll o root scripts else pure {}
    showResults o t done

def scriptItems (table : ScriptTable) : List ScriptItem :=
  table.flatMap fun e => e.2.map fun p => (e.1, p)

def lintFound (o : Options) (root : Path) (table : ScriptTable) : Action Unit := do
  handleCopies o table
  lintScripts o root (scriptItems table)

def lintAt (o : Options) (root : Path) : Action Unit := do
  if (← get).tree.contains root then lintFound o root (← findScripts o root)
  else
    say ("Error: Path does not exist: " ++ root.text)
    exit 1

def lint (args : List String) : Action Unit := do
  let (o, root) ← chooseTask args
  lintAt o root

def lintProgram (args : List String) : Action Unit :=
  tryCatch (lint args) fun stop => do
    match stop with
    | .interrupt =>
      say "\n\nInterrupted by user."
      exit 1
    | stop => throw stop

end LuaTune.Command
