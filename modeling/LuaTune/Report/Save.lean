import LuaTune.Console
import LuaTune.Report.Page

/-! # Showing and saving the report -/

namespace LuaTune.Report

open Console Files

/-! ## Reports on the console -/

def marker : Severity → String
  | .green => "[G]"
  | .yellow => "[Y]"
  | .red => "[R]"
  | .debug => "[D]"
  | .other _ => "[ ]"

def number (n : Nat) : String := Console.right 5 (toString n)

def summaryLines (r : Report) : List String :=
  let b := r.summary
  let issues := r.topIssues 10
  let scripts := r.worstScripts.take 10
  ["\n" ++ rule '=' 60, "ANALYSIS SUMMARY", rule '=' 60,
   "\n  GREEN  (auto-fixable):  " ++ number b.green,
   "  YELLOW (review needed): " ++ number b.yellow,
   "  RED    (info only):     " ++ number b.red,
   "  DEBUG  (logging):       " ++ number b.debug,
   "  " ++ rule '-' 28,
   "  TOTAL:                  " ++ number (b.green + b.yellow + b.red + b.debug)]
    ++ (if issues.isEmpty then [] else ["\nTop issues by type:"])
    ++ issues.map (fun i => "  " ++ marker i.severity ++ " " ++ i.pattern ++ ": " ++ toString i.count)
    ++ (if scripts.isEmpty then [] else ["\nScripts with most issues:"])
    ++ scripts.map fun s => "  [" ++ Console.right 4 (toString s.2) ++ "] " ++ s.1

def printSummary (r : Report) : Action Unit := sayAll r.summaryLines

def printFinding (f : Finding) : Action Unit := do
  say ("    " ++ marker f.severity ++ " L" ++ toString f.line ++ ": " ++ f.pattern)
  match f.details.format with
  | .error e => fail (.notText e.place e.kind)
  | .ok s => if s.isEmpty then return () else say ("        " ++ s)

def printFile (path : String) (fs : List Finding) : Action Unit := do
  say ("\n  " ++ (Path.ofString path).name ++ ":")
  let ordered := [Severity.green, .yellow, .red, .debug].flatMap fun s =>
    fs.filter fun f => f.severity == s
  ordered.forM printFinding

def printScript (script : String) (files : FileFindings) : Action Unit := do
  sayAll ["\n" ++ rule '-' 60, "Script: " ++ script, rule '-' 60]
  files.forM fun e => printFile e.1 e.2

def printDetailed (r : Report) : Action Unit := do
  sayAll ["\n" ++ rule '=' 60, "DETAILED FINDINGS", rule '=' 60]
  r.sorted.forM fun s => printScript s.1 s.2

/-!
## Saving a report

A report is saved as a page, as JSON or as plain text, by the ending of the path.
-/

def progress (verbose : Bool) (s : String) : Action Unit := if verbose then put s else return ()

def countScripts (verbose : Bool) (what : String) (n : Nat) : Action Unit :=
  (List.range n).forM fun i =>
    progress (verbose && 10 < n)
      ("\r  Processing " ++ what ++ ": " ++ (Decimal.percentage (i + 1) n).fixed 0 ++ "%  ")

def writeText (p : Path) (s : String) : Action Unit :=
  changeFiles fun t => t.write p (.bytes (Text.utf8 s.toList))

def writingLine : String := "\r  Writing file...              "

def doneLine : String := "\r  Done.                        \n"

/-! ### JSON -/

def findingValue (f : Finding) : Json.Value :=
  .obj [("line", .int f.line), ("pattern", .str f.pattern), ("severity", .str f.severity.name),
    ("description", .str f.message), ("details", f.details.sanitize)]

def jsonValue (r : Report) (now : Moment) : Json.Value :=
  let b := r.summary
  let number (n : Nat) : Json.Value := .int n
  .obj [("generated", .str now.standard),
    ("summary", .obj [("total", number r.total), ("green", number b.green),
      ("yellow", number b.yellow), ("red", number b.red), ("debug", number b.debug)]),
    ("findings", .obj (r.scripts.map fun s =>
      (s.1, .obj (s.2.map fun e => (e.1, .arr (e.2.map findingValue))))))]

def saveJson (r : Report) (p : Path) (verbose : Bool) : Action Unit := do
  progress verbose "  Preparing JSON data..."
  countScripts verbose "scripts" r.scripts.length
  progress verbose writingLine
  writeText p ((r.jsonValue (← get).now).render (.indented 2))
  progress verbose doneLine

/-! ### Plain text -/

def findingLines (f : Finding) : List String :=
  ["    [" ++ f.severity.name ++ "] L" ++ toString f.line ++ ": " ++ f.pattern,
   "           " ++ f.message]

def fileLines (e : String × List Finding) : List String :=
  ("  " ++ (Path.ofString e.1).name ++ ":")
    :: (sortBy (fun a b => a.line ≤ b.line) e.2).flatMap findingLines

def scriptLines (s : String × FileFindings) : List String :=
  ["", "Script: " ++ s.1, rule '-' 40] ++ s.2.flatMap fileLines

def textLines (r : Report) (now : Moment) : List String :=
  let b := r.summary
  ["FiveM Lua Script Analysis Report (FLAO)", "Generated: " ++ now.text, rule '=' 60, "",
   "SUMMARY", rule '-' 40,
   "GREEN  (auto-fixable):  " ++ toString b.green,
   "YELLOW (review needed): " ++ toString b.yellow,
   "RED    (info only):     " ++ toString b.red,
   "DEBUG  (logging):       " ++ toString b.debug,
   "TOTAL: " ++ toString r.total, "", "DETAILED FINDINGS", rule '=' 60]
    ++ r.sorted.flatMap scriptLines

def saveText (r : Report) (p : Path) (verbose : Bool) : Action Unit := do
  progress verbose "  Generating text report..."
  countScripts verbose "mods" r.scripts.length
  progress verbose writingLine
  writeText p ("\n".intercalate (r.textLines (← get).now))
  progress verbose doneLine

/-! ### Page -/

def savePage (r : Report) (p : Path) (verbose : Bool) : Action Unit := do
  progress verbose "  Preparing template data..."
  progress verbose "\r  Rendering template...        "
  let page := r.page (← get).now.text
  progress verbose writingLine
  match ← tryFiles fun t => t.write p (.bytes (Text.utf8 page.toList)) with
  | none => progress verbose doneLine
  | some e =>
    say ("\n  Warning: Template rendering failed (" ++ e.message
      ++ "), make sure to install Jinja2 and have the templates available.")

def save (r : Report) (p : Path) (verbose : Bool) : Action Unit :=
  match lowered p.suffix with
  | ".json" => r.saveJson p verbose
  | ".html" => r.savePage p verbose
  | _ => r.saveText p verbose

def templatesDirectory (w : World) (programDirectory : Path) : String :=
  let beside := programDirectory.child "templates"
  if !w.tree.contains beside && w.tree.contains ⟨false, ["templates"]⟩ then
    absoluteText w ⟨false, ["templates"]⟩
  else beside.text

end LuaTune.Report
