import LuaTune.Command.Options
import LuaTune.Command.Restore

/-!
# The extractor

Copies the scripts of the older layout to a directory or into an archive.
-/

namespace LuaTune.Command

open Console Files Resources

def sizeText (x : Decimal.Binary) : String :=
  let below (k : Nat) : Bool := x.lt (.ofNat (Nat.pow 1024 k))
  let inUnit (k : Nat) : String := (x.dividedBy (Nat.pow 1024 k)).fixed 1
  if below 1 then inUnit 0 ++ " B"
  else if below 2 then inUnit 1 ++ " KB"
  else if below 3 then inUnit 2 ++ " MB"
  else if below 4 then inUnit 3 ++ " GB"
  else inUnit 4 ++ " TB"

structure ExtractorOptions where
  source : String := ""
  target : String := ""
  verbose : Bool := false
  zip : Bool := false

def extractorSpec : CommandSpec :=
  ⟨[⟨["--help", "-h"], .nothing⟩, ⟨["--verbose", "-v"], .nothing⟩, ⟨["--zip"], .nothing⟩],
   [⟨"mods_path", true⟩, ⟨"output_path", false⟩]⟩

def extractorHelp : List String :=
  ["",
   "Extract .script files from Anomaly lua mods",
   "",
   "positional arguments:",
   "  mods_path      Path to mods directory",
   "  output_path    Output directory (default: ./extracted_scripts)",
   "",
   "options:",
   "  -h, --help     show this help message and exit",
   "  -v, --verbose  Show each file being copied",
   "  --zip          Create a zip archive of extracted scripts"]

def ExtractorOptions.set (o : ExtractorOptions) (s : Setting) : ExtractorOptions :=
  match s.name with
  | "mods_path" => { o with source := s.value.getD "" }
  | "output_path" => { o with target := s.value.getD "" }
  | "--verbose" => { o with verbose := true }
  | "--zip" => { o with zip := true }
  | _ => o

def readExtractorOptions (args : List String) : Action ExtractorOptions := do
  let p := parseArguments extractorSpec args
  if p.settings.any fun s => s.name == "--help" then
    sayAll (usageLines (← get).program ["[-h]", "[-v]", "[--zip]"] ["mods_path", "[output_path]"]
      ++ extractorHelp)
    exit 0
  if p.complete then return p.settings.foldl ExtractorOptions.set {} else exit 2

structure Extracted where
  mods : List String := []
  files : Nat := 0
  size : Nat := 0
  errors : Nat := 0

def copyScript (target : Path) (s : OldScript) : Action (Option FileError) := do
  let place := target.join s.relative
  match ← tryFiles fun t => t.makeDirectories place.parent with
  | some e => return some e
  | none => tryFiles fun t => t.copy s.path place

def fileSize (t : Tree) (p : Path) : Nat :=
  match t.read p with
  | .ok c => c.toBytes.length
  | .error _ => 0

def copyScripts (verbose : Bool) (target : Path) : Extracted → List OldScript → Action Extracted
  | x, [] => return x
  | x, s :: ss => do
    match ← copyScript target s with
    | some e =>
      if verbose then say ("  [ERROR] " ++ s.relative.text ++ ": " ++ e.message)
      copyScripts verbose target { x with errors := x.errors + 1 } ss
    | none =>
      if verbose then say ("  [OK] " ++ s.relative.text)
      let x : Extracted :=
        { x with
          mods := if x.mods.contains s.mod then x.mods else x.mods ++ [s.mod]
          files := x.files + 1
          size := x.size + fileSize (← get).tree s.path }
      copyScripts verbose target x ss

def extractScripts (source target : Path) (verbose : Bool) : Action Extracted := do
  match oldScripts (← get).tree source with
  | .error e => fail (.file e)
  | .ok [] =>
    say "No .script files found!"
    return {}
  | .ok scripts =>
    changeFiles fun t => t.makeDirectories target
    copyScripts verbose target {} scripts

/-! ## The archive of a directory -/

def directoryEntries (t : Tree) (top d : Path) : List (Path × String) :=
  let named (p : Path) : Path × String := (p, ((p.relativeTo? top).getD p).text)
  let inside := t.children d
  (inside.filter t.isDirectory ++ inside.filter t.isFile).map named

def archiveDirectory (archive top : Path) : Action Unit := do
  let t := (← get).tree
  let entries := (t.directories top).flatMap (directoryEntries t top)
  changeFiles (startArchive archive)
  entries.forM fun e => changeFiles (addEntry archive e.1 e.2)

def zipScripts (target : Path) : Action Unit := do
  let name := "scripts_" ++ (← get).now.compact ++ ".zip"
  let archive := target.parent.child name
  say ""
  say ("Creating archive: " ++ name ++ " ...")
  archiveDirectory archive target
  say ("Archive created: " ++ archive.text ++ " ("
    ++ sizeText (.ofNat (archiveSize (← get).tree archive)) ++ ")")

def extractor (args : List String) : Action Unit := do
  let o ← readExtractorOptions args
  let source := Path.ofString o.source
  if !(← get).tree.contains source then
    say ("Error: Path not found: " ++ source.text)
    exit 1
  let target := if o.target.isEmpty then ⟨false, ["extracted_scripts"]⟩ else Path.ofString o.target
  sayAll ["Script Extractor", rule '=' 40, "Source: " ++ source.text, "Output: " ++ target.text, "",
    "Extracting .script files..."]
  let x ← extractScripts source target o.verbose
  sayAll ["", rule '=' 40, "Extraction complete!",
    "  Mods processed: " ++ toString x.mods.length, "  Files copied:   " ++ toString x.files,
    "  Total size:     " ++ sizeText (.ofNat x.size)]
  if 0 < x.errors then say ("  Errors:         " ++ toString x.errors)
  if o.zip && 0 < x.files then zipScripts target
  say ""
  say ("Output directory: " ++ absoluteText (← get) target)

end LuaTune.Command
