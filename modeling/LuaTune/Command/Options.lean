import LuaTune.Console
import LuaTune.Files.Script

/-! # Options -/

namespace LuaTune.Command

open Text Console

/-!
## Arguments

A long option may be shortened as long as it stays the only one with that start, and what follows
`--` is no option. Other arguments go to the positions that are still open; one that may stay empty
is closed as soon as arguments are given out.
-/

inductive Arity where
  | nothing
  | one
  | optional
deriving DecidableEq, Repr

structure OptionSpec where
  spellings : List String
  arity : Arity
deriving DecidableEq, Repr

def OptionSpec.name (o : OptionSpec) : String := o.spellings.headD ""

structure PositionSpec where
  name : String
  required : Bool
deriving DecidableEq, Repr

structure CommandSpec where
  options : List OptionSpec
  positions : List PositionSpec

structure Setting where
  name : String
  value : Option String
deriving DecidableEq, Repr

inductive Word where
  | plain
  | divider
  | option (spec : OptionSpec) (spelling : String) (value : Option String)
  | unknown
deriving DecidableEq, Repr

namespace CommandSpec

def find? (c : CommandSpec) (spelling : String) : Option OptionSpec :=
  c.options.find? fun o => o.spellings.contains spelling

def spellings (c : CommandSpec) : List (String × OptionSpec) :=
  c.options.flatMap fun o => o.spellings.map fun s => (s, o)

end CommandSpec

def splitValue? (arg : String) : Option (String × String) :=
  (findChar? '=' arg.toList).map fun n =>
    (String.ofList (arg.toList.take n), String.ofList (arg.toList.drop (n + 1)))

def candidates (c : CommandSpec) (arg : String) : List Word :=
  match arg.toList with
  | '-' :: '-' :: _ =>
    let (start, value) := match splitValue? arg with
      | some (s, v) => (s, some v)
      | none => (arg, none)
    (c.spellings.filter fun s => startsWith s.1.toList start.toList).map fun s =>
      .option s.2 s.1 value
  | '-' :: x :: rest =>
    c.spellings.filterMap fun s =>
      if s.1 == String.ofList ['-', x] then some (.option s.2 s.1 (some (String.ofList rest)))
      else if startsWith s.1.toList arg.toList then some (.option s.2 s.1 none)
      else none
  | _ => []

def isNumeral (cs : Chars) : Bool :=
  let digits := cs.takeWhile Char.isDigit
  match cs.dropWhile Char.isDigit with
  | [] => !digits.isEmpty
  | '.' :: rest => !rest.isEmpty && rest.all Char.isDigit
  | _ => false

def classify? (c : CommandSpec) (arg : String) : Option Word :=
  match arg.toList with
  | '-' :: rest =>
    if arg == "--" then some .divider
    else
      match c.find? arg with
      | some o => some (.option o arg none)
      | none =>
        if rest.isEmpty then some .plain
        else
          match (splitValue? arg).bind fun (s, v) => (c.find? s).map fun o => (s, o, v) with
          | some (s, o, v) => some (.option o s (some v))
          | none =>
            match candidates c arg with
            | [w] => some w
            | _ :: _ => none
            | [] =>
              if isNumeral rest || rest.contains ' ' then some .plain else some .unknown
  | _ => some .plain

def classifyAll? (c : CommandSpec) : List String → Option (List (String × Word))
  | [] => some []
  | arg :: args =>
    match classify? c arg with
    | none => none
    | some .divider => some ((arg, .divider) :: args.map fun a => (a, .plain))
    | some w => (classifyAll? c args).map ((arg, w) :: ·)

structure Reading where
  settings : List Setting := []
  open_ : List PositionSpec
  extras : List String := []

structure Parsed where
  settings : List Setting
  complete : Bool

/-- How many of the next arguments a position takes: dividers, at most one argument, dividers.
Nothing if the argument is required and not there. -/
def positionLength? (required : Bool) (ws : List Word) : Option Nat :=
  let before := (ws.takeWhile (· == .divider)).length
  match ws.drop before with
  | .plain :: rest => some (before + 1 + (rest.takeWhile (· == .divider)).length)
  | _ => if required then none else some before

def fillPositions : List PositionSpec → List Word → List Nat
  | [], _ => []
  | p :: ps, ws =>
    match positionLength? p.required ws with
    | some n => n :: fillPositions ps (ws.drop n)
    | none => []

def takePositions (r : Reading) (args : List (String × Word)) :
    Reading × List (String × Word) :=
  let lengths := fillPositions r.open_ (args.map (·.2))
  let step (acc : List Setting × List (String × Word)) (e : PositionSpec × Nat) :
      List Setting × List (String × Word) :=
    let taken := (acc.2.take e.2).filter fun a => a.2 == .plain
    (acc.1 ++ taken.map (fun a => ⟨e.1.name, some a.1⟩), acc.2.drop e.2)
  let (settings, rest) := (r.open_.zip lengths).foldl step (r.settings, args)
  ({ r with settings := settings, open_ := r.open_.drop lengths.length }, rest)

/-- An option whose value is part of the argument: the settings, and an option that was named last
and takes its value elsewhere. Options that take nothing may follow each other after one dash. -/
def attached (c : CommandSpec) (o : OptionSpec) (spelling : String) :
    Chars → Option (List Setting × Option Word)
  | [] =>
    match o.arity with
    | .nothing => none
    | _ => some ([⟨o.name, some ""⟩], none)
  | x :: rest =>
    match o.arity, spelling.toList with
    | .nothing, ['-', _] =>
      let next := String.ofList ['-', x]
      match c.find? next with
      | none => none
      | some o' =>
        let first : Setting := ⟨o.name, none⟩
        if rest.isEmpty then some ([first], some (.option o' next none))
        else (attached c o' next rest).map fun r => (first :: r.1, r.2)
    | .nothing, _ => none
    | _, _ => some ([⟨o.name, some (String.ofList (x :: rest))⟩], none)

def hasOption (args : List (String × Word)) : Bool :=
  args.any fun a => match a.2 with
    | .option .. | .unknown => true
    | _ => false

def isOption : Word → Bool
  | .option .. | .unknown => true
  | _ => false

def readFrom (c : CommandSpec) : Nat → Reading → List (String × Word) → Parsed
  | 0, r, _ => ⟨r.settings, false⟩
  | fuel + 1, r, args =>
    if !hasOption args then
      let (r, rest) := takePositions r args
      let extras := r.extras ++ rest.map (·.1)
      ⟨r.settings, extras.isEmpty && !(r.open_.any (·.required))⟩
    else
      match args with
      | [] => ⟨r.settings, true⟩
      | (arg, w) :: rest =>
        match w with
        | .unknown => readFrom c fuel { r with extras := r.extras ++ [arg] } rest
        | .option o spelling (some value) =>
          match attached c o spelling value.toList with
          | some (ss, next) =>
            readFrom c fuel { r with settings := r.settings ++ ss }
              ((next.map fun w => (arg, w)).toList ++ rest)
          | none => ⟨r.settings, false⟩
        | .option o _ none =>
          let set (v : Option String) : Reading := { r with settings := r.settings ++ [⟨o.name, v⟩] }
          match o.arity, rest with
          | .nothing, _ => readFrom c fuel (set none) rest
          | .one, (v, .plain) :: rest => readFrom c fuel (set (some v)) rest
          | .one, _ => ⟨r.settings, false⟩
          | .optional, (v, .plain) :: rest => readFrom c fuel (set (some v)) rest
          | .optional, _ => readFrom c fuel (set none) rest
        | _ =>
          let (r', rest') := takePositions r args
          if rest'.length < args.length then readFrom c fuel r' rest'
          else
            -- nobody takes the arguments before the next option
            let skipped := args.takeWhile fun a => !isOption a.2
            readFrom c fuel { r' with extras := r'.extras ++ skipped.map (·.1) }
              (args.dropWhile fun a => !isOption a.2)

def parseArguments (c : CommandSpec) (args : List String) : Parsed :=
  match classifyAll? c args with
  | none => ⟨[], false⟩
  | some words => readFrom c (2 * words.length + 2) { open_ := c.positions } words

/-! ## Help -/

def fillLines (width indent used : Nat) (line : List String) : List String → List (List String)
  | [] => if line.isEmpty then [] else [line]
  | w :: ws =>
    if width < used + 1 + w.length ∧ line ≠ [] then
      line :: fillLines width indent (indent + 1 + w.length) [w] ws
    else fillLines width indent (used + 1 + w.length) (line ++ [w]) ws

def usageLines (program : String) (options positions : List String) : List String :=
  let start := "usage: "
  let indent := start.length + program.length + 1
  let lines := fillLines 78 (indent - 1) (start.length - 1) [] (program :: options)
  let first := (lines.take 1).map fun l => start ++ " ".intercalate l
  let others := (lines.drop 1 ++ fillLines 78 (indent - 1) (indent - 1) [] positions).map fun l =>
    rule ' ' indent ++ " ".intercalate l
  let single := start ++ " ".intercalate (program :: options ++ positions)
  if single.length ≤ 78 then [single] else first ++ others

/-! ## Options of the linter -/

/-- What the linter is asked to do. An empty text stands for an option that was not given. -/
structure Options where
  path : String := ""
  fix : Bool := false
  fixYellow : Bool := false
  fixDebug : Bool := false
  fixNil : Bool := false
  removeDeadCode : Bool := false
  experimental : Bool := false
  cacheThreshold : Int := 4
  backup : Bool := true
  noFirstBackup : Bool := false
  singleThread : Bool := false
  backupAll : String := ""
  report : String := ""
  verbose : Bool := false
  quiet : Bool := false
  workers : Int := 0
  revert : Bool := false
  listBackups : Bool := false
  cleanBackups : Bool := false
  extractDebug : String := ""
  split : Int := 0
  direct : Bool := false
  exclude : String := ""
deriving DecidableEq, Repr

def flags : List OptionSpec :=
  [["--help", "-h"], ["--fix"], ["--fix-yellow"], ["--fix-debug"], ["--fix-nil"],
   ["--remove-dead-code", "--debloat"], ["--experimental"], ["--backup"], ["--no-backup"],
   ["--no-first-time-auto-backup"], ["--single-thread"], ["--verbose", "-v"], ["--quiet", "-q"],
   ["--revert"], ["--list-backups"], ["--clean-backups"], ["--direct"]].map fun s => ⟨s, .nothing⟩

def valueOptions : List OptionSpec :=
  [["--cache-threshold"], ["--report"], ["--timeout"], ["--workers", "-j"], ["--split"],
   ["--exclude"]].map fun s => ⟨s, .one⟩

def optionalValueOptions : List OptionSpec :=
  [["--backup-all-scripts"], ["--extract-debug"]].map fun s => ⟨s, .optional⟩

def linterSpec : CommandSpec :=
  ⟨flags ++ valueOptions ++ optionalValueOptions, [⟨"path", false⟩]⟩

namespace Options

def set? (o : Options) (s : Setting) : Option Options :=
  let value := s.value.getD ""
  match s.name with
  | "path" => some { o with path := value }
  | "--fix" => some { o with fix := true }
  | "--fix-yellow" => some { o with fixYellow := true }
  | "--fix-debug" => some { o with fixDebug := true }
  | "--fix-nil" => some { o with fixNil := true }
  | "--remove-dead-code" => some { o with removeDeadCode := true }
  | "--experimental" => some { o with experimental := true }
  | "--cache-threshold" => (wholeNumber? value.toList).map fun n => { o with cacheThreshold := n }
  | "--backup" => some { o with backup := true }
  | "--no-backup" => some { o with backup := false }
  | "--no-first-time-auto-backup" => some { o with noFirstBackup := true }
  | "--single-thread" => some { o with singleThread := true }
  | "--backup-all-scripts" => some { o with backupAll := s.value.getD "auto" }
  | "--report" => some { o with report := value }
  | "--verbose" => some { o with verbose := true }
  | "--quiet" => some { o with quiet := true }
  | "--timeout" => if isRealNumber value.toList then some o else none
  | "--workers" => (wholeNumber? value.toList).map fun n => { o with workers := n }
  | "--revert" => some { o with revert := true }
  | "--list-backups" => some { o with listBackups := true }
  | "--clean-backups" => some { o with cleanBackups := true }
  | "--extract-debug" => some { o with extractDebug := s.value.getD "flao_debug_extract.zip" }
  | "--split" => (wholeNumber? value.toList).map fun n => { o with split := n }
  | "--direct" => some { o with direct := true }
  | "--exclude" => some { o with exclude := value }
  | _ => some o

def fixes (o : Options) : Bool :=
  o.fix || o.fixDebug || o.fixYellow || o.experimental || o.fixNil || o.removeDeadCode

def settings (o : Options) : Settings := ⟨o.cacheThreshold, o.experimental⟩

def fixOptions (o : Options) : Files.FixOptions :=
  { backup := o.backup, fixDebug := o.fixDebug, fixYellow := o.fixYellow,
    experimental := o.experimental, fixNil := o.fixNil, removeDeadCode := o.removeDeadCode }

end Options

/-! ### Help -/

def linterUsage : List String :=
  ["[-h]", "[--fix]", "[--fix-yellow]", "[--fix-debug]", "[--fix-nil]", "[--remove-dead-code]",
   "[--experimental]", "[--cache-threshold N]", "[--backup]", "[--no-backup]",
   "[--no-first-time-auto-backup]", "[--single-thread]", "[--backup-all-scripts [PATH]]",
   "[--report REPORT]", "[--verbose]", "[--quiet]", "[--timeout TIMEOUT]", "[--workers WORKERS]",
   "[--revert]", "[--list-backups]", "[--clean-backups]", "[--extract-debug [PATH]]",
   "[--split N]", "[--direct]", "[--exclude EXCLUDE]"]

def linterHelp : List String :=
  ["",
   "FiveM Lua Auto Optimizer (FLAO)",
   "",
   "positional arguments:",
   "  path                  Path to FiveM resources directory",
   "",
   "options:",
   "  -h, --help            show this help message and exit",
   "  --fix                 Fix safe (GREEN) issues automatically",
   "  --fix-yellow          Fix unsafe (YELLOW) issues automatically",
   "  --fix-debug           Fix (DEBUG) entries automatically (comment out all:",
   "                        log, printf, print, etc.)",
   "  --fix-nil             Fix safe nil access issues (wrap with if-then guard)",
   "  --remove-dead-code, --debloat",
   "                        Remove 100% safe dead code (unreachable code after",
   "                        return, if false blocks, etc.)",
   "  --experimental        Enable experimental features: string concat in loops +",
   "                        branch-aware call counting",
   "  --cache-threshold N   Minimum function call count to trigger caching",
   "                        (default: 4, hot loops use N-1)",
   "  --backup              Create .flao-bak files before modifying (default:",
   "                        True)",
   "  --no-backup           Don't create backup files",
   "  --no-first-time-auto-backup",
   "                        Skip automatic zip backup on first fix run (not",
   "                        recommended)",
   "  --single-thread       Disable multiprocessing (for debugging)",
   "  --backup-all-scripts [PATH]",
   "                        Backup all scripts to a zip archive before any",
   "                        modifications",
   "  --report REPORT       Generate a comprehensive report (supports .txt, .html,",
   "                        .json)",
   "  --verbose, -v         Show detailed output",
   "  --quiet, -q           Only show summary",
   "  --timeout TIMEOUT     Timeout per file in seconds (default: 10)",
   "  --workers WORKERS, -j WORKERS",
   "                        Number of parallel workers for fixes (default: CPU",
   "                        count)",
   "  --revert              Restore all .flao-bak backup files (undo FLAO fixes)",
   "  --list-backups        List all .flao-bak backup files without restoring",
   "  --clean-backups       Remove all .flao-bak backup files",
   "  --extract-debug [PATH]",
   "                        Extract all modified files (.lua + .flao-bak) to a zip",
   "                        for debugging",
   "  --split N             Split --extract-debug into multiple zips with N",
   "                        resources each (0 = no split)",
   "  --direct              Process path directly (single .lua file or folder with",
   "                        scripts, no resource structure)",
   "  --exclude EXCLUDE     Path to file containing resource names to exclude (one",
   "                        per line)"]

/-! ### Reading -/

def readSettings (o : Options) : List Setting → Action Options
  | [] => return o
  | s :: ss => do
    if s.name == "--help" then
      sayAll (usageLines (← get).program linterUsage ["[path]"] ++ linterHelp)
      exit 0
    match o.set? s with
    | some o => readSettings o ss
    | none => exit 2

def readOptions (args : List String) : Action Options := do
  let p := parseArguments linterSpec args
  let o ← readSettings {} p.settings
  if p.complete then return o else exit 2

end LuaTune.Command
