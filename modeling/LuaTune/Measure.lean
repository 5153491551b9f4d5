import LuaTune.Files.Archive
import LuaTune.Json.Reader

/-! # Rounds of measuring -/

namespace LuaTune.Measure

open Json Text Decimal Files

/-! ## Child processes -/

inductive Child where
  | ended (code : Int) (out err : String)
  | notStarted (cause : String)
deriving Repr

inductive ChildFault where
  | notStarted (cause : String)
  | unreadable (cause : String)
  | longNumber (digits : Nat)
  | noObject (kind : String)
deriving DecidableEq, Repr

def ChildFault.message : ChildFault → String
  | .notStarted cause => "OSError: " ++ cause
  | .unreadable cause => "JSONDecodeError: " ++ cause
  | .longNumber digits => "ValueError: " ++ Decimal.tooLongToRead digits
  | .noObject kind => "AttributeError: '" ++ kind ++ "' object has no attribute 'get'"

def kindName : Value → String
  | .null => "NoneType"
  | .bool _ => "bool"
  | .int _ => "int"
  | .float _ | .notANumber => "float"
  | .str _ => "str"
  | .arr _ => "list"
  | .obj _ => "dict"

def lastLine? (s : String) : Option Chars := (lines (strip s.toList)).getLast?

def lastObject (s : String) : Except ChildFault (Option Members) :=
  match lastLine? s with
  | none => .ok none
  | some line =>
    match parse (String.ofList line) with
    | .error (.longNumber digits _) => .error (.longNumber digits)
    | .error e => .error (.unreadable (e.message line))
    | .ok (.obj ms) => .ok (some ms)
    | .ok v => .error (.noObject (kindName v))

def Child.errors : Child → String
  | .ended _ _ err => err
  | .notStarted _ => ""

def Child.object : Child → Except ChildFault (Option Members)
  | .ended _ out _ => lastObject out
  | .notStarted cause => .error (.notStarted cause)

def number (v : Value) : Decimal.Binary := v.real?.getD .zero

def membersOf (ms : Members) (k : String) : Members := ((ms.get? k).map Value.members).getD []

/-! ## Coverage -/

structure FileCoverage where
  name : String
  statements : Int
  missing : Int
  percent : Binary
  missingLines : List Int

structure Coverage where
  files : List FileCoverage
  statements : Int
  covered : Int
  percent : Value
  failures : List (String × String)

namespace Coverage

def base : String := "repo"

def resolve (done : List String) : List String → List String
  | [] => done.reverse
  | ".." :: ps => resolve (done.drop 1) ps
  | p :: ps => resolve (p :: done) ps

def relativeName (s : String) : String :=
  let p := Path.ofString s
  let parts := resolve [] (if p.rooted then p.parts else base :: p.parts)
  match parts with
  | [] => ".."
  | first :: rest =>
    let shown := if first = base then rest else ".." :: parts
    if shown.isEmpty then "." else "/".intercalate shown

def integer (ms : Members) (k : String) : Int := ((ms.get? k).bind Value.int?).getD 0

def fileOf (entry : String × Value) : FileCoverage :=
  let ms := entry.2.members
  let summary := membersOf ms "summary"
  { name := relativeName entry.1
    statements := integer summary "num_statements"
    missing := integer summary "missing_lines"
    percent := number ((summary.get? "percent_covered").getD .null)
    missingLines := ((ms.get? "missing_lines").map Value.items |>.getD []).filterMap Value.int? }

def failureText : Value → String
  | .str s => s
  | v => v.render .line

def ofJson (ms : Members) : Coverage :=
  let totals := membersOf ms "totals"
  { files := (membersOf ms "files").map fileOf
    statements := integer totals "num_statements"
    covered := integer totals "covered_lines"
    percent := (totals.get? "percent_covered").getD (.float .zero)
    failures := (membersOf (membersOf ms "meta") "_pti_bench_errors").map
      fun e => (e.1, failureText e.2) }

def share (c : Coverage) : Binary := number c.percent

def sorted (c : Coverage) : List FileCoverage :=
  c.files.mergeSort fun a b =>
    match a.percent.compare b.percent with
    | .lt => true
    | .gt => false
    | .eq => b.statements ≤ a.statements

/-! ### The table -/

def nameWidth : Nat := 60

def shownFiles : Nat := 120

def shownLines : Nat := 12

def cut (name : String) : String := String.ofList (name.toList.take nameWidth)

def row (width : Nat) (name : String) (statements missing : String) (percent : String) : String :=
  padRight width name ++ "  " ++ padLeft 5 statements ++ "  " ++ padLeft 4 missing ++ "  "
    ++ padLeft 5 percent

def percentText (x : Binary) : String := x.fixed 0 ++ "%"

def linesText (ns : List Int) : String :=
  ",".intercalate ((ns.take shownLines).map toString) ++ if shownLines < ns.length then "…" else ""

def fileRow (width : Nat) (f : FileCoverage) : String :=
  row width (cut f.name) (toString f.statements) (toString f.missing) (percentText f.percent)
    ++ "  " ++ linesText f.missingLines

def nameColumn (c : Coverage) : Nat := (c.files.map fun f => (cut f.name).length).max?.getD 4

def table (c : Coverage) : List String :=
  let width := c.nameColumn
  let rule := String.ofList (List.replicate (width + 42) '-')
  [row width "Name" "Stmts" "Miss" "Cover" ++ "  Missing", rule]
    ++ (c.sorted.take shownFiles).map (fileRow width)
    ++ [rule, row width "TOTAL" (toString c.statements) (toString (c.statements - c.covered))
      (percentText c.share)]

def failureLines (c : Coverage) : List String :=
  if c.failures.isEmpty then []
  else ["", toString c.failures.length ++ " bench error(s):"]
    ++ c.failures.map fun e => "  " ++ e.1 ++ ": " ++ e.2

end Coverage

/-!
## Past rounds

One JSON object a line. The first line that cannot be used ends the reading, and what was known
before it stays known.
-/

structure Progress where
  best : Value
  since : Nat

def Progress.add? : Option Progress → Value → Option Progress
  | none, n => some ⟨n, 0⟩
  | some p, n =>
    (n.less? p.best).map fun less => if less then ⟨n, 0⟩ else ⟨p.best, p.since + 1⟩

structure History where
  next : Nat
  last : Option Value := none
  progress : Option Progress := none
  complete : Bool := true

namespace History

def enoughCoverage : Nat := 60

def add? (h : History) (ms : Members) : Option History := do
  let round := Value.obj ms
  let little ← ((round.get? "coverage_pct").getD (.int 0)).less? (.int enoughCoverage)
  let h := { h with last := round.member? "ts" }
  match little, round.member? "n_below_repo_time" with
  | false, some n => return { h with progress := some (← Progress.add? h.progress n) }
  | _, _ => return h

def readRound (line : Chars) : Option Members :=
  match parse (String.ofList line) with
  | .ok (.obj ms) => some ms
  | _ => none

def addLines (h : History) : List Chars → History
  | [] => h
  | l :: ls =>
    match (readRound l).bind h.add? with
    | some h => h.addLines ls
    | none => { h with complete := false }

def ofText (s : String) : History :=
  let ls := (newlineLines (unifyNewlines s.toList)).filter fun l => !(strip l).isEmpty
  addLines { next := ls.length + 1 } ls

def elapsed? (h : History) (now : Value) : Option Value :=
  if h.complete then
    match h.last with
    | none => some (.float .zero)
    | some ts => (now.minus? ts).map (·.toPlaces 2)
  else none

def patience : Nat := 3

def countText : Value → String
  | .bool b => if b then "True" else "False"
  | v => v.render .line

def reason? (h : History) (count : Nat) : Option String :=
  if count = 0 then some "0 below"
  else
    match Progress.add? h.progress (.int count) with
    | some p =>
      if patience ≤ p.since then
        some ("no improvement in " ++ toString p.since ++ " rounds; best " ++ countText p.best
          ++ " below")
      else none
    | none => none

end History

/-!
## The share of own time

A negative share stands for a benchmark that failed.
-/

structure RepoTime where
  shares : List (String × Binary)
  elsewhere : List (String × List (Binary × String))

namespace RepoTime

def none : RepoTime := ⟨[], []⟩

def bound : Binary := .ofNat 45

def shownPlaces : Nat := 3

def placeOf : Value → Option (Binary × String)
  | .arr (x :: .str name :: _) => some (number x, name)
  | _ => Option.none

def ofJson (ms : Members) : RepoTime :=
  { shares := (membersOf ms "repo_time_pct").map fun e => (e.1, number e.2)
    elsewhere := (membersOf ms "hot_ext").map fun e => (e.1, e.2.items.filterMap placeOf) }

def failed (share : Binary) : Bool := share.lt .zero

def tooSmall (share : Binary) : Bool := !failed share && share.lt bound

def measured (r : RepoTime) : List (String × Binary) := r.shares.filter fun s => !failed s.2

def below (r : RepoTime) : List (String × Binary) := r.shares.filter fun s => tooSmall s.2

def belowCount? (r : RepoTime) : Option Nat :=
  if r.measured.isEmpty then Option.none else some r.below.length

/-! ### The list -/

def placesText (ps : List (Binary × String)) : String :=
  if ps.isEmpty then ""
  else " (hot: " ++ " ".intercalate ((ps.take shownPlaces).map fun p =>
    p.2 ++ " " ++ p.1.fixed 0 ++ "%") ++ ")"

def line (r : RepoTime) (s : String × Binary) : String :=
  let places := ((r.elsewhere.find? fun e => e.1 == s.1).map (·.2)).getD []
  "  " ++ (if tooSmall s.2 then "*" else " ") ++ " " ++ padRight 32 s.1 ++ " "
    ++ padLeft 5 ((if failed s.2 then Binary.zero else s.2).fixed 1) ++ "%"
    ++ (if failed s.2 then "  <error>" else if tooSmall s.2 then placesText places else "")

def lines (r : RepoTime) : List String :=
  if r.shares.isEmpty then []
  else ["", "repo_time (target 50%; * = below 45%):"]
    ++ (r.shares.mergeSort fun a b => !(b.2.lt a.2)).map r.line

end RepoTime

/-!
## Self-checks

The value that a benchmark returns must be there, be the same each time, depend on the parameters
and come from the code that is measured.
-/

inductive Verdict where
  | ok
  | okUnparam
  | error
  | returnsNone
  | unstable
  | returnsInput
  | lowRepoTime
  | tooFast
  | paramInvariant
  | repoModified
deriving DecidableEq, Repr

namespace Verdict

def name : Verdict → String
  | .ok => "ok"
  | .okUnparam => "ok-unparam"
  | .error => "error"
  | .returnsNone => "returns-none"
  | .unstable => "unstable"
  | .returnsInput => "returns-input"
  | .lowRepoTime => "low-repo-time"
  | .tooFast => "too-fast"
  | .paramInvariant => "param-invariant"
  | .repoModified => "repo-modified"

def good (v : Verdict) : Bool := v == .ok || v == .okUnparam

end Verdict

structure Observation where
  returned : Option String
  repeated : List String
  parameters : List String
  byParameter : List String
  shares : List Binary
  times : List Binary

namespace Observation

def texts (vs : List Value) : List String := vs.filterMap Value.str?

def ofJson (ms : Members) : Observation :=
  { returned := (ms.get? "ret_type").bind Value.str?
    repeated := texts (((ms.get? "fp_stable").map Value.items).getD [])
    parameters := texts (((ms.get? "param_fps").map Value.items).getD [])
    byParameter := texts ((membersOf ms "fp_by_param").map (·.2))
    shares := (membersOf ms "repo_frac").map fun e => number e.2
    times := (membersOf ms "repo_tt_ms").map fun e => number e.2 }

def share (o : Observation) : Binary := .least o.shares

def time (o : Observation) : Binary := .median o.times

def verdict (o : Observation) : Verdict :=
  match o.returned with
  | none => .error
  | some kind =>
    if startsWith kind.toList ['<'] then .error
    else if kind = "NoneType" then .returnsNone
    else if (distinct o.repeated).length ≠ 1 then .unstable
    else if o.repeated.any o.parameters.contains then .returnsInput
    else if o.share.lt (.ofQuotient 1 2) then .lowRepoTime
    else if o.time.lt (.ofNat 1) then .tooFast
    else if o.byParameter.length < 2 then .okUnparam
    else if (distinct o.byParameter).length = 1 then .paramInvariant
    else .ok

end Observation

structure SelfCheck where
  observations : List (String × Observation)
  changed : List String

namespace SelfCheck

def none : SelfCheck := ⟨[], []⟩

def mayChange (name : String) : Bool :=
  ["microbench.py", "_pti_", ".pti_"].any fun p => startsWith name.toList p.toList

def changedFiles (status : String) : List String :=
  (((Text.lines status.toList).filter fun l => !(strip l).isEmpty).map fun l =>
    String.ofList (l.drop 3)).filter fun f => !mayChange f

def ofJson (ms : Members) (changed : List String) : SelfCheck :=
  ⟨(membersOf ms "semcheck").map fun e => (e.1, .ofJson e.2.members), changed⟩

def verdictOf (s : SelfCheck) (o : Observation) : Verdict :=
  if s.changed.isEmpty then o.verdict else .repoModified

def verdicts (s : SelfCheck) : List (String × Verdict) :=
  s.observations.map fun o => (o.1, s.verdictOf o.2)

def badCount (s : SelfCheck) : Nat := s.verdicts.countP fun v => !v.2.good

/-! ### The list -/

def shownFiles : Nat := 10

def changedLines (s : SelfCheck) : List String :=
  if s.changed.isEmpty then []
  else ["", "** repo modified (" ++ toString s.changed.length
      ++ " file(s)) — revert these; only microbench.py is yours to edit:"]
    ++ (s.changed.take shownFiles).map fun f => "   " ++ f

def advice : List String :=
  ["  returns-none: run() has no return — collect and return the call results",
   "  unstable: seed RNG in setup; avoid time/uuid/id in the return",
   "  returns-input: return repo output, not the parameter value",
   "  low-repo-time: <50% of run() time is in repo code — move glue to setup",
   "  param-invariant: return something derived from run()'s work, not setup",
   "  repo-modified: revert edits to repo files (git checkout -- <path>)"]

def line (s : SelfCheck) (o : String × Observation) : String :=
  let v := s.verdictOf o.2
  "  " ++ (if v.good then " " else "*") ++ " " ++ padRight 32 o.1 ++ " " ++ padRight 16 v.name
    ++ " (" ++ o.2.returned.getD "?" ++ ", repo " ++ (o.2.share.timesNat 100).fixed 0 ++ "%) "
    ++ o.2.time.fixed 1 ++ "ms"

def lines (s : SelfCheck) : List String :=
  if s.observations.isEmpty then []
  else
    let isBad (o : String × Observation) : Bool := !(s.verdictOf o.2).good
    ["", "self-check (* = fix needed):"] ++ advice
      ++ (s.observations.filter isBad ++ s.observations.filter fun o => !isBad o).map s.line

end SelfCheck

/-! ## A round of measurements -/

structure Setting where
  coverage : Option Members
  history : Option String
  benchmarks : Option String
  runner : Child
  repoTime : Option Child
  selfCheck : Option Child
  status : Child
  seconds : Binary
  now : Value

structure Outcome where
  exit : Option Int
  out : String
  err : String
  history : Option String

def isBenchmark (cs : Chars) : Bool :=
  match stripPrefix? "def bench_".toList cs with
  | some (c :: cs) => isWordChar c && ((cs.dropWhile isWordChar).dropWhile isBlank).head? == some '('
  | _ => false

def benchmarksFrom (lineStart : Bool) : Chars → Nat
  | [] => 0
  | c :: cs => (if lineStart && isBenchmark (c :: cs) then 1 else 0) + benchmarksFrom (c == '\n') cs

def benchmarkCount (text : String) : Nat := benchmarksFrom true (unifyNewlines text.toList)

def heard {α : Type} (label : String) (c : Option Child) (absent : α) (use : Members → α) :
    α × String :=
  match c with
  | none => (absent, "")
  | some c =>
    match c.object with
    | .ok (some ms) => (use ms, c.errors)
    | .ok none => (absent, c.errors)
    | .error f => (absent, c.errors ++ "[" ++ label ++ " runner: " ++ f.message ++ "]\n")

def changedFiles : Child → List String
  | .ended _ out _ => SelfCheck.changedFiles out
  | .notStarted _ => []

structure Found where
  coverage : Coverage
  benchmarks : Nat
  repoTime : RepoTime
  selfCheck : SelfCheck

namespace Found

def closing (f : Found) (round : Nat) (seconds : Binary) : String :=
  let below := if f.repoTime.shares.isEmpty then ""
    else ", " ++ toString f.repoTime.below.length ++ "/" ++ toString f.repoTime.measured.length
      ++ " below repo_time 45%"
  let bad := if f.selfCheck.observations.isEmpty then ""
    else ", " ++ toString f.selfCheck.badCount ++ "/" ++ toString f.selfCheck.observations.length
      ++ " not self-checking"
  "[round " ++ toString round ++ ": " ++ toString f.benchmarks ++ " benches, "
    ++ f.coverage.share.fixed 1 ++ "% covered" ++ below ++ bad ++ ", measured in "
    ++ seconds.fixed 1 ++ "s]"

def stop? (f : Found) (h : History) : Option String :=
  if f.coverage.share.lt (.ofNat History.enoughCoverage) then none
  else f.repoTime.belowCount?.bind h.reason?

def stopLines (f : Found) (h : History) : List String :=
  match f.stop? h with
  | none => []
  | some why => ["", ">>> STOP: repo_time converged (" ++ why ++ "). Finalize microbench.py now. <<<"]

def record (f : Found) (round : Nat) (elapsed : Value) (s : Setting) : Value :=
  .obj [("round", .int round), ("ts", s.now), ("wall_since_prev_s", elapsed),
    ("coverage_pct", f.coverage.percent), ("covered_lines", .int f.coverage.covered),
    ("num_statements", .int f.coverage.statements), ("n_bench_fns", .int f.benchmarks),
    ("n_bench_errors", .int f.coverage.failures.length),
    ("cov_measure_s", .float (s.seconds.round 3)),
    ("repo_time_pct", .obj (f.repoTime.shares.map fun e => (e.1, .float e.2))),
    ("n_below_repo_time", match f.repoTime.belowCount? with
      | some n => .int n
      | none => .null),
    ("semcheck", .obj (f.selfCheck.verdicts.map fun v => (v.1, .str v.2.name))),
    ("n_not_self_checking", .int f.selfCheck.badCount)]

end Found

def asText (ls : List String) : String := String.join (ls.map (· ++ "\n"))

def noCoverage (code : Int) (out err : String) : Outcome :=
  { exit := some (if code = 0 then 1 else code)
    out := asText ["coverage measurement failed (exit " ++ toString code ++ ")", out]
    err := err
    history := none }

def roundWith (s : Setting) (coverage : Members) (err : String) : Outcome :=
  let (repoTime, said) := heard "repotime" s.repoTime .none RepoTime.ofJson
  let (selfCheck, said') := heard "semcheck" s.selfCheck .none
    fun ms => SelfCheck.ofJson ms (changedFiles s.status)
  let f : Found := ⟨.ofJson coverage, (s.benchmarks.map benchmarkCount).getD 0, repoTime, selfCheck⟩
  let h := History.ofText (s.history.getD "")
  let line (elapsed : Value) : String := (f.record h.next elapsed s).render .line
  { exit := none
    out := asText (f.coverage.table ++ f.coverage.failureLines ++ f.repoTime.lines
      ++ f.selfCheck.changedLines ++ f.selfCheck.lines
      ++ ["", f.closing h.next s.seconds] ++ f.stopLines h)
    err := err ++ said ++ said'
    history := (h.elapsed? s.now).map fun e => s.history.getD "" ++ line e ++ "\n" }

def round (s : Setting) : Except String Outcome :=
  match s.runner with
  | .notStarted cause => .error cause
  | .ended code out err =>
    match s.coverage with
    | some ms => .ok (if code = 0 then roundWith s ms err else noCoverage code out err)
    | none => .ok (noCoverage code out err)

end LuaTune.Measure
