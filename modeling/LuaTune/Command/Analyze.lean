import LuaTune.Command.Restore
import LuaTune.Command.Options
import LuaTune.Report.Basic

/-! # Analyzing all scripts -/

namespace LuaTune.Command

open Console Files Text

/-!
## Pools of workers

A pool runs its tasks in order. A planned breakdown strikes one task of one pool.
-/

inductive Outcome (α : Type) where
  | done (value : α)
  | failed
  /-- The worker is gone, and the pool with it. -/
  | crashed
deriving Repr

def breakdownAt (w : World) (pool task : Nat) : Option Breakdown :=
  if w.noPools then some .crash
  else w.breakdown.bind fun b => if b.pool = pool ∧ b.task = task then some b.kind else none

/-- Run tasks, the first of which has the number `n`; nothing is known of them if one is refused. -/
def runFrom {α β : Type} (pool : Nat) (run : α → Action β) :
    Nat → List α → Action (Option (List (Outcome β)))
  | _, [] => return some []
  | n, x :: xs => do
    match breakdownAt (← get) pool n with
    | some .refusal => return none
    | some .crash => return (← runFrom pool run (n + 1) xs).map (.crashed :: ·)
    | some .failure => return (← runFrom pool run (n + 1) xs).map (.failed :: ·)
    | none =>
      let y ← run x
      return (← runFrom pool run (n + 1) xs).map (.done y :: ·)

def runPool {α β : Type} (pool : Nat) (run : α → Action β) (tasks : List α) :
    Action (Option (List (Outcome β))) := runFrom pool run 0 tasks

/-! ## Single scripts -/

/-- What a worker hands back for a script: its findings, or none and the text of the fault. -/
def handedBack : Except Analysis.Fault (List Finding) → List Finding × Option String
  | .ok fs => (fs, none)
  | .error f => ([], some f.message)

/-- What a worker hands back for a script that it fixed: whether the script changed, the number of
edits, and the text of what went wrong. -/
def fixHandedBack : Except FixFault Fix.Fixed → Bool × Nat × Option String
  | .ok r => (r.modified, r.count, none)
  | .error f => (false, 0, some f.message)

inductive TimedFault where
  | timedOut (script : String)
  | fault (cause : Analysis.Fault)
deriving DecidableEq, Repr

def TimedFault.message : TimedFault → String
  | .timedOut script => "Analysis timed out for " ++ script
  | .fault f => f.message

/-- The analysis of a script under the usual settings. It takes `time` and is given up at `limit`. -/
def analyzeWithin (limit time : Decimal.Binary) (t : Tree) (p : Path) :
    Except TimedFault (List Finding) :=
  if time.lt limit then (analyzeFile {} t p).mapError .fault else .error (.timedOut p.name)

/-!
## Analyzing all scripts

If the pool of workers breaks down, all scripts are analyzed again one by one, and what was found
before stays in the report.
-/

structure Tally where
  report : Report := {}
  analyzed : Nat := 0
  withIssues : Nat := 0
  skipped : Nat := 0
  parseErrors : Nat := 0
  /-- Scripts that were looked at, more than once perhaps. -/
  completed : Nat := 0

def progressText (completed total : Nat) : String :=
  "\r[" ++ Console.right 5 ((Decimal.percentage completed total).fixed 1) ++ "%] "

def workerCount (o : Options) (w : World) : Int :=
  if o.workers = 0 then min (if w.processors = 0 then 4 else w.processors) 8 else o.workers

def reported (f : Finding) : Finding := { f with details := f.details.unreferenced }

namespace Tally

def add (t : Tally) (s : ScriptItem) (fs : List Finding) : Tally :=
  { t with
    analyzed := t.analyzed + 1
    withIssues := if fs.isEmpty then t.withIssues else t.withIssues + 1
    report := fs.foldl (fun r f => r.add s.1 s.2.text (reported f)) t.report }

def skip (t : Tally) : Tally := { t with skipped := t.skipped + 1 }

def unparsed (t : Tally) : Tally := { t with parseErrors := t.parseErrors + 1 }

def next (t : Tally) : Tally := { t with completed := t.completed + 1 }

end Tally

def analyzeItem (o : Options) (s : ScriptItem) : Action (Except Analysis.Fault (List Finding)) := do
  return analyzeFile o.settings (← get).tree s.2

/-- Is an error, as far as its text tells, one of parsing? -/
def isParseError (error : String) : Bool :=
  contains error.toList "SyntaxError".toList
    || contains (error.toList.map Char.toLower) "parse".toList

/-- Take over what the workers hand back, as it arrives. A crash ends it. -/
def collect (o : Options) (total : Nat) :
    Tally → List (ScriptItem × Outcome (Except Analysis.Fault (List Finding))) →
      Action (Tally × Bool)
  | t, [] => return (t, false)
  | t, (s, outcome) :: rest => do
    let t := t.next
    let shown : Action Unit := do
      if !o.quiet then
        put (progressText t.completed total ++ toString t.completed ++ "/" ++ toString total
          ++ " | ETA: 0s  ")
    match outcome with
    | .crashed => return (t, true)
    | .failed =>
      if o.verbose then say ("\n  [ERROR] " ++ s.2.name ++ ": task failed")
      collect o total t.skip rest
    | .done result =>
      shown
      match handedBack result with
      | (_, some error) =>
        if isParseError error then
          if o.verbose then say ("\n  [PARSE ERROR] " ++ s.2.name)
          collect o total t.unparsed rest
        else
          if o.verbose then say ("\n  [ERROR] " ++ s.2.name ++ ": " ++ error)
          collect o total t.skip rest
      | (fs, none) =>
        if !fs.isEmpty && o.verbose && !o.quiet then
          say ("\n  [" ++ Console.right 3 (toString fs.length) ++ " issues] " ++ s.2.name)
        collect o total (t.add s fs) rest

def analyzeSingly (o : Options) (total : Nat) : Tally → List ScriptItem → Action Tally
  | t, [] => return t
  | t, s :: ss => do
    let t := t.next
    if !o.quiet then
      put (progressText t.completed total ++ toString t.completed ++ "/" ++ toString total ++ " | "
        ++ Console.left 30 (String.ofList (s.2.name.toList.take 30)))
    match ← analyzeItem o s with
    | .ok fs => analyzeSingly o total (t.add s fs) ss
    | .error e =>
      if o.verbose then say ("\n  [ERROR] " ++ s.2.name ++ ": " ++ e.message)
      analyzeSingly o total t.skip ss

def crashLine : String := "\n\nWorker crashed. Falling back to single-threaded mode..."

/-- Announce the workers and open their pool, which needs one worker at least. -/
def startWorkers (o : Options) : Action Unit := do
  let n := workerCount o (← get)
  note o.quiet ("Analyzing with " ++ toString n ++ " workers...")
  if n < 1 then fail .noWorkers

/-- Analyze the scripts in an open pool, and one by one if it breaks down. -/
def analyzeAll (o : Options) (scripts : List ScriptItem) : Action Tally := do
  let total := scripts.length
  let (t, crashed) ← match ← runPool 0 (analyzeItem o) scripts with
    | none => pure ({}, true)
    | some outcomes => collect o total {} (scripts.zip outcomes)
  let t ← if crashed then do
      if !o.quiet then say crashLine
      analyzeSingly o total t scripts
    else pure t
  if !o.quiet then put ("\r" ++ rule ' ' 80 ++ "\r")
  return t

end LuaTune.Command
