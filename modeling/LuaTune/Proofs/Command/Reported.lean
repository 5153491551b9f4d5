import LuaTune.Proofs.Command.Tallies
import LuaTune.Proofs.Finding.Thresholds

/-!
# What fixes act on

A fix analyzes its script again, and not with the settings of the run. It acts on what was reported
exactly if these settings and the usual ones find the same calls frequent.
-/

namespace LuaTune.Files

open Analysis

def fixFileFor (found : Except Fault (List Finding)) (o : FixOptions) (t : Tree) (p : Path) :
    Except FixFault (Tree × Fix.Fixed) :=
  match scriptAt? t p with
  | none => .ok (t, ⟨false, [], 0, []⟩)
  | some source => do
    let findings ← (found.mapError Fix.Fault.analysis).mapError FixFault.script
    let r ← ((Fix.fixFindings o.toOptions source findings).mapError Fix.Fault.edits).mapError
      FixFault.script
    if r.modified && !o.dryRun then
      let t ← (writeFixed o t p r.content).mapError FixFault.file
      return (t, r)
    else return (t, r)

theorem fixFile_eq (o : FixOptions) (t : Tree) (p : Path) :
    fixFile o t p = fixFileFor (analyzeFile {} t p) o t p := by
  unfold fixFile fixFileFor analyzeFile
  cases scriptAt? t p with
  | none => rfl
  | some source =>
    simp only [Fix.fixSource]
    cases analyzeSource {} source <;> rfl

def countedAt (t : Tree) (p : Path) : List (Scope × List Call) :=
  match (scriptAt? t p).map visitSource with
  | some (.ok (.analyzed a)) => a.tracker.counted
  | _ => []

theorem analyzeFile_congr {t t' : Tree} {p : Path} (same : scriptAt? t p = scriptAt? t' p)
    (settings : Settings) : analyzeFile settings t p = analyzeFile settings t' p := by
  unfold analyzeFile
  rw [same]

end LuaTune.Files

namespace LuaTune.Command

open Console Files

def fixItemFor (found : Except Analysis.Fault (List Finding)) (o : Options) (p : Path) :
    Action (Except FixFault Fix.Fixed) := do
  match fixFileFor found o.fixOptions (← get).tree p with
  | .ok (t, r) => modify fun w => { w with tree := t }; return .ok r
  | .error e => return .error e

theorem fixItem_eq (o : Options) (p : Path) (w : World) :
    fixItem o p w = fixItemFor (analyzeFile {} w.tree p) o p w := by
  unfold fixItem fixItemFor
  rewrite [get_bind, get_bind, fixFile_eq]
  rfl

theorem reported_analyzeFile_iff (s s' : Settings) (t : Tree) (p : Path)
    (plain : s'.experimental = false) :
    Outcome.reported (.done (analyzeFile s t p)) = Outcome.reported (.done (analyzeFile s' t p)) ↔
      SameFrequent (countedAt t p) s s' := by
  unfold analyzeFile countedAt
  cases scriptAt? t p with
  | none => simp [Outcome.reported, SameFrequent]
  | some source =>
    unfold analyzeSource
    simp only [Option.map_some]
    cases visitSource source with
    | error e => simp [Outcome.reported, Except.map, SameFrequent]
    | ok visited =>
      cases visited with
      | unparsed => simp [Outcome.reported, Except.map, LuaTune.Outcome.findings, SameFrequent]
      | analyzed a => exact map_reported_findings_iff a s s' plain

/-- What is reported of a script is what its analysis with the settings of the run gives. A fix works
from an analysis of its own with the usual settings, and what this one finds is what was reported, in
the same order, exactly if both settings find the same calls frequent. -/
theorem fixes_follow_report_iff (o : Options) (scripts : List ScriptItem) (w : World) :
    Ends (analyzeAll o scripts) w fun tally _ =>
      ((∀ n, breakdownAt w 0 n = none) → ∀ resource path, tally.report.findingsOf resource path =
          foundFor (resultsFor o w.tree scripts) resource path) ∧
      ∀ s ∈ scripts, (∀ v : World, scriptAt? v.tree s.2 = scriptAt? w.tree s.2 →
          fixItem o s.2 v = fixItemFor (analyzeFile {} w.tree s.2) o s.2 v) ∧
        (Outcome.reported (.done (analyzeFile o.settings w.tree s.2)) =
            Outcome.reported (.done (analyzeFile {} w.tree s.2)) ↔
          SameFrequent (countedAt w.tree s.2) o.settings {}) := by
  obtain ⟨arrived, out, ends, known⟩ := analyzeAll_ends o scripts w
  refine ends_iff.mpr ⟨_, _, ends, fun calm resource path => ?_, fun s _ => ⟨fun v same => ?_, ?_⟩⟩
  · obtain ⟨out', calmly⟩ := analyzeAll_of_calm o scripts calm
    injection ends.symm.trans calmly with tally
    rw [tally]
    exact findingsOf_countAll {} _ resource path
  · rw [fixItem_eq, analyzeFile_congr same]
  · exact reported_analyzeFile_iff o.settings {} w.tree s.2 rfl

@[irreducible]
def fourCallsWorld : World where
  tree := { entries := [(["a.lua"], .file (.bytes (Text.bytesOfChars
    "f(PlayerId())\nf(PlayerId())\nf(PlayerId())\nf(PlayerId())\n".toList)))] }
  now := ⟨2020, 1, 2, 3, 4, 5⟩
  directory := "/work"
  processors := 4

def fromFive : Options := { fix := true, cacheThreshold := 5 }

def fourCallsScript : ScriptItem := ("(direct)", ⟨false, ["a.lua"]⟩)

theorem fourCalls_not_followed :
    Ends (analyzeAll fromFive [fourCallsScript]) fourCallsWorld fun tally _ =>
      tally.report.findingsOf "(direct)" "a.lua" ≠
        Outcome.reported (.done (analyzeFile {} fourCallsWorld.tree fourCallsScript.2)) := by
  have calm : ∀ n, breakdownAt fourCallsWorld 0 n = none := by
    intro n
    unfold fourCallsWorld
    rfl
  have differs : ¬ SameFrequent (countedAt fourCallsWorld.tree fourCallsScript.2) fromFive.settings {} := by
    decide +kernel
  obtain ⟨tally, w, ends, report, each⟩ :=
    ends_iff.mp (fixes_follow_report_iff fromFive [fourCallsScript] fourCallsWorld)
  refine ends_iff.mpr ⟨tally, w, ends, fun same => ?_⟩
  rw [report calm] at same
  exact differs ((each fourCallsScript List.mem_cons_self).2.mp ((List.append_nil _).symm.trans same))

/-- The calls are not reported, and they are fixed. -/
theorem fourCalls_fixed_unreported :
    Ends (analyzeAll fromFive [fourCallsScript]) fourCallsWorld (fun tally _ =>
      ((tally.report.findingsOf "(direct)" "a.lua").any fun f => f.pattern == "repeated_PlayerId") =
        false) ∧
    (Outcome.reported (.done (analyzeFile {} fourCallsWorld.tree fourCallsScript.2))).any
      (fun f => f.pattern == "repeated_PlayerId") = true ∧
    Ends (fixItem fromFive fourCallsScript.2) fourCallsWorld fun _ w =>
      w.tree.entry? ["a.lua"] = some (.file (.bytes (Text.bytesOfChars
        "local playerId = PlayerId()\nf(playerId)\nf(playerId)\nf(playerId)\nf(playerId)\n".toList))) := by
  decide +kernel

end LuaTune.Command
