import LuaTune.Proofs.Fix.Straight
import LuaTune.Proofs.Runs.Repairs

/-!
# Green fixes

The flag that asks for green fixes decides about an announcement and a tip, but makes no difference
to the files.
-/

namespace LuaTune.Fix

open Analysis List

variable {source : Chars} {f : Finding} {findings : List Finding}

/-! ## Green findings -/

def IsGreenFix (f : Finding) : Prop := f.severity = .green ∧
    (f.pattern ∈ ["table_insert_append", "table_getn", "string_len", "math_pow_simple",
      "uncached_globals_summary"] ∨ Text.startsWith f.pattern.toList "repeated_".toList)

instance (f : Finding) : Decidable (IsGreenFix f) := inferInstanceAs (Decidable (_ ∧ _))

theorem IsGreenFix.pattern (h : IsGreenFix f) :
    f.pattern ≠ "string_concat_in_loop" ∧ f.pattern ≠ "potential_nil_access" ∧
      Text.startsWith f.pattern.toList "dead_code_".toList = false := by
  obtain ⟨-, listed | repeated⟩ := h
  · simp only [mem_cons, not_mem_nil, or_false] at listed
    rcases listed with h | h | h | h | h
    all_goals
      rw [h]
      decide
  · obtain ⟨rest, cut⟩ := Text.startsWith_iff.mp repeated
    refine ⟨fun h => ?_, fun h => ?_, ?_⟩
    · simp [h] at cut
    · simp [h] at cut
    · rw [← cut]
      rfl

theorem IsGreenFix.findingEdits (h : IsGreenFix f) (o : Options) (source : Chars) :
    Fix.findingEdits o source f = Fix.findingEdits {} source f := by
  obtain ⟨concat, nils, dead⟩ := h.pattern
  unfold Fix.findingEdits
  -- only these three patterns look at the flags
  split
  case h_7 => contradiction
  case h_8 => contradiction
  case h_9 =>
    simp only [dead]
    rfl
  all_goals rfl

theorem fixable_of_green (h : ∀ f ∈ findings, IsGreenFix f) (o : Options) :
    fixable o findings = findings := by
  have names : ∀ f ∈ findings, fixedBySeverity f.pattern := fun f hf => by
    obtain ⟨concat, nils, dead⟩ := (h f hf).pattern
    rw [fixedBySeverity, dead]
    simp [concat, nils]
  rw [fixable_eq_filter o names, filter_eq_self]
  intro f hf
  rw [(h f hf).1]
  exact severities_green o

theorem fixSource_of_green (found : analyzeSource {} source = .ok findings)
    (h : ∀ f ∈ findings, IsGreenFix f) (o : Options) : fixSource o source = fixSource {} source := by
  have edits : sourceEdits o source findings = sourceEdits {} source findings := by
    unfold sourceEdits
    rw [fixable_of_green h, fixable_of_green h]
    rw [List.flatMap, map_congr_left fun f hf => (h f hf).findingEdits o source, List.flatMap]
  have fixed : fixFindings o source findings = fixFindings {} source findings := by
    rw [fixFindings, edits, fixFindings]
  unfold fixSource
  rw [found]
  exact congrArg (Except.mapError Fault.edits) fixed

end LuaTune.Fix

namespace LuaTune.Runs

open Command Console Files Recovery Resources Text
open Std.Do

set_option mvcgen.warning false

variable {o : Options} {root : Path} {scripts : List ScriptItem} {table : ScriptTable} {w : World}

/-! ## The flag for green fixes -/

def withGreen (o : Options) : Options := { o with fix := true }

theorem fixes_withGreen (o : Options) : (withGreen o).fixes := rfl

theorem collect_withGreen (o : Options) : collect (withGreen o) = collect o := by
  delta collect
  rfl

theorem analyzeSingly_withGreen (o : Options) : analyzeSingly (withGreen o) = analyzeSingly o := by
  delta analyzeSingly
  rfl

theorem analyzeAll_withGreen (o : Options) (scripts : List ScriptItem) :
    analyzeAll (withGreen o) scripts = analyzeAll o scripts := by
  unfold analyzeAll
  simp only [collect_withGreen, analyzeSingly_withGreen]
  rfl

theorem fixSingly_withGreen (o : Options) : fixSingly (withGreen o) = fixSingly o := by
  delta fixSingly
  rfl

theorem collectFixes_withGreen (o : Options) : collectFixes (withGreen o) = collectFixes o := by
  delta collectFixes
  rfl

theorem fixPaths_withGreen (o : Options) (paths : List Path) :
    fixPaths (withGreen o) paths = fixPaths o paths := by
  unfold fixPaths fixByPool
  simp only [fixSingly_withGreen, collectFixes_withGreen]
  rfl

theorem alike_showResults (fixes : o.fixes) (t : Tally) (done : Repairs) :
    Alike (showResults o t done) (showResults (withGreen o) t done) := by
  unfold showResults
  -- the flag shows only in the tips, which are printed last
  extract_lets tips counts unparsed report tips' counts' unparsed' report'
  have tipped : ∀ u, Alike (tips u) (tips' u) := fun _ =>
    (alike_say _ _).bind fun _ => (prints_sayAll _).alike (prints_sayAll _)
  have counted : ∀ u, Alike (counts u) (counts' u) := by
    intro u
    simp only [counts, counts', if_pos fixes, if_pos (fixes_withGreen o)]
    exact (alike_say _ _).bind fun _ => (alike_say _ _).bind tipped
  have noted : ∀ u, Alike (unparsed u) (unparsed' u) := fun _ =>
    Alike.ite ((alike_say _ _).bind counted) (counted ())
  have reported : ∀ u, Alike (report u) (report' u) := fun _ =>
    (alike_saveReport o _).bind fun _ => (alike_say _ _).bind fun _ => (alike_say _ _).bind fun _ =>
      (alike_say _ _).bind fun _ => Alike.ite ((alike_say _ _).bind noted) (noted ())
  refine Alike.ite ?_ (reported ())
  refine ((prints_sayAll _).alike (prints_sayAll _)).bind fun _ => ?_
  exact Alike.ite (t.report.alike_printDetailed.bind reported) (reported ())

theorem alike_carryOut (fixes : o.fixes) (scripts : List ScriptItem) (t : Tally) :
    Alike (carryOut o scripts t) (carryOut (withGreen o) scripts t) := by
  refine alike_get (fun w => ?_) fun _ _ => rfl
  refine (alike_say _ _).bind fun _ => (alike_unfixed o scripts).bind fun paths => ?_
  rw [fixPaths_withGreen]
  exact (alike_fixPaths o paths).bind fun done => alike_showResults fixes t done

theorem prepare_withGreen (fixes : o.fixes) (root : Path) (scripts : List ScriptItem) :
    prepare (withGreen o) root scripts = prepare o root scripts := by
  have first : firstBackup (withGreen o) root scripts = firstBackup o root scripts := by
    unfold firstBackup
    rw [fixes_withGreen, fixes]
    rfl
  unfold prepare
  rw [first, analyzeAll_withGreen]
  rfl

theorem tree_reprinted {α : Type} (out : String) (r : EStateM.Result Stop World α) :
    (worldAfter (reprinted out r)).tree = (worldAfter r).tree := by
  cases r <;> rfl

theorem tree_bind_congr {α β : Type} {a : Action α} {f g : α → Action β}
    (h : ∀ x w, (worldAfter (f x w)).tree = (worldAfter (g x w)).tree) (w : World) :
    (worldAfter ((a >>= f) w)).tree = (worldAfter ((a >>= g) w)).tree := by
  cases first : a w with
  | ok x w₁ => rw [bind_ok first, bind_ok first, h]
  | error e w₁ => rw [bind_error first, bind_error first]

theorem lintScripts_withGreen (fixes : o.fixes) (root : Path) (scripts : List ScriptItem) (w : World) :
    (worldAfter (lintScripts (withGreen o) root scripts w)).tree =
      (worldAfter (lintScripts o root scripts w)).tree := by
  rw [lintScripts_eq fixes, lintScripts_eq (fixes_withGreen o), prepare_withGreen fixes]
  refine tree_bind_congr (fun t w₁ => ?_) w
  cases t with
  | none => rfl
  | some t =>
    obtain ⟨out, same⟩ := alike_carryOut fixes scripts t w₁ w₁.output
    exact (congrArg (fun r => (worldAfter r).tree) same).trans (tree_reprinted out _)

theorem lintAt_withGreen (fixes : o.fixes) (root : Path) (w : World) :
    (worldAfter (lintAt (withGreen o) root w)).tree = (worldAfter (lintAt o root w)).tree := by
  unfold lintAt
  rw [get_bind, get_bind]
  split
  · exact tree_bind_congr (fun table => tree_bind_congr fun _ =>
      lintScripts_withGreen fixes root (scriptItems table)) w
  · rfl

/-! ## Scripts with green findings -/

/-- All findings about the script are green ones about calls to replace or values to keep. -/
def OnlyGreen (c : Content) : Prop :=
  match analyzeSource {} (scriptText c.toBytes) with
  | .ok findings => ∀ f ∈ findings, Fix.IsGreenFix f
  | .error _ => False

instance (c : Content) : Decidable (OnlyGreen c) :=
  match h : analyzeSource {} (scriptText c.toBytes) with
  | .ok findings => decidable_of_iff (∀ f ∈ findings, Fix.IsGreenFix f) (by rw [OnlyGreen, h])
  | .error _ => .isFalse (by rw [OnlyGreen, h]; exact id)

theorem fixedContent_of_green {c : Content} (h : OnlyGreen c) (f : Fix.Options) :
    fixedContent f c = fixedContent {} c := by
  unfold OnlyGreen at h
  cases found : analyzeSource {} (scriptText c.toBytes) with
  | error e => simp [found] at h
  | ok findings =>
    rw [found] at h
    rw [fixedContent, Fix.fixSource_of_green found h, fixedContent]

/-- A run that fixes scripts leaves the files that it would leave if green fixes were asked for. What
it makes of a script is what the fix does with its flags, so a script with green findings alone becomes
what the fix makes of it without any flag. -/
theorem green_fixed_unasked (args : List String) (w : World) :
    Whenever (chooseTask args) w fun task w₁ => task.1.fixes →
      treeAfter args w = (worldAfter (lintAt (withGreen task.1) task.2 w₁)).tree ∧
      (ReachesFixes task.1 task.2 w₁ → ∀ l c, TakenUp task.1 task.2 w₁ l c →
        Tree.entry? (treeAfter args w) l = some (.file (fixedContent task.1.fixOptions.toOptions c)) ∧
        (OnlyGreen c → Tree.entry? (treeAfter args w) l = some (.file (fixedContent {} c)))) := by
  refine whenever_iff.mpr ?_
  rintro ⟨o, root⟩ w₁ chosen fixes
  have run : lint args w = lintAt o root w₁ := bind_ok chosen
  refine ⟨?_, fun reaches l c taken => ?_⟩
  · rw [treeAfter_eq, run, lintAt_withGreen fixes]
  · have result := treeAfter_fixes chosen fixes reaches taken
    refine ⟨result, fun green => ?_⟩
    rw [result, fixedContent_of_green green]

@[irreducible]
def appending : Content := .bytes (bytesOfChars "table.insert(t, v)\n".toList)

@[irreducible]
def appendWorld : World := worldWith ⟨[(["a.lua"], .file appending)]⟩ ""

def debugArgs : List String := [".", "--direct", "--fix-debug", "--no-first-time-auto-backup"]

theorem append_fixed_unasked :
    (Ends (chooseTask debugArgs) appendWorld fun task _ => task.1.fixes ∧ task.1.fix = false) ∧
      OnlyGreen appending ∧
      Tree.entry? (treeAfter debugArgs appendWorld) ["a.lua"] = some (.file (fixedContent {} appending)) := by
  have green : OnlyGreen appending := by decide +kernel
  have chosen : Ends (chooseTask debugArgs) appendWorld fun task w₁ =>
      (task.1.fixes ∧ task.1.fix = false ∧ task.1.report.isEmpty) ∧ task.1.onCopies = false ∧
        (Ends (findScripts task.1 task.2) w₁ fun table w' =>
          Ends (prepare task.1 task.2 (scriptItems table)) w' fun t _ => t.isSome) ∧
        w₁.tree.entry? ["a.lua"] = some (.file appending) ∧
        (places w₁.tree (discovered task.1 task.2 w₁)).count ["a.lua"] = 1 ∧
        w₁.tree.entry? (copyPlace ["a.lua"]) = none ∧ w₁.breakdown = none ∧ w₁.noPools = false := by
    decide +kernel
  obtain ⟨task, w₁, run, ⟨fixes, unasked, none⟩, off, prepared, file, once, fresh, calm, pools⟩ :=
    ends_iff.mp chosen
  refine ⟨ends_iff.mpr ⟨task, w₁, run, fixes, unasked⟩, green, ?_⟩
  have workers : Calm w₁ := by
    intro n
    simp [breakdownAt, calm, pools]
  have taken : TakenUp task.1 task.2 w₁ ["a.lua"] appending :=
    ⟨file, once, fresh, .inl workers, fun asked => by simp [none] at asked⟩
  exact (((green_fixed_unasked debugArgs appendWorld).of_ok run fixes).2 ⟨off, prepared⟩ _ _ taken).2
    green

theorem append_not_left :
    (Ends (chooseTask debugArgs) appendWorld fun task _ => task.1.fixes ∧ task.1.fix = false) ∧
      OnlyGreen appending ∧ appendWorld.tree.entry? ["a.lua"] = some (.file appending) ∧
      Tree.entry? (treeAfter debugArgs appendWorld) ["a.lua"] ≠ some (.file appending) := by
  decide +kernel

end LuaTune.Runs
