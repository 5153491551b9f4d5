import LuaTune.Command.Lint
import LuaTune.Proofs.Command.Scripts

/-!
# What a run of the linter keeps

A run keeps an invariant as soon as the changes to the files that its options ask for do.
-/

namespace LuaTune.Command

open Console Files Resources List
open Std.Do

variable {start : World}

set_option mvcgen.warning false

variable {I : WorldInvariant}

/-! ## Options -/

theorem readSettings_spec (o : Options) (settings : List Setting) :
    Keeps I (readSettings o settings) := by
  induction settings generalizing o with
  | nil =>
    unfold Keeps readSettings
    mvcgen
  | cons s ss ih =>
    unfold Keeps readSettings
    mvcgen [ih]

@[spec]
theorem readOptions_spec (args : List String) : Keeps I (readOptions args) := by
  unfold Keeps readOptions
  mvcgen [readSettings_spec]

theorem recover_spec (o : Options) (part : Chars) : Keeps I (recover o part) := by
  unfold Keeps recover
  mvcgen

theorem recoverAll_spec (o : Options) (parts : List Chars) : Keeps I (recoverAll o parts) := by
  induction parts generalizing o with
  | nil =>
    unfold Keeps recoverAll
    mvcgen
  | cons part parts ih =>
    unfold Keeps recoverAll
    mvcgen [recover_spec, ih]

theorem chooseTask_spec (reading : I.IgnoresInput) (args : List String) :
    Keeps I (chooseTask args) := by
  have reply := ask_keeps reading
  unfold Keeps chooseTask choosePath askPath recoverOptions
  mvcgen [reply, recoverAll_spec]

/-! ## Scripts -/

theorem exclude_spec (o : Options) (table : ScriptTable) :
    Yields I (exclude o table) fun rest => rest ⊆ table := by
  unfold Yields exclude
  mvcgen
  all_goals refine ⟨‹_›, ?_⟩
  · exact List.Subset.refl table
  · exact List.Subset.refl table
  · exact List.Subset.refl table
  · exact filter_sublist.subset
  · exact filter_sublist.subset

@[spec]
theorem stopWithoutScripts_spec {α : Type} (o : Options) :
    Yields I (stopWithoutScripts o : Action α) fun _ => False := by
  unfold Yields stopWithoutScripts
  mvcgen

@[spec]
theorem showFound_spec (o : Options) (table : ScriptTable) : Keeps I (showFound o table) := by
  unfold Keeps showFound
  mvcgen

theorem findScripts_among (o : Options) (root : Path) {A : ScriptTable → Prop}
    (h : ∀ w, I.holds w → ∀ table, table ⊆ scriptsAt o w.tree root → A table) :
    Yields I (findScripts o root) A := by
  unfold Yields findScripts
  mvcgen [exclude_spec]
  · exact And.left ‹_›
  · exact fun _ no => no.elim
  · exact And.left ‹_›
  · obtain ⟨-, among⟩ := ‹I.holds _ ∧ _›
    exact ⟨‹_›, h _ (by assumption) _ among⟩

theorem findScripts_spec (o : Options) (root : Path) {Q : Path → Prop}
    (h : ∀ t, ∀ e ∈ scriptsAt o t root, ∀ p ∈ e.2, Q p) :
    Yields I (findScripts o root) fun table => ∀ e ∈ table, ∀ p ∈ e.2, Q p :=
  findScripts_among o root fun w _ _ among e he => h w.tree e (among he)

/-! ## Copies -/

theorem listBackups_spec (kept : List Kept) : Keeps I (listBackups kept) := by
  unfold Keeps listBackups
  mvcgen

theorem mem_keptScripts {t : Tree} {table : ScriptTable} {k : Kept} (h : k ∈ keptScripts t table) :
    ∃ e ∈ table, k.script ∈ e.2 ∧ t.contains k.copy := by
  unfold keptScripts at h
  obtain ⟨e, he, hk⟩ := mem_flatMap.mp h
  obtain ⟨p, hp, rfl⟩ := mem_map.mp hk
  obtain ⟨hp, kept⟩ := mem_filter.mp hp
  exact ⟨e, he, hp, kept⟩

def Options.deletes (o : Options) : Bool := o.cleanBackups && !o.listBackups

def Options.reverts (o : Options) : Bool := o.revert && !o.listBackups && !o.cleanBackups

def Options.onCopies (o : Options) : Bool :=
  o.listBackups || o.revert || o.cleanBackups || !o.extractDebug.isEmpty

theorem handleCopies_asked (reading : I.IgnoresInput) (o : Options) (table : ScriptTable)
    (start : World) (denied : o.deletes → ¬Confirms start)
    (restoring : o.reverts → Confirms start → ∀ e ∈ table, ∀ p ∈ e.2, AdmitsRestoring I p)
    (whole : o.extractDebug.isEmpty = false → o.split ≤ 0 →
      AdmitsWriting I (debugArchive (.ofString o.extractDebug)))
    (pieces : o.extractDebug.isEmpty = false → 0 < o.split →
      ∀ n, AdmitsWriting I (pieceArchive (debugArchive (.ofString o.extractDebug)) n)) :
    ⦃fun w => ⌜(I.unread start).holds w⌝⦄ handleCopies o table
    ⦃post⟨fun _ w => ⌜I.holds w ∧ o.onCopies = false⌝, fun _ w => ⌜I.holds w⌝⟩⦄ := by
  have extract := fun kept asked =>
    extractDebug_spec (.ofString o.extractDebug) o.split o.verbose kept (whole asked) (pieces asked)
  have delete := fun kept (hd : o.deletes) => cleanBackups_denied reading kept (denied hd)
  have restore := fun kept => revert_asked reading o.verbose kept start
  unfold handleCopies
  mvcgen [extract, listBackups_spec, delete, restore]
  · exact And.left ‹_›
  · exact And.left ‹_›
  · simp_all [Options.deletes]
  · intro yes k hk
    obtain ⟨e, he, hp, -⟩ := mem_keptScripts hk
    exact restoring (by simp_all [Options.reverts]) yes e he k.script hp
  · simpa using ‹(!o.extractDebug.isEmpty) = true›
  · exact And.left ‹_›
  · exact ⟨And.left ‹_›, by simp_all [Options.onCopies]⟩

/-! ## Reports -/

@[spec]
theorem printFinding_spec (f : Finding) : Keeps I (Report.printFinding f) := by
  unfold Keeps Report.printFinding
  mvcgen

@[spec]
theorem printDetailed_spec (r : Report) : Keeps I r.printDetailed := by
  unfold Keeps Report.printDetailed Report.printScript Report.printFile
  mvcgen

@[spec]
theorem progress_spec (verbose : Bool) (s : String) : Keeps I (Report.progress verbose s) := by
  unfold Keeps Report.progress
  mvcgen

@[spec]
theorem countScripts_spec (verbose : Bool) (what : String) (n : Nat) :
    Keeps I (Report.countScripts verbose what n) :=
  forM_spec fun _ _ => progress_spec _ _

theorem save_spec (r : Report) {p : Path} (h : AdmitsWriting I p) (verbose : Bool) :
    Keeps I (r.save p verbose) := by
  unfold Keeps Report.save Report.saveJson Report.saveText Report.savePage Report.writeText
  mvcgen
  all_goals exact h _

theorem saveReport_spec {o : Options} (r : Report)
    (h : o.report.isEmpty = false → AdmitsWriting I (.ofString o.report)) :
    Keeps I (saveReport o r) := by
  unfold Keeps saveReport
  mvcgen [save_spec]
  exact h (by simpa using ‹(!o.report.isEmpty) = true›)

theorem showResults_spec {o : Options} (t : Tally) (done : Repairs)
    (h : o.report.isEmpty = false → AdmitsWriting I (.ofString o.report)) :
    Keeps I (showResults o t done) := by
  have save := saveReport_spec t.report h
  unfold Keeps showResults Report.printSummary
  mvcgen [save]

/-! ## The command -/

/-- What a run with these options may do to the files does not break the invariant. The scripts
satisfy a property that all scripts at the path have. -/
structure AdmitsRun (I : WorldInvariant) (o : Options) (root : Path) (Q : Path → Prop) : Prop where
  reading : I.IgnoresInput
  found : ∀ t, ∀ e ∈ scriptsAt o t root, ∀ p ∈ e.2, Q p
  fixing : ∀ p, Q p → AdmitsFixing I o p
  restoring : ∀ p, Q p → AdmitsRestoring I p
  report : o.report.isEmpty = false → AdmitsWriting I (.ofString o.report)
  backup : ∀ asked now, AdmitsWriting I (zipPath (backupPath (some root) asked now))
  whole : o.extractDebug.isEmpty = false → o.split ≤ 0 →
    AdmitsWriting I (debugArchive (.ofString o.extractDebug))
  pieces : ∀ n, AdmitsWriting I (pieceArchive (debugArchive (.ofString o.extractDebug)) n)

variable {o : Options} {root : Path} {Q : Path → Prop}

theorem firstBackup_spec (h : AdmitsRun I o root Q) (scripts : List ScriptItem) :
    Keeps I (firstBackup o root scripts) := by
  unfold Keeps firstBackup
  mvcgen
  all_goals exact h.backup _

theorem askedBackup_spec (h : AdmitsRun I o root Q) (scripts : List ScriptItem) :
    Keeps I (askedBackup o root scripts) := by
  unfold Keeps askedBackup
  mvcgen
  all_goals exact h.backup _

theorem lintScripts_spec (h : AdmitsRun I o root Q) (scripts : List ScriptItem)
    (named : ∀ s ∈ scripts, Q s.2) : Keeps I (lintScripts o root scripts) := by
  have first := firstBackup_spec h scripts
  have asked := askedBackup_spec h scripts
  have repair := repairAll_spec o root scripts (h.backup none) fun s hs => h.fixing _ (named s hs)
  have results := fun t done => showResults_spec t done h.report
  unfold Keeps lintScripts
  mvcgen [first, asked, repair, results]

theorem lintFound_spec (h : AdmitsRun I o root Q) (denied : o.deletes → ¬Confirms start)
    (table : ScriptTable) (named : ∀ e ∈ table, ∀ p ∈ e.2, Q p) :
    ⦃fun w => ⌜(I.unread start).holds w⌝⦄ lintFound o root table
    ⦃post⟨fun _ w => ⌜I.holds w⌝, fun _ w => ⌜I.holds w⌝⟩⦄ := by
  have copies := handleCopies_asked h.reading o table start denied
    (fun _ _ e he p hp => h.restoring p (named e he p hp)) h.whole fun _ _ => h.pieces
  have items : ∀ s ∈ scriptItems table, Q s.2 := by
    intro s hs
    obtain ⟨e, he, hs⟩ := mem_flatMap.mp hs
    obtain ⟨p, hp, rfl⟩ := mem_map.mp hs
    exact named e he p hp
  have scripts := lintScripts_spec h (scriptItems table) items
  unfold lintFound
  mvcgen [copies, scripts]
  exact And.left ‹_›

theorem lintAt_spec (h : AdmitsRun I o root Q) (denied : o.deletes → ¬Confirms start) :
    ⦃fun w => ⌜(I.unread start).holds w⌝⦄ lintAt o root
    ⦃post⟨fun _ w => ⌜I.holds w⌝, fun _ w => ⌜I.holds w⌝⟩⦄ := by
  have find := findScripts_spec (I := I.unread start) o root h.found
  have work := fun table => triple_of_known (lintFound_spec h denied table)
  unfold lintAt
  mvcgen [find, work]
  · exact fun hw => hw.1
  · exact And.left ‹_›

theorem lintProgram_worldAfter (args : List String) (w : World) :
    ∃ s, worldAfter (lintProgram args w) = { worldAfter (lint args w) with output := s } := by
  unfold lintProgram
  simp only [tryCatch, tryCatchThe, MonadExceptOf.tryCatch, EStateM.tryCatch]
  cases h : lint args w with
  | ok x w' => exact ⟨w'.output, rfl⟩
  | error stop w' =>
    cases stop with
    | interrupt => exact ⟨_, rfl⟩
    | exit code => exact ⟨w'.output, rfl⟩
    | failure cause => exact ⟨w'.output, rfl⟩

theorem lintProgram_keeps {args : List String} {w : World} (reading : I.IgnoresInput) (hw : I.holds w)
    (admitted : ∀ o root w', chooseTask args w = .ok (o, root) w' →
      AdmitsRun I o root Q ∧ (o.deletes → ¬Confirms w')) :
    I.holds (worldAfter (lintProgram args w)) := by
  have chosen := holds_worldAfter (chooseTask_spec reading args) hw
  obtain ⟨s, done⟩ := lintProgram_worldAfter args w
  rw [done]
  apply I.printed
  unfold lint
  cases h : chooseTask args w with
  | error e w' =>
    rw [h] at chosen
    rw [bind_error h]
    exact chosen
  | ok task w' =>
    rw [h] at chosen
    rw [bind_ok h]
    obtain ⟨run, denied⟩ := admitted task.1 task.2 w' h
    exact holds_worldAfter (lintAt_spec run denied) ⟨chosen, rfl, rfl⟩

end LuaTune.Command
