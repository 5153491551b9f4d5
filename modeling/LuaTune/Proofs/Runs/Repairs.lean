import LuaTune.Proofs.Command.Order
import LuaTune.Proofs.Command.Printing
import LuaTune.Proofs.Runs.Frames

/-!
# What a run makes of a script

A script that a run comes to fix, that it found once and that has no copy, becomes what the fix
makes of its text.
-/

namespace LuaTune.Runs

open Command Console Files Recovery Resources Text List
open Std.Do

variable {I : WorldInvariant} {f : FixOptions} {s : Ledger}

set_option mvcgen.warning false

variable {o : Options} {root p : Path} {scripts : List ScriptItem} {table : ScriptTable}
  {start w w₁ : World} {l : Location} {c : Content}

/-! ## Before the first fix -/

/-- All that comes before the first fix. There is no tally if the run is given up. -/
def prepare (o : Options) (root : Path) (scripts : List ScriptItem) : Action (Option Tally) := do
  if ← firstBackup o root scripts then
    askedBackup o root scripts
    startWorkers o
    let t ← analyzeAll o scripts
    if !o.noFirstBackup then requireBackup o root scripts
    return some t
  else return none

def carryOut (o : Options) (scripts : List ScriptItem) (t : Tally) : Action Unit := do
  say ("Applying fixes (" ++ ", ".intercalate (fixKinds o) ++ ") with "
    ++ toString (workerCount o (← get)) ++ " workers...")
  let done ← fixPaths o (← unfixed o scripts)
  showResults o t done

theorem lintScripts_eq (fixes : o.fixes) (root : Path) (scripts : List ScriptItem) :
    lintScripts o root scripts =
      prepare o root scripts >>= fun t => t.elim (pure ()) (carryOut o scripts) := by
  unfold lintScripts prepare repairAll carryOut
  simp only [bind_assoc]
  congr
  funext go
  cases go with
  | false => rfl
  | true =>
    cases o.noFirstBackup <;> simp [fixes]

def intact (start : World) : WorldInvariant where
  holds w := (framed start fun files => ∀ l, (finalSign (placeName l)).map Char.toLower ≠ some 'p' →
      files l = start.tree.entry? l).holds w ∧
    w.breakdown = start.breakdown ∧ w.noPools = start.noPools
  printed _ _ h := h

theorem intact_of_settled (h : (settled start).holds w) : (intact start).holds w := by
  obtain ⟨tree, now, breakdown, noPools⟩ := h
  refine ⟨⟨fun l => ?_, now, fun l _ => ?_⟩, breakdown, noPools⟩
  · rw [tree]
  · rw [tree]

theorem admitsWriting_intact (named : HasArchiveName p) : AdmitsWriting (intact start) p := by
  rintro c w t ⟨hw, workers⟩ written
  refine ⟨admitsWriting_framed (fun l c files place same m hm => ?_) c w t hw written, workers⟩
  rw [Function.update_of_ne _, same m hm]
  rintro rfl
  rw [placeName_of_locate named.isNamed place] at hm
  exact hm named

theorem prepare_keeps (scripts : List ScriptItem)
    (automatic : ∀ w, I.holds w → AdmitsWriting I (zipPath (backupPath (some root) none w.now)))
    (wanted : o.backupAll.isEmpty = false → ∀ w, I.holds w →
      AdmitsWriting I (zipPath (backupPath (some root) (some o.backupAll) w.now))) :
    Keeps I (prepare o root scripts) := by
  have auto := backupAll_keeps (I := I) scripts (some "auto") (some root) o.quiet automatic
  have first : Keeps I (firstBackup o root scripts) := by
    unfold Keeps firstBackup
    mvcgen [auto, -backupAll_spec]
  have asked : Keeps I (askedBackup o root scripts) := by
    have backup := fun filled => backupAll_keeps scripts (some o.backupAll) (some root) o.quiet (wanted filled)
    unfold Keeps askedBackup
    mvcgen [backup, -backupAll_spec]
    simp_all
  have require : Keeps I (requireBackup o root scripts) := by
    have backup := backupAll_keeps (I := I) scripts none (some root) o.quiet automatic
    unfold Keeps requireBackup
    mvcgen [backup, -backupAll_spec]
  unfold Keeps prepare
  mvcgen [first, asked, require]

theorem prepare_intact (o : Options) (root : Path) (scripts : List ScriptItem) (start : World) :
    Keeps (intact start) (prepare o root scripts) :=
  prepare_keeps scripts (fun _ _ => admitsWriting_intact (hasArchiveName_zipPath _))
    fun _ _ _ => admitsWriting_intact (hasArchiveName_zipPath _)

/-! ## The fixes -/

theorem unfixed_eq (o : Options) (scripts : List ScriptItem) (w : World) : ∃ out, unfixed o scripts w =
      .ok ((scripts.filter fun s => !w.tree.contains (backupOf s.2)).map (·.2))
        { w with output := out } := by
  obtain ⟨out, shown⟩ := prints_showSkipped o (scripts.filter fun s => w.tree.contains (backupOf s.2)) w
  refine ⟨out, ?_⟩
  unfold unfixed
  rw [get_bind, bind_ok shown]
  rfl

theorem fixPaths_ends (o : Options) (paths : List Path) (workers : Calm w ∨ o.singleThread) :
    ∃ r w', fixPaths o paths w = .ok r w' ∧
      ledger w' r = paths.foldl (Ledger.fixPath o.fixOptions w.tree) (ledger w {}) := by
  unfold fixPaths
  by_cases empty : paths.isEmpty
  · obtain rfl := isEmpty_iff.mp empty
    obtain ⟨out, noted⟩ := prints_note o.quiet "No files to process (all have existing backups)." w
    refine ⟨{}, { w with output := out }, ?_, rfl⟩
    rw [if_pos empty, bind_ok noted]
    rfl
  rw [if_neg empty]
  by_cases single : o.singleThread
  · obtain ⟨out, noted⟩ := prints_note o.quiet "Running in single-thread mode..." w
    obtain ⟨r, w₁, fixed, counted⟩ := fixSingly_ends o paths.length {} paths { w with output := out }
    obtain ⟨out', noted'⟩ := prints_note o.quiet "" w₁
    refine ⟨r, { w₁ with output := out' }, ?_, counted⟩
    rw [if_pos single, bind_ok noted, bind_ok fixed, bind_ok noted']
    rfl
  · rw [if_neg single]
    exact fixByPool_ends o paths (workers.resolve_right single)

theorem count_unfixed (named : ∀ s ∈ scripts, isScriptName s.2.name)
    (fresh : w.tree.entry? (copyPlace l) = none) :
    (places w.tree ((scripts.filter fun s => !w.tree.contains (backupOf s.2)).map (·.2))).count l =
      (places w.tree (scripts.map (·.2))).count l := by
  unfold places
  rw [count_filterMap, count_filterMap, countP_map, countP_map, countP_filter]
  refine countP_congr fun s hs => ?_
  simp only [Function.comp_apply, Bool.and_eq_true, beq_iff_eq, Bool.not_eq_true', and_iff_left_iff_imp]
  intro leads
  -- two paths to one script have their copies at one place
  cases place : w.tree.locate s.2 with
  | error e => simp [place, Except.toOption] at leads
  | ok l' =>
    obtain rfl : l' = l := by simpa [place, Except.toOption] using leads
    have copy := locate_backupOf (isNamed_of_isScriptName (named s hs)) place
    refine Bool.eq_false_iff.mpr fun there => ?_
    obtain ⟨m, e, place', entry⟩ := contains_iff.mp there
    obtain rfl := Except.ok.inj (copy.symm.trans place')
    cases fresh.symm.trans entry

def fixedContent (o : Fix.Options) (c : Content) : Content :=
  match Fix.fixSource o (scriptText c.toBytes) with
  | .ok r => if r.modified then .bytes (bytesOfChars r.content) else c
  | .error _ => c

theorem files_fix_self (file : s.files l = some (.file c)) :
    (s.fix f l).files l = some (.file (fixedContent f.toOptions c)) := by
  unfold fixedContent
  cases fixed : Fix.fixSource f.toOptions (scriptText c.toBytes) with
  | error e => rw [Ledger.fix_of_none (by simp [Ledger.due?, file, fixed]), file]
  | ok r =>
    cases modified : r.modified with
    | false =>
      rw [Ledger.fix_of_none (by simp [Ledger.due?, file, fixed, modified]), file]
      simp [modified]
    | true =>
      rw [Ledger.fix_of_due (r := r) (c := c) (by simp [Ledger.due?, file, fixed, modified]),
        Ledger.files_write, Function.update_self]
      simp [modified]

theorem content_of_due {x : Content × Fix.Fixed} (due : Ledger.due? f (some (.file c)) = some x) :
    x.1 = c := by
  unfold Ledger.due? at due
  simp only at due
  split at due
  · split at due
    · rw [← Option.some.inj due]
    · cases due
  · cases due

theorem files_fix_copy (keeps : f.backup) (file : s.files l = some (.file c))
    (fresh : s.files (copyPlace l) = none) :
    (s.fix f l).files (copyPlace l) = (Ledger.due? f (some (.file c))).map fun _ => .file c := by
  cases due : Ledger.due? f (some (.file c)) with
  | none => rw [Ledger.fix_of_none (by rw [file, due]), fresh, Option.map_none]
  | some x =>
    rw [Ledger.fix_of_due (by rw [file, due]), Ledger.files_write,
      Function.update_of_ne (copyPlace_ne l), Function.update_self, Ledger.copyAfter, if_pos keeps, fresh,
      content_of_due due]
    rfl

theorem files_iterate_fix (file : s.files l = some (.file c)) (n : Nat) :
    ((fun s => s.fix f l)^[n] s).files l = some (.file ((fixedContent f.toOptions)^[n] c)) := by
  induction n generalizing s c with
  | zero => exact file
  | succ n ih => exact ih (files_fix_self file)

theorem fixPaths_fixes (named : ∀ s ∈ scripts, isScriptName s.2.name)
    (workers : Calm w ∨ o.singleThread) (hl : isScriptName (placeName l))
    (fresh : w.tree.entry? (copyPlace l) = none) :
    ∃ paths out, unfixed o scripts w = .ok paths { w with output := out } ∧
      ∃ r w', fixPaths o paths { w with output := out } = .ok r w' ∧ SameDirectories w.tree w'.tree ∧
        Ledger.AgreeAt l (ledger w' r) ((fun s => s.fix o.fixOptions l)^[
          (places w.tree (scripts.map (·.2))).count l] (ledger w {})) := by
  obtain ⟨out, chosen⟩ := unfixed_eq o scripts w
  rw [← count_unfixed named fresh]
  have scripts' := ((unfixed_spec (I := settled w) (Q := fun p => isScriptName p.name) o scripts
    named).of_ok (settled_self w) chosen).2
  generalize (scripts.filter fun s => !w.tree.contains (backupOf s.2)).map (·.2) = paths at *
  refine ⟨paths, out, chosen, ?_⟩
  have workers' : Calm { w with output := out } ∨ o.singleThread := workers.imp_left fun calm => calm
  obtain ⟨r, w', fixed, counted⟩ := fixPaths_ends o paths workers'
  have dirs := holds_worldAfter (fixPaths_spec (I := framed w fun _ => True) (o := o) paths
      fun p _ => admitsFixing_framed fun _ _ _ h => h)
    (show (framed w fun _ => True).holds { w with output := out } from ⟨fun _ => Iff.rfl, rfl, trivial⟩)
  rw [fixed] at dirs
  refine ⟨r, w', fixed, dirs.1, ?_⟩
  rw [counted, foldl_fixPath]
  exact Ledger.foldl_fix_agreeAt hl (fun m hm => isScriptName_of_mem_places scripts' hm) _

theorem carryOut_fixes (named : ∀ s ∈ scripts, isScriptName s.2.name)
    (workers : Calm w ∨ o.singleThread) (hl : isScriptName (placeName l))
    (fresh : w.tree.entry? (copyPlace l) = none) {k : Location} (hk : k = l ∨ k = copyPlace l)
    (aside : o.report.isEmpty = false → w.tree.locate (.ofString o.report) ≠ .ok k) (t : Tally) :
    Tree.entry? (worldAfter (carryOut o scripts t w)).tree k =
      ((fun s => s.fix o.fixOptions l)^[(places w.tree (scripts.map (·.2))).count l]
        (ledger w {})).files k := by
  obtain ⟨out, announced⟩ := prints_say ("Applying fixes (" ++ ", ".intercalate (fixKinds o)
    ++ ") with " ++ toString (workerCount o w) ++ " workers...") w
  obtain ⟨paths, out', chosen, r, w', fixed, dirs, script, copy⟩ :=
    fixPaths_fixes (w := { w with output := out }) named workers hl fresh
  have result : w'.tree.entry? k = ((fun s => s.fix o.fixOptions l)^[
      (places w.tree (scripts.map (·.2))).count l] (ledger w {})).files k := by
    rcases hk with rfl | rfl
    · exact script
    · exact copy
  unfold carryOut
  rw [get_bind, bind_ok announced, bind_ok chosen, bind_ok fixed, ← result]
  refine (holds_worldAfter (showResults_spec (I := untouched w' k) t r fun asked => ?_)
    (framed_self rfl)).2.2
  exact admitsWriting_untouched fun place => aside asked (dirs.symm.locate place)

/-! ## What is kept -/

theorem carryOut_keeps (fixing : ∀ s ∈ scripts, AdmitsFixing I o s.2)
    (report : o.report.isEmpty = false → AdmitsWriting I (.ofString o.report)) (t : Tally) :
    Keeps I (carryOut o scripts t) := by
  have chosen := unfixed_spec (I := I) o scripts fixing
  have fix := fun paths => triple_of_known (fixPaths_spec (I := I) (o := o) paths)
  have results := fun done => showResults_spec t done report
  unfold Keeps carryOut
  mvcgen [chosen, fix, results]

theorem lintScripts_keeps (fixes : o.fixes) (here : I.holds w)
    (automatic : ∀ w, I.holds w → AdmitsWriting I (zipPath (backupPath (some root) none w.now)))
    (wanted : o.backupAll.isEmpty = false → ∀ w, I.holds w →
      AdmitsWriting I (zipPath (backupPath (some root) (some o.backupAll) w.now)))
    (fixing : ∀ s ∈ scripts, AdmitsFixing I o s.2)
    (report : o.report.isEmpty = false → AdmitsWriting I (.ofString o.report)) :
    I.holds (worldAfter (lintScripts o root scripts w)) := by
  have prepared := holds_worldAfter (prepare_keeps scripts automatic wanted) here
  rw [lintScripts_eq fixes]
  cases ends : prepare o root scripts w with
  | error e w' =>
    rw [ends] at prepared
    rwa [bind_error ends]
  | ok t w' =>
    rw [ends] at prepared
    rw [bind_ok ends]
    cases t with
    | none => exact prepared
    | some t => exact holds_worldAfter (carryOut_keeps fixing report t) prepared

/-! ## Runs -/

def ReachesFixes (o : Options) (root : Path) (w : World) : Prop :=
  o.onCopies = false ∧ Ends (findScripts o root) w fun table w' =>
    Ends (prepare o root (scriptItems table)) w' fun t _ => t.isSome

/-- The script is found once, has no copy, and neither a breakdown nor the report gets in its way. -/
structure TakenUp (o : Options) (root : Path) (w : World) (l : Location) (c : Content) : Prop where
  file : w.tree.entry? l = some (.file c)
  once : (places w.tree (discovered o root w)).count l = 1
  fresh : w.tree.entry? (copyPlace l) = none
  workers : Calm w ∨ o.singleThread
  report : o.report.isEmpty = false → w.tree.locate (.ofString o.report) ≠ .ok l

theorem treeAfter_fixed {args : List String} (chosen : chooseTask args w = .ok (o, root) w₁)
    (fixes : o.fixes) (reaches : ReachesFixes o root w₁) (hl : isScriptName (placeName l))
    (fresh : w₁.tree.entry? (copyPlace l) = none) (workers : Calm w₁ ∨ o.singleThread)
    {k : Location} (hk : k = l ∨ k = copyPlace l)
    (aside : o.report.isEmpty = false → w₁.tree.locate (.ofString o.report) ≠ .ok k) :
    Tree.entry? (treeAfter args w) k =
      ((fun s => s.fix o.fixOptions l)^[(places w₁.tree (discovered o root w₁)).count l]
        (ledger w₁ {})).files k := by
  obtain ⟨off, prepared⟩ := reaches
  rcases treeAfter_of_task chosen with ⟨nothing, same⟩ | ⟨table, w₂, found, all, result⟩
  · rw [nothing, same, ← (settled_of_task chosen).1]
    rfl
  obtain ⟨table', w₂', found', goes⟩ := ends_iff.mp prepared
  obtain ⟨rfl, rfl⟩ := EStateM.Result.ok.inj (found.symm.trans found')
  obtain ⟨t, w₃, done, some⟩ := ends_iff.mp goes
  obtain ⟨t, rfl⟩ := Option.isSome_iff_exists.mp some
  obtain ⟨⟨settled₂, -⟩, named⟩ := of_findScripts found
  obtain ⟨⟨dirs, -, same⟩, breakdown, noPools⟩ := holds_worldAfter
    (prepare_intact o root (scriptItems table) w₁) (intact_of_settled settled₂)
  rw [done] at dirs same breakdown noPools
  change SameDirectories w₁.tree w₃.tree at dirs
  -- neither a script nor a copy has the name of an archive, so both are still what they were
  have script : w₃.tree.entry? l = w₁.tree.entry? l := by
    refine same l ?_
    rw [finalSign_scriptName hl]
    decide
  have copy : w₃.tree.entry? (copyPlace l) = w₁.tree.entry? (copyPlace l) := by
    refine same _ ?_
    rw [finalSign_copyPlace]
    decide
  have agree : Ledger.AgreeAt l (ledger w₃ {}) (ledger w₁ {}) := ⟨script, copy⟩
  have both := agree.iterate (o := o.fixOptions) ((places w₁.tree (discovered o root w₁)).count l)
  rw [result, lintFound_of_off off, lintScripts_eq fixes, bind_ok done]
  have fixed := carryOut_fixes (w := w₃) named.items
    (workers.imp_left fun calm => calm.congr breakdown noPools) hl (copy.trans fresh) hk
    (fun asked place => aside asked (dirs.symm.locate place)) t
  rw [dirs.places, map_scriptItems, ← all] at fixed
  refine fixed.trans ?_
  rcases hk with rfl | rfl
  · exact both.1
  · exact both.2

theorem isScriptName_of_mem_discovered (hp : p ∈ discovered o root w) : isScriptName p.name := by
  unfold discovered at hp
  split at hp
  · split at hp
    · exact (of_findScripts ‹_›).2.mem hp
    · cases hp
  · cases hp

theorem treeAfter_fixes {args : List String} (chosen : chooseTask args w = .ok (o, root) w₁)
    (fixes : o.fixes) (reaches : ReachesFixes o root w₁) (taken : TakenUp o root w₁ l c) :
    Tree.entry? (treeAfter args w) l = some (.file (fixedContent o.fixOptions.toOptions c)) := by
  have hl : isScriptName (placeName l) :=
    isScriptName_of_mem_places (fun p hp => isScriptName_of_mem_discovered hp)
      (count_pos_iff.mp (taken.once ▸ Nat.one_pos))
  rw [treeAfter_fixed chosen fixes reaches hl taken.fresh taken.workers (.inl rfl) taken.report,
    taken.once]
  exact files_iterate_fix taken.file 1

end LuaTune.Runs
