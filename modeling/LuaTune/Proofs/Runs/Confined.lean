import LuaTune.Proofs.Runs.Copies

/-!
# What a run leaves alone

A run that is not to fix, restore or delete anything writes to its outputs only.
-/

namespace LuaTune.Runs

open Command Console Files Recovery Resources Text
open Std.Do
open Function (update update_self update_of_ne)

set_option mvcgen.warning false

variable {o : Options} {root p : Path} {table : ScriptTable} {start : World} {l m : Location}

/-! ## Reading -/

inductive Output (o : Options) (root : Path) (now : Moment) : Path → Prop
  | report : o.report.isEmpty = false → Output o root now (.ofString o.report)
  | backup : o.backupAll.isEmpty = false →
      Output o root now (zipPath (backupPath (some root) (some o.backupAll) now))
  | whole : o.extractDebug.isEmpty = false → o.split ≤ 0 →
      Output o root now (debugArchive (.ofString o.extractDebug))
  | piece (n : Nat) : o.extractDebug.isEmpty = false → 0 < o.split →
      Output o root now (pieceArchive (debugArchive (.ofString o.extractDebug)) n)

/-- The run is to change nothing: it is asked for no change, only for a list of copies, or for work on
copies that is not confirmed. -/
def ReadsOnly (o : Options) (w : World) : Prop :=
  (o.fixes = false ∧ o.revert = false ∧ o.cleanBackups = false) ∨ o.listBackups ∨
    ((o.revert ∨ o.cleanBackups) ∧ ¬Confirms w)

theorem lintScripts_reads {I : WorldInvariant} (root : Path) (reading : o.fixes = false)
    (backup : o.backupAll.isEmpty = false →
      ∀ w, I.holds w → AdmitsWriting I (zipPath (backupPath (some root) (some o.backupAll) w.now)))
    (report : o.report.isEmpty = false → AdmitsWriting I (.ofString o.report))
    (scripts : List ScriptItem) : Keeps I (lintScripts o root scripts) := by
  have asked := fun wanted => backupAll_keeps scripts (some o.backupAll) (some root) o.quiet (backup wanted)
  have results := fun t done => showResults_spec t done report
  unfold Keeps lintScripts firstBackup askedBackup
  simp only [reading]
  mvcgen [asked, results, -backupAll_spec]
  all_goals simp_all

theorem lintFound_reads (reads : ReadsOnly o start)
    (away : ∀ p, Output o root start.now p → start.tree.locate p ≠ .ok l) :
    Tree.entry? (worldAfter (lintFound o root table start)).tree l = start.tree.entry? l := by
  have copies := handleCopies_asked (I := untouched start l) framed_ignoresInput o table start
    (fun deletes => by simp_all [ReadsOnly, Options.deletes])
    (fun reverts yes => by simp_all [ReadsOnly, Options.reverts])
    (fun asked whole => admitsWriting_untouched (away _ (.whole asked whole)))
    (fun asked split n => admitsWriting_untouched (away _ (.piece n asked split)))
  have scripts := fun goesOn : o.onCopies = false =>
    lintScripts_reads (I := untouched start l) (o := o) root (by simp_all [ReadsOnly, Options.onCopies])
      (fun asked w hw => admitsWriting_untouched (away _ (hw.2.1 ▸ .backup asked)))
      (fun asked => admitsWriting_untouched (away _ (.report asked)))
      (scriptItems table)
  have work : ⦃fun w => ⌜((untouched start l).unread start).holds w⌝⦄ lintFound o root table
      ⦃post⟨fun _ w => ⌜(untouched start l).holds w⌝, fun _ w => ⌜(untouched start l).holds w⌝⟩⦄ := by
    have rest := triple_of_known scripts
    unfold lintFound
    mvcgen [copies, rest]
  exact (holds_worldAfter work ⟨framed_self rfl, rfl, rfl⟩).2.2

/-! ## Every run -/

def OutputsOnly (o : Options) (root : Path) (w : World) (t : Tree) : Prop :=
  ∀ l, (∀ p, Output o root w.now p → w.tree.locate p ≠ .ok l) → t.entry? l = w.tree.entry? l

/-- A run that is to change nothing changes its outputs only, one that deletes copies the copies of the
scripts it finds, and one that puts copies back those and their scripts. -/
theorem changes_confined (args : List String) {w : World} (scripts : FilesEnding w.tree ".lua")
    (copies : FilesEnding w.tree ".flao-bak") :
    (Ends (chooseTask args) w (fun _ _ => True) ∨ treeAfter args w = w.tree) ∧
      Whenever (chooseTask args) w fun task w₁ =>
        (ReadsOnly task.1 w₁ → OutputsOnly task.1 task.2 w (treeAfter args w)) ∧
        (task.1.deletes → Confirms w₁ →
          CopiesDeleted (discovered task.1 task.2 w₁) w.tree (treeAfter args w)) ∧
        (task.1.reverts → Confirms w₁ →
          CopiesPutBack (discovered task.1 task.2 w₁) w.tree (treeAfter args w)) := by
  refine ⟨?_, whenever_iff.mpr ?_⟩
  · cases chosen : chooseTask args w with
    | error e w₁ => exact .inr (treeAfter_of_no_task chosen)
    | ok task w₁ => exact .inl (ends_iff.mpr ⟨task, w₁, chosen, trivial⟩)
  rintro ⟨o, root⟩ w₁ chosen
  obtain ⟨tree, now, -⟩ := settled_of_task chosen
  rcases treeAfter_of_task chosen with ⟨nothing, same⟩ | ⟨table, w₂, found, all, result⟩
  · rw [nothing, same]
    refine ⟨fun _ _ _ => rfl, fun _ _ => ⟨?_, fun _ _ => rfl⟩, fun _ _ => ⟨?_, ?_, fun _ _ => rfl⟩⟩
    all_goals exact fun _ no => nomatch no
  · obtain ⟨⟨⟨tree₂, now₂, -⟩, calm, unread⟩, named⟩ := of_findScripts found
    have answers : Confirms w₂ ↔ Confirms w₁ := by rw [Confirms, Confirms, calm, unread]
    rw [tree] at tree₂
    rw [now] at now₂
    rw [all, result, ← tree₂]
    refine ⟨fun reads l away => ?_, fun asked yes => ?_, fun asked yes => ?_⟩
    · rw [← tree₂, ← now₂] at away
      refine (lintFound_reads ?_ away).trans (congrArg (Tree.entry? · l) tree₂)
      rwa [ReadsOnly, answers]
    · exact lintFound_deletes asked (answers.mpr yes) named (tree₂ ▸ copies)
    · exact lintFound_restores asked (answers.mpr yes) named (tree₂ ▸ scripts) (tree₂ ▸ copies)

def halfFixed : Tree where
  entries := [(["r"], .directory), (["r", "fxmanifest.lua"], .file (.bytes [])),
    (["r", "a.lua"], .file silenced), (["r", "a.lua.flao-bak"], .file printing),
    (["r", "b.lua"], .file silenced)]

@[irreducible]
def halfFixedWorld : World := worldWith halfFixed "y\n"

theorem halfFixed_confined :
    FilesEnding halfFixedWorld.tree ".lua" ∧ FilesEnding halfFixedWorld.tree ".flao-bak" ∧
      Tree.entry? (treeAfter [".", "--revert"] halfFixedWorld) ["r", "a.lua"] = some (.file printing) ∧
      Tree.entry? (treeAfter [".", "--revert"] halfFixedWorld) ["r", "a.lua.flao-bak"] = none ∧
      Tree.entry? (treeAfter [".", "--revert"] halfFixedWorld) ["r", "b.lua"] =
        some (.file silenced) := by
  have scripts : FilesEnding halfFixedWorld.tree ".lua" := by decide +kernel
  have copies : FilesEnding halfFixedWorld.tree ".flao-bak" := by decide +kernel
  have chosen : Ends (chooseTask [".", "--revert"]) halfFixedWorld fun task w₁ =>
      task.1.reverts ∧ Confirms w₁ ∧ ⟨false, ["r", "a.lua"]⟩ ∈ discovered task.1 task.2 w₁ ∧
        ∀ p ∈ discovered task.1 task.2 w₁, halfFixedWorld.tree.contains (backupOf p) →
          halfFixedWorld.tree.locate p ≠ .ok ["r", "b.lua"] ∧
            halfFixedWorld.tree.locate (backupOf p) ≠ .ok ["r", "b.lua"] := by
    decide +kernel
  obtain ⟨task, w₁, run, asked, yes, found, away⟩ := ends_iff.mp chosen
  obtain ⟨-, -, restores⟩ := (changes_confined _ scripts copies).2.of_ok run
  obtain ⟨script, copy, others⟩ := restores asked yes
  refine ⟨scripts, copies, script _ found _ _ ?_ ?_, copy _ found _ ?_, (others _ away).trans ?_⟩
  all_goals decide +kernel

end LuaTune.Runs
