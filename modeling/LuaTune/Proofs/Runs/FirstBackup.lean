import LuaTune.Proofs.Files.Globs
import LuaTune.Proofs.Runs.Copies
import LuaTune.Proofs.Runs.Safety

/-!
# Scripts change only once they are backed up

A run that fixes scripts leaves a backup of them in the root unless the root, read as a pattern,
leads to something in the place of a backup elsewhere.
-/

namespace LuaTune.Runs

open Command Console Files Recovery Resources Text List

variable {o : Options} {root p : Path} {table : ScriptTable} {start w w₁ w₂ : World} {t t' : Tree}
  {r : Location}

/-! ## Backups in the root -/

theorem backupIn_iff (place : t.locate root = .ok r) (dir : t.entry? r = some .directory) :
    BackupIn t root ↔ ∃ name c, IsBackupName name ∧ t.entry? (r ++ [name]) = some (.file c) := by
  constructor
  · rintro ⟨name, c, named, read⟩
    obtain ⟨l, place', file⟩ := read_eq_ok.mp read
    obtain ⟨r', place'', -, rfl⟩ := (locate_child (backupName_not_dots named)).mp place'
    obtain rfl := Except.ok.inj (place.symm.trans place'')
    exact ⟨name, c, named, file⟩
  · rintro ⟨name, c, named, file⟩
    have place' := (locate_child (backupName_not_dots named)).mpr ⟨r, place, dir, rfl⟩
    exact ⟨name, c, named, read_eq_ok.mpr ⟨_, place', file⟩⟩

theorem backupIn_congr (place : t.locate root = .ok r) (dir : t.entry? r = some .directory)
    (dirs : SameDirectories t t')
    (same : ∀ name, IsBackupName name → t'.entry? (r ++ [name]) = t.entry? (r ++ [name])) :
    BackupIn t' root ↔ BackupIn t root := by
  rw [backupIn_iff place dir, backupIn_iff (dirs.locate place) ((dirs r).mp dir)]
  constructor
  · rintro ⟨name, c, named, file⟩
    exact ⟨name, c, named, (same name named).symm.trans file⟩
  · rintro ⟨name, c, named, file⟩
    exact ⟨name, c, named, (same name named).trans file⟩

/-- The pattern finds nothing, or there is a backup in the root. -/
def PatternAgrees (t : Tree) (root : Path) : Prop := earlierBackups t root = [] ∨ BackupIn t root

def BackupsAreFiles (t : Tree) (root : Path) : Prop :=
  ∀ name, IsBackupName name → ¬t.isDirectory (root.child name)

theorem patternAgrees_of_plain (plain : root.IsPlain) (files : BackupsAreFiles t root) :
    PatternAgrees t root := by
  cases found : earlierBackups t root with
  | nil => exact .inl found
  | cons q qs =>
    right
    -- without wildcards in the root what is found is a child of the root
    have hq : q ∈ earlierBackups t root := by simp [found]
    obtain ⟨dir, name, listed, -, passed⟩ :=
      child_of_mem_matching (by decide) (mem_matching_of_mem_glob plain hq)
    obtain ⟨middle, cut⟩ :=
      eq_of_matches_star "fivem-scripts-backup-".toList ".zip".toList passed
    have named : IsBackupName name := by
      refine ⟨String.ofList middle, String.toList_inj.mp ?_⟩
      rw [cut]
      simp
    obtain ⟨l, e, place, there⟩ :=
      contains_iff.mp (contains_child dir listed (backupName_not_dots named))
    cases e with
    | directory => exact absurd (isDirectory_iff.mpr ⟨l, place, there⟩) (files name named)
    | file c => exact ⟨name, c, named, read_eq_ok.mpr ⟨l, place, there⟩⟩

/-! ## What is backed up -/

/-- The archive has each script under its path below the root. -/
def HoldsAll (t : Tree) (root : Path) (scripts : List Path) (a : Archive) : Prop :=
  ∀ p ∈ scripts, ∃ rel c, p.relativeTo? root = some rel ∧ t.read p = .ok c ∧
    ⟨entryName rel.text, c.toBytes⟩ ∈ a

/-- There is a backup in the root, and if there was none before, one with all the scripts. -/
def SafelyBackedUp (root : Path) (scripts : List Path) (t t' : Tree) : Prop :=
  BackupIn t' root ∧ (¬BackupIn t root → ∃ name a, IsBackupName name ∧
    t'.read (root.child name) = .ok (.archive a) ∧ HoldsAll t root scripts a)

def Sound (t : Tree) (root : Path) (table : ScriptTable) : Prop :=
  ∀ p ∈ table.flatMap (·.2), isScriptName p.name ∧ IsFound t root p

theorem sound_of_findScripts (found : findScripts o root w₁ = .ok table w₂)
    (dir : w₁.tree.isDirectory root) : Sound w₁.tree root table := by
  intro p hp
  refine ⟨(of_findScripts found).2.mem hp, ?_⟩
  obtain ⟨e, he, hp⟩ := mem_flatMap.mp hp
  exact isFound_of_mem_scriptsAt dir e (findScripts_subset found he) p hp

theorem Sound.present (h : Sound t root table) : Present t (scriptItems table) := by
  intro s hs
  have hp : s.2 ∈ table.flatMap (·.2) := map_scriptItems table ▸ mem_map_of_mem hs
  obtain ⟨named, found⟩ := h s.2 hp
  exact ⟨named, found.there⟩

theorem IsBackup.exists_entry {scripts : List ScriptItem} {a : Archive}
    (h : IsBackup t root scripts a) {s : ScriptItem} (hs : s ∈ scripts) :
    ∃ e ∈ a, archiveEntry t s.2 (backupName (some root) s) = .ok e := by
  induction h with
  | nil => cases hs
  | @cons s' e ss a entry _ ih =>
    rcases mem_cons.mp hs with rfl | hs
    · exact ⟨e, mem_cons_self, entry⟩
    · obtain ⟨e', he, entry'⟩ := ih hs
      exact ⟨e', mem_cons_of_mem e he, entry'⟩

theorem IsBackup.holdsAll {a : Archive} (h : IsBackup t root (scriptItems table) a)
    (sound : Sound t root table) (scripts : FilesEnding t ".lua") :
    HoldsAll t root (table.flatMap (·.2)) a := by
  intro p hp
  obtain ⟨named, below, there⟩ := sound p hp
  obtain ⟨rel, relative⟩ := below.relativeTo?
  rw [← map_scriptItems] at hp
  obtain ⟨s, hs, rfl⟩ := mem_map.mp hp
  obtain ⟨e, he, entry⟩ := h.exists_entry hs
  obtain ⟨l, e', place, here⟩ := contains_iff.mp there
  cases e' with
  | directory =>
    have hl := placeName_of_locate (isNamed_of_isScriptName named) place
    exact absurd here (scripts.script (hl ▸ named))
  | file c =>
    have name : backupName (some root) s = rel.text := by
      rw [backupName, Option.bind_some, relative]
    rw [archiveEntry, stat_eq_ok.mpr ⟨l, place, here⟩, name] at entry
    exact ⟨rel, c, relative, read_eq_ok.mpr ⟨l, place, here⟩, Except.ok.inj entry ▸ he⟩

/-! ## Runs -/

def ScriptsChange (t t' : Tree) : Prop := ∃ l, isScriptName (placeName l) ∧ t'.entry? l ≠ t.entry? l

/-- The report is not written over a backup in the root. -/
def ReportAside (o : Options) (root : Path) (t : Tree) : Prop :=
  o.report.isEmpty = false → ∀ r, t.locate root = .ok r → ∀ name, IsBackupName name →
    t.locate (.ofString o.report) ≠ .ok (r ++ [name])

def withAskedBackup (o : Options) (root : Path) (w : World) : Tree :=
  match findScripts o root w with
  | .ok table w₂ => (worldAfter (askedBackup o root (scriptItems table) w₂)).tree
  | .error _ w₂ => w₂.tree

theorem safelyBackedUp_of_finished {asked : Tree} (place : start.tree.locate root = .ok r)
    (dir : start.tree.entry? r = some .directory) (sound : Sound start.tree root table)
    (scripts : FilesEnding start.tree ".lua")
    (h : (finished start root (scriptItems table) asked r).holds w) :
    SafelyBackedUp root (table.flatMap (·.2)) start.tree w.tree ↔ PatternAgrees asked root := by
  obtain ⟨w', ⟨backed, decided⟩, frame⟩ := h
  have dirs := backed.1.trans frame.1
  have before := backupIn_iff place dir
  have place' := backed.1.locate place
  have dir' := (backed.1 r).mp dir
  have kept := backupIn_congr place' dir' frame.1 frame.2.2
  rw [PatternAgrees, ← decided, ← kept]
  refine ⟨And.left, fun there => ⟨there, fun none => ?_⟩⟩
  obtain ⟨name, c, named, file⟩ := (backupIn_iff place' dir').mp (kept.mp there)
  have file' := (frame.2.2 name named).trans file
  -- what is there now was not there before, so it is a backup
  rcases backed.2.2 (r ++ [name]) with same | ⟨-, a, whole, archive⟩
  · exact absurd (before.mpr ⟨name, c, named, same.symm.trans file⟩) none
  · obtain rfl : c = .archive a := by simpa [file] using archive
    have read := (locate_child (backupName_not_dots named)).mpr
      ⟨r, dirs.locate place, (dirs r).mp dir, rfl⟩
    exact ⟨name, a, named, read_eq_ok.mpr ⟨_, read, file'⟩, whole.holdsAll sound scripts⟩

theorem lintFound_backsUp (fixes : o.fixes) (backs : o.noFirstBackup = false)
    (off : o.onCopies = false) (dir : start.tree.isDirectory root) (sound : Sound start.tree root table)
    (scripts : FilesEnding start.tree ".lua") (aside : ReportAside o root start.tree)
    (changed : ScriptsChange start.tree (worldAfter (lintFound o root table start)).tree) :
    SafelyBackedUp root (table.flatMap (·.2)) start.tree
        (worldAfter (lintFound o root table start)).tree ↔
      PatternAgrees (worldAfter (askedBackup o root (scriptItems table) start)).tree root := by
  obtain ⟨r, place, here⟩ := isDirectory_iff.mp dir
  rw [lintFound_of_off off] at changed ⊢
  rcases lintScripts_ends sound.present fixes backs (fun asked => aside asked r place) with done | same
  · exact safelyBackedUp_of_finished place here sound scripts done
  · -- a run that gave up before the first fix changed no script
    obtain ⟨l, named, differs⟩ := changed
    exact absurd (backed_script same named) differs

theorem backupsAreFiles_asked (files : BackupsAreFiles start.tree root)
    (present : Present start.tree (scriptItems table)) :
    BackupsAreFiles (worldAfter (askedBackup o root (scriptItems table) start)).tree root := by
  intro name named dir
  have dirs := (holds_worldAfter (askedBackup_backs o root present) backed_self).1
  obtain ⟨l, place, here⟩ := isDirectory_iff.mp dir
  exact files name named (isDirectory_iff.mpr ⟨l, dirs.symm.locate place, (dirs l).mpr here⟩)

theorem lintFound_makes_none (asked : o.reverts) (yes : Confirms start) (named : NamesScripts table)
    (scripts : FilesEnding start.tree ".lua") (dir : start.tree.isDirectory root) {found : List Path} :
    SafelyBackedUp root found start.tree (worldAfter (lintFound o root table start)).tree ↔
      BackupIn start.tree root := by
  obtain ⟨r, place, here⟩ := isDirectory_iff.mp dir
  have frame := lintFound_framed
    (P := fun files => ∀ name, IsBackupName name → files (r ++ [name]) = start.tree.entry? (r ++ [name]))
    asked yes named (scripts.keptAreFiles named) root (fun _ _ => rfl) ?_
  · rw [SafelyBackedUp, backupIn_congr place here frame.1 frame.2.2]
    exact ⟨And.left, fun there => ⟨there, fun none => absurd there none⟩⟩
  · intro k hk l c files _ hl copy same
    have written : ∀ name, IsBackupName name →
        Function.update files l (some (.file c)) (r ++ [name]) = start.tree.entry? (r ++ [name]) := by
      intro name hn
      rw [Function.update_of_ne (backup_apart hn hl).1, same name hn]
    refine ⟨written, fun name hn => ?_⟩
    rw [putBack, Function.update_of_ne (backup_apart hn hl).2, written name hn]

/-- A run that fixes scripts and changes one leaves a backup of all scripts in the root exactly if what
the pattern finds is there, so always if the root has no wildcards. Putting copies back instead makes
no backup. -/
theorem changes_backedUp (args : List String) {w : World} (scripts : FilesEnding w.tree ".lua")
    (changed : ScriptsChange w.tree (treeAfter args w)) :
    Ends (chooseTask args) w fun task w₁ =>
      task.1.fixes → task.1.noFirstBackup = false → w.tree.isDirectory task.2 →
        (task.1.onCopies = false → ReportAside task.1 task.2 w.tree →
          (SafelyBackedUp task.2 (discovered task.1 task.2 w₁) w.tree (treeAfter args w) ↔
            PatternAgrees (withAskedBackup task.1 task.2 w₁) task.2) ∧
          (task.2.IsPlain → BackupsAreFiles w.tree task.2 →
            SafelyBackedUp task.2 (discovered task.1 task.2 w₁) w.tree (treeAfter args w))) ∧
        (task.1.reverts → Confirms w₁ →
          (SafelyBackedUp task.2 (discovered task.1 task.2 w₁) w.tree (treeAfter args w) ↔
            BackupIn w.tree task.2)) := by
  have differs : treeAfter args w ≠ w.tree := by
    obtain ⟨l, -, differs⟩ := changed
    exact fun same => differs (congrArg (Tree.entry? · l) same)
  rw [ends_iff]
  cases chosen : chooseTask args w with
  | error e w₁ => exact absurd (treeAfter_of_no_task chosen) differs
  | ok task w₁ =>
  obtain ⟨o, root⟩ := task
  refine ⟨(o, root), w₁, rfl, fun fixes backs dir => ?_⟩
  simp only at fixes backs dir ⊢
  have tree := (settled_of_task chosen).1
  rcases treeAfter_of_task chosen with ⟨-, same⟩ | ⟨table, w₂, found, all, result⟩
  · exact absurd same differs
  obtain ⟨⟨⟨tree₂, -⟩, calm, unread⟩, named⟩ := of_findScripts found
  have sound := sound_of_findScripts found (tree ▸ dir)
  have asked : withAskedBackup o root w₁ =
      (worldAfter (askedBackup o root (scriptItems table) w₂)).tree := by
    rw [withAskedBackup, found]
  rw [← tree₂] at sound
  rw [tree] at tree₂
  rw [result, ← tree₂] at changed
  rw [← tree₂] at dir scripts
  rw [all, result, asked, ← tree₂]
  refine ⟨fun off aside => ?_, fun reverts yes => ?_⟩
  · have decided := lintFound_backsUp fixes backs off dir sound scripts aside changed
    refine ⟨decided, fun plain files => decided.mpr (patternAgrees_of_plain plain ?_)⟩
    exact backupsAreFiles_asked files sound.present
  · have yes₂ : Confirms w₂ := by rwa [Confirms, calm, unread]
    exact lintFound_makes_none reverts yes₂ named scripts dir

def resourceIn (root : String) : Tree where
  entries := [([root], .directory), ([root, "r"], .directory),
    ([root, "r", "fxmanifest.lua"], .file (.bytes [])), ([root, "r", "a.lua"], .file printing),
    (["q"], .directory), (["q", "fivem-scripts-backup-1.zip"], .file (.bytes []))]

@[irreducible]
def plainWorld : World := worldWith (resourceIn "qb") ""

@[irreducible]
def bracketWorld : World := worldWith (resourceIn "[qb]") ""

theorem backupsAreFiles_of_entries
    (h : ∀ e ∈ t.entries, e.2 = .directory → finalSign (placeName e.1) ≠ some 'p') :
    BackupsAreFiles t root := by
  intro name named dir
  obtain ⟨l, place, here⟩ := isDirectory_iff.mp dir
  obtain ⟨r, -, -, rfl⟩ := (locate_child (backupName_not_dots named)).mp place
  exact h _ (backup_mem_entries named here) rfl (finalSign_backupPlace r named)

theorem plain_backedUp :
    FilesEnding plainWorld.tree ".lua" ∧
      ScriptsChange plainWorld.tree (treeAfter ["qb", "--fix-debug"] plainWorld) ∧
      Ends (chooseTask ["qb", "--fix-debug"]) plainWorld fun task w₁ =>
        SafelyBackedUp task.2 (discovered task.1 task.2 w₁) plainWorld.tree
          (treeAfter ["qb", "--fix-debug"] plainWorld) := by
  have scripts : FilesEnding plainWorld.tree ".lua" := by decide +kernel
  have changed : ScriptsChange plainWorld.tree (treeAfter ["qb", "--fix-debug"] plainWorld) :=
    ⟨["qb", "r", "a.lua"], by decide +kernel, by decide +kernel⟩
  have chosen : Ends (chooseTask ["qb", "--fix-debug"]) plainWorld fun task w₁ =>
      task.1.fixes ∧ task.1.noFirstBackup = false ∧ plainWorld.tree.isDirectory task.2 ∧
        task.1.onCopies = false ∧ task.1.report.isEmpty ∧ task.2 = ⟨false, ["qb"]⟩ := by
    decide +kernel
  refine ⟨scripts, changed, ?_⟩
  obtain ⟨task, w₁, run, fixes, backs, dir, off, none, root⟩ := ends_iff.mp chosen
  obtain ⟨task', w', run', safe⟩ := ends_iff.mp (changes_backedUp _ scripts changed)
  obtain ⟨rfl, rfl⟩ := EStateM.Result.ok.inj (run.symm.trans run')
  have aside : ReportAside task.1 task.2 plainWorld.tree := fun asked => by simp [none] at asked
  have plain : task.2.IsPlain := by
    rw [root]
    unfold Path.IsPlain
    decide
  refine ends_iff.mpr ⟨task, w₁, run, ((safe fixes backs dir).1 off aside).2 plain ?_⟩
  exact backupsAreFiles_of_entries (by decide +kernel)

theorem not_backupIn_of_entries (place : t.locate root = .ok r)
    (h : ∀ e ∈ t.entries, e.1.dropLast = r → finalSign (placeName e.1) ≠ some 'p') :
    ¬BackupIn t root := by
  rintro ⟨name, c, named, read⟩
  obtain ⟨l, place', here⟩ := read_eq_ok.mp read
  obtain ⟨r', place'', -, rfl⟩ := (locate_child (backupName_not_dots named)).mp place'
  obtain rfl := Except.ok.inj (place.symm.trans place'')
  exact h _ (backup_mem_entries named here) dropLast_concat (finalSign_backupPlace r named)

/-- The root of the brackets is a pattern that leads to the other directory. -/
theorem brackets_not_backedUp :
    FilesEnding bracketWorld.tree ".lua" ∧
      (Ends (chooseTask ["[qb]", "--fix-debug"]) bracketWorld fun task _ =>
        task.1.fixes ∧ task.1.noFirstBackup = false ∧ bracketWorld.tree.isDirectory task.2 ∧
          task.2 = ⟨false, ["[qb]"]⟩) ∧
      ScriptsChange bracketWorld.tree (treeAfter ["[qb]", "--fix-debug"] bracketWorld) ∧
      ¬BackupIn (treeAfter ["[qb]", "--fix-debug"] bracketWorld) ⟨false, ["[qb]"]⟩ := by
  refine ⟨by decide +kernel, by decide +kernel, ?_, ?_⟩
  · exact ⟨["[qb]", "r", "a.lua"], by decide +kernel, by decide +kernel⟩
  · have place : Tree.locate (treeAfter ["[qb]", "--fix-debug"] bracketWorld) ⟨false, ["[qb]"]⟩ =
        .ok ["[qb]"] := by
      decide +kernel
    exact not_backupIn_of_entries place (by decide +kernel)

end LuaTune.Runs
