import LuaTune.Proofs.Runs.Backups

/-!
# A backup before the first fix

Before a run fixes scripts it looks for an earlier backup and makes one if it finds none. The root
is read as a pattern there, so what is found may be somewhere else.
-/

namespace LuaTune.Runs

open Command Console Files Recovery Resources Text List
open Std.Do
open Function (update update_self update_of_ne)

variable {asked : Option String}

set_option mvcgen.warning false

variable {o : Options} {root : Path} {scripts : List ScriptItem} {start w : World} {t t' : Tree}
  {name : String} {r : Location}

/-! ## Names of backups -/

def IsBackupName (name : String) : Prop := ∃ middle, name = "fivem-scripts-backup-" ++ middle ++ ".zip"

theorem finalSign_backupName (h : IsBackupName name) : finalSign name = some 'p' := by
  obtain ⟨middle, rfl⟩ := h
  rw [finalSign_append _ (by decide)]
  decide

theorem backupName_not_dots (h : IsBackupName name) : name ≠ ".." := by
  rintro rfl
  exact absurd (finalSign_backupName h) (by decide)

theorem finalSign_backupPlace (r : Location) (h : IsBackupName name) :
    finalSign (placeName (r ++ [name])) = some 'p' := by
  rw [placeName_snoc, finalSign_backupName h]

theorem backup_mem_entries (h : IsBackupName name) {e : Entry}
    (here : t.entry? (r ++ [name]) = some e) : (r ++ [name], e) ∈ t.entries :=
  mem_entries_of_entry here (not_isTopPlace_of_finalSign (finalSign_backupPlace r h) (by decide))

theorem backup_apart (h : IsBackupName name) {l : Location} (hl : isScriptName (placeName l)) :
    r ++ [name] ≠ l ∧ r ++ [name] ≠ copyPlace l := by
  have sign := finalSign_backupPlace r h
  refine ⟨?_, ne_copyPlace_of_finalSign (by rw [sign]; decide)⟩
  rintro rfl
  rw [finalSign_scriptName hl] at sign
  exact absurd sign (by decide)

def BackupIn (t : Tree) (root : Path) : Prop :=
  ∃ name c, IsBackupName name ∧ t.read (root.child name) = .ok c

theorem suffix_of_name {p : Path} {front ending : Chars} (h : p.name.toList = front ++ '.' :: ending)
    (some : front ≠ []) (dotless : '.' ∉ ending) (filled : ending ≠ []) :
    p.suffix = String.ofList ('.' :: ending) := by
  have before := length_pos_iff.mpr some
  have after := length_pos_iff.mpr filled
  have cut : Path.endingStart? p.name.toList = Option.some front.length := by
    rw [Path.endingStart?, h, findLastChar?_append front dotless]
    simp [before, after]
  rw [Path.suffix, cut, h]
  simp

theorem zipPath_backup (middle : String) :
    zipPath (root.child ("fivem-scripts-backup-" ++ middle ++ ".zip")) =
      root.child ("fivem-scripts-backup-" ++ middle ++ ".zip") := by
  have some : ("fivem-scripts-backup-" ++ middle).toList ≠ [] := by
    rw [String.toList_append]
    exact append_ne_nil_of_left_ne_nil (by decide) _
  have cut : (root.child ("fivem-scripts-backup-" ++ middle ++ ".zip")).name.toList =
      ("fivem-scripts-backup-" ++ middle).toList ++ ['.', 'z', 'i', 'p'] := by
    rw [Path.name_child, String.toList_append]
    rfl
  rw [zipPath, suffix_of_name cut some (by decide) (by decide)]
  exact if_pos (by decide +kernel)

theorem zipPath_backupPath (root : Path) (auto : asked = none ∨ asked = some "auto") (now : Moment) :
    ∃ name, IsBackupName name ∧ zipPath (backupPath (some root) asked now) = root.child name := by
  refine ⟨_, ⟨now.fileName, rfl⟩, ?_⟩
  rcases auto with rfl | rfl
  · exact zipPath_backup now.fileName
  · exact zipPath_backup now.fileName

/-! ## Before the first fix -/

/-- The backup that was asked for is made, or there was nothing to find before and now there is a
backup. -/
def ready (start : World) (root : Path) (scripts : List ScriptItem) (asked : Tree) :
    WorldInvariant where
  holds w := (backed start root scripts).holds w ∧
    (w.tree = asked ∨ earlierBackups asked root = [] ∧ BackupIn w.tree root)
  printed _ _ h := h

theorem firstBackup_of_asked (asked : o.backupAll.isEmpty = false) (w : World) :
    firstBackup o root scripts w = .ok true w := by
  unfold firstBackup
  rw [if_pos]
  · rfl
  · simp [asked]

theorem askedBackup_of_none (none : o.backupAll.isEmpty = true) (w : World) :
    askedBackup o root scripts w = .ok () w := by
  unfold askedBackup
  rw [if_neg]
  · rfl
  · simp [none]

theorem ready_of_settled (h : (settled start).holds w) :
    (ready start root scripts start.tree).holds w := by
  refine ⟨⟨fun l => ?_, h.2.1, fun l => .inl ?_⟩, .inl h.1⟩
  · rw [h.1]
  · rw [h.1]

theorem backupIn_of_read (auto : asked = none ∨ asked = some "auto") {now : Moment}
    (h : ∃ c, t.read (zipPath (backupPath (some root) asked now)) = .ok c) : BackupIn t root := by
  obtain ⟨name, named, path⟩ := zipPath_backupPath root auto now
  obtain ⟨c, read⟩ := h
  rw [path] at read
  exact ⟨name, c, named, read⟩

theorem ready_of_made {s : World} (same : (settled start).holds s)
    (missing : ¬(!(earlierBackups s.tree root).isEmpty) = true)
    (auto : asked = none ∨ asked = some "auto") {archive : Path}
    (made : (backed start root scripts).holds w ∧ ((some archive).isSome →
      ∃ c, w.tree.read (zipPath (backupPath (some root) asked start.now)) = .ok c)) :
    (ready start root scripts start.tree).holds w := by
  refine ⟨made.1, .inr ⟨?_, backupIn_of_read auto (made.2 rfl)⟩⟩
  rw [← same.1]
  simpa using missing

theorem firstBackup_readies (o : Options) (root : Path) (present : Present start.tree scripts) :
    ⦃fun w => ⌜(settled start).holds w⌝⦄ firstBackup o root scripts
    ⦃post⟨fun go w => ⌜(ready start root scripts start.tree).holds w ∨
        go = false ∧ (backed start root scripts).holds w⌝,
      fun _ w => ⌜(backed start root scripts).holds w⌝⟩⦄ := by
  have backup := backupAll_backs root present (some "auto") o.quiet
  have warn := sayAll_spec (I := backed start root scripts)
  unfold firstBackup say put
  mvcgen [backup, warn, -backupAll_spec, -sayAll_spec]
  · exact .inl (ready_of_settled ‹_›)
  · exact .inl (ready_of_settled ‹_›)
  · exact (ready_of_settled ‹_›).1
  · exact .inl (ready_of_made ‹_› ‹_› (.inr rfl) ‹_›)
  · exact And.left ‹_›
  · exact .inr ⟨trivial, ‹_›⟩
  · exact (ready_of_settled ‹_›).1
  · exact .inl (ready_of_made ‹_› ‹_› (.inr rfl) ‹_›)
  · exact And.left ‹_›
  · exact .inr ⟨trivial, ‹_›⟩

theorem askedBackup_backs (o : Options) (root : Path) (present : Present start.tree scripts) :
    Keeps (backed start root scripts) (askedBackup o root scripts) := by
  have backup := backupAll_backs root present (some o.backupAll) o.quiet
  unfold Keeps askedBackup
  mvcgen [backup, -backupAll_spec]
  · exact And.left ‹_›
  · exact And.left ‹_›

/-! ## From the first fix on -/

/-- All is done that is done before the first fix. There is a backup in the root exactly if nothing was
found in the place of one, or if one was there. -/
def Secured (start : World) (root : Path) (scripts : List ScriptItem) (asked : Tree) (w : World) :
    Prop :=
  (backed start root scripts).holds w ∧
    (BackupIn w.tree root ↔ earlierBackups asked root = [] ∨ BackupIn asked root)

def finished (start : World) (root : Path) (scripts : List ScriptItem) (asked : Tree) (r : Location) :
    WorldInvariant where
  holds w := ∃ w', Secured start root scripts asked w' ∧
    (framed w' fun files => ∀ name, IsBackupName name →
      files (r ++ [name]) = w'.tree.entry? (r ++ [name])).holds w
  printed _ _ h := h

section

variable {asked : Tree}

theorem finished_of_secured (h : Secured start root scripts asked w) :
    (finished start root scripts asked r).holds w :=
  ⟨w, h, framed_self fun _ _ => rfl⟩

theorem finished_of_found (hw : (ready start root scripts asked).holds w) {first : Path}
    {others : List Path} (found : earlierBackups w.tree root = first :: others) :
    (finished start root scripts asked r).holds w := by
  -- what is found need not be in the root, so there may be no backup there
  refine finished_of_secured ⟨hw.1, ?_⟩
  rcases hw.2 with rfl | ⟨none, made⟩
  · simp [found]
  · simp [none, made]

theorem finished_of_made {s : World} (missing : earlierBackups s.tree root = [])
    (hs : (ready start root scripts asked).holds s) {archive : Path}
    (made : (backed start root scripts).holds w ∧ ((some archive).isSome →
      ∃ c, w.tree.read (zipPath (backupPath (some root) none start.now)) = .ok c)) :
    (finished start root scripts asked r).holds w := by
  refine finished_of_secured ⟨made.1, ?_⟩
  have here := backupIn_of_read (.inl rfl) (made.2 rfl)
  rcases hs.2 with rfl | ⟨none, -⟩
  · simp [here, missing]
  · simp [here, none]

theorem requireBackup_secures (o : Options) (root : Path) (asked : Tree) (r : Location)
    (present : Present start.tree scripts) :
    ⦃fun w => ⌜(ready start root scripts asked).holds w⌝⦄ requireBackup o root scripts
    ⦃post⟨fun _ w => ⌜(finished start root scripts asked r).holds w⌝,
      fun _ w => ⌜(backed start root scripts).holds w⌝⟩⦄ := by
  have backup := backupAll_backs root present none o.quiet
  have warn := sayAll_spec (I := ready start root scripts asked)
  unfold requireBackup say put
  mvcgen [backup, warn, -backupAll_spec, -sayAll_spec]
  · exact finished_of_found ‹_› ‹_›
  · exact finished_of_found ‹_› ‹_›
  · exact And.left ‹_›
  · exact finished_of_made ‹earlierBackups _ _ = []› ‹_› ‹_›
  · exact And.left ‹_ ∧ (none.isSome = true → _)›
  · exact And.left

theorem admitsFixing_finished {p : Path} (named : isScriptName p.name) :
    AdmitsFixing (finished start root scripts asked r) o p := by
  rintro w t x ⟨w', secured, hw⟩ fixed
  refine ⟨w', secured, admitsFixing_framed (fun l files place same name hn => ?_) w t x hw fixed⟩
  have hl := placeName_of_locate (isNamed_of_isScriptName named) place
  obtain ⟨script, copy⟩ := backup_apart (r := r) hn (hl ▸ named)
  rw [Ledger.files_fix_ne script copy]
  exact same name hn

theorem admitsWriting_finished {p : Path}
    (aside : ∀ name, IsBackupName name → start.tree.locate p ≠ .ok (r ++ [name])) :
    AdmitsWriting (finished start root scripts asked r) p := by
  rintro c w t ⟨w', secured, hw⟩ written
  refine ⟨w', secured, admitsWriting_framed (fun l c files place same name hn => ?_) c w t hw written⟩
  rw [update_of_ne _, same name hn]
  rintro rfl
  exact aside name hn (secured.1.1.symm.locate place)

theorem repairAll_finishes (root : Path) (asked : Tree) (r : Location)
    (present : Present start.tree scripts) (backs : o.noFirstBackup = false) :
    ⦃fun w => ⌜(ready start root scripts asked).holds w⌝⦄ repairAll o root scripts
    ⦃post⟨fun _ w => ⌜(finished start root scripts asked r).holds w⌝,
      fun _ w => ⌜(finished start root scripts asked r).holds w ∨
        (backed start root scripts).holds w⌝⟩⦄ := by
  have require := requireBackup_secures o root asked r present
  have fixing : ∀ s ∈ scripts, AdmitsFixing (finished start root scripts asked r) o s.2 :=
    fun s hs => admitsFixing_finished (present s hs).1
  have choose := unfixed_spec (I := finished start root scripts asked r) o scripts fixing
  have fix := fun paths =>
    triple_of_known (fixPaths_spec (I := finished start root scripts asked r) (o := o) paths)
  unfold repairAll say put
  mvcgen [require, choose, fix]
  case vc8.isFalse.pre => simp_all
  · exact id
  · exact .inl
  · exact .inl
  · exact .inr
  · exact id
  · exact .inl
  · exact .inl

/-- Nothing is fixed and each place holds what it held or a backup, or there is a backup in the root as
the pattern decided. -/
def ended (start : World) (root : Path) (scripts : List ScriptItem) (asked : Tree) (r : Location) :
    WorldInvariant where
  holds w := (finished start root scripts asked r).holds w ∨ (backed start root scripts).holds w
  printed _ _ h := h

theorem fixing_ends (root : Path) (asked : Tree) (present : Present start.tree scripts) (fixes : o.fixes)
    (backs : o.noFirstBackup = false)
    (aside : o.report.isEmpty = false → ∀ name, IsBackupName name →
      start.tree.locate (.ofString o.report) ≠ .ok (r ++ [name])) :
    ⦃fun w => ⌜(ready start root scripts asked).holds w⌝⦄
    (do
      startWorkers o
      let t ← analyzeAll o scripts
      let done ← if o.fixes then repairAll o root scripts else pure {}
      showResults o t done)
    ⦃post⟨fun _ w => ⌜(ended start root scripts asked r).holds w⌝,
      fun _ w => ⌜(ended start root scripts asked r).holds w⌝⟩⦄ := by
  have open_ := startWorkers_spec (I := ready start root scripts asked) o
  have analyze := analyzeAll_spec (I := ready start root scripts asked) o scripts
  have repair := repairAll_finishes root asked r present backs
  have results := fun t done => showResults_spec (I := finished start root scripts asked r) (o := o) t done
    fun asked => admitsWriting_finished (aside asked)
  simp only [fixes]
  mvcgen [open_, analyze, repair, results, -startWorkers_spec, -analyzeAll_spec]
  · exact .inl
  · exact .inl
  · exact fun hw => .inr hw.1
  · exact fun hw => .inr hw.1

theorem lintScripts_ends (present : Present start.tree scripts) (fixes : o.fixes)
    (backs : o.noFirstBackup = false)
    (aside : o.report.isEmpty = false → ∀ name, IsBackupName name →
      start.tree.locate (.ofString o.report) ≠ .ok (r ++ [name])) :
    (ended start root scripts (worldAfter (askedBackup o root scripts start)).tree r).holds
      (worldAfter (lintScripts o root scripts start)) := by
  have fixing := fun asked => fixing_ends root asked present fixes backs aside
  unfold lintScripts
  -- the first stage makes no backup if one is asked for, so of the two at most one does anything
  by_cases none : o.backupAll.isEmpty
  · rw [askedBackup_of_none none]
    rcases run_of_triple (firstBackup_readies o root present) (settled_self start) with
      ⟨go, w₁, first, hw₁⟩ | ⟨e, w₁, stopped, hw₁⟩
    · rw [bind_ok first]
      cases go with
      | false => exact .inr (hw₁.elim And.left And.right)
      | true =>
        have hw₁ := hw₁.resolve_right fun no => nomatch no.1
        rw [if_pos rfl, bind_ok (askedBackup_of_none none w₁)]
        exact holds_worldAfter (fixing start.tree) hw₁
    · rw [bind_error stopped]
      exact .inr hw₁
  · have asked : o.backupAll.isEmpty = false := by simpa using none
    rw [bind_ok (firstBackup_of_asked asked start), if_pos rfl]
    rcases run_of_triple (askedBackup_backs o root present) backed_self with
      ⟨u, w₁, made, hw₁⟩ | ⟨e, w₁, stopped, hw₁⟩
    · rw [bind_ok made, made]
      exact holds_worldAfter (fixing w₁.tree) ⟨hw₁, .inl rfl⟩
    · rw [bind_error stopped]
      exact .inr hw₁

end

end LuaTune.Runs
