import LuaTune.Proofs.Command.Printing
import LuaTune.Proofs.Runs.Frames

/-!
# Backups of all scripts

As all scripts can be read, a backup that is started is brought to its end. So until scripts are
fixed each place holds what it held at the start or a whole backup.
-/

namespace LuaTune.Runs

open Command Console Files Recovery Resources Text List
open Std.Do
open Function (update update_self update_of_ne)

variable {t : Tree} {asked : Option String}

set_option mvcgen.warning false

variable {o : Options} {root p archive : Path} {scripts ss : List ScriptItem} {start w : World}
  {l m : Location} {a : Archive}

/-! ## The archive -/

def IsBackup (t : Tree) (root : Path) (scripts : List ScriptItem) (a : Archive) : Prop :=
  List.Forall₂ (fun s e => archiveEntry t s.2 (backupName (some root) s) = .ok e) scripts a

def Present (t : Tree) (scripts : List ScriptItem) : Prop :=
  ∀ s ∈ scripts, isScriptName s.2.name ∧ t.contains s.2

theorem exists_archiveEntry (there : t.contains p) (name : String) :
    ∃ e, archiveEntry t p name = .ok e := by
  obtain ⟨l, e, place, entry⟩ := contains_iff.mp there
  have stat := stat_eq_ok.mpr ⟨l, place, entry⟩
  cases e with
  | directory | file => exact ⟨_, by rw [archiveEntry, stat]⟩

/-- The place holds what it held at the start, or a whole backup. -/
def KeptOrBackup (t : Tree) (root : Path) (scripts : List ScriptItem) (l : Location)
    (e : Option Entry) : Prop :=
  e = t.entry? l ∨ ¬isScriptName (placeName l) ∧
    ∃ a, IsBackup t root scripts a ∧ e = some (.file (.archive a))

def backed (start : World) (root : Path) (scripts : List ScriptItem) : WorldInvariant :=
  framed start fun files => ∀ l, KeptOrBackup start.tree root scripts l (files l)

theorem backed_self : (backed start root scripts).holds start := framed_self fun _ => .inl rfl

theorem backed_script (hw : (backed start root scripts).holds w) (hl : isScriptName (placeName l)) :
    w.tree.entry? l = start.tree.entry? l :=
  (hw.2.2 l).resolve_right fun other => other.1 hl

/-- The archive at a place is being filled, and all other places hold what they held or a backup. -/
def filling (start : World) (root : Path) (scripts : List ScriptItem) (l : Location) (a : Archive) :
    WorldInvariant :=
  framed start fun files => files l = some (.file (.archive a)) ∧
    ∀ m, m ≠ l → KeptOrBackup start.tree root scripts m (files m)

theorem filling_of_backed (hw : (backed start root scripts).holds w)
    (file : w.tree.entry? l ≠ some .directory) (a : Archive) :
    (filling start root scripts l a).holds { w with tree := w.tree.put l (.file (.archive a)) } := by
  refine framed_put hw file ⟨update_self .., fun m hm => ?_⟩
  rw [update_of_ne hm]
  exact hw.2.2 m

theorem filling_put (hw : (filling start root scripts l a).holds w) (b : Archive) :
    (filling start root scripts l b).holds { w with tree := w.tree.put l (.file (.archive b)) } := by
  refine framed_put hw (by rw [hw.2.2.1]; simp) ⟨update_self .., fun m hm => ?_⟩
  rw [update_of_ne hm]
  exact hw.2.2.2 m hm

theorem backed_of_filling (hw : (filling start root scripts l a).holds w)
    (hl : ¬isScriptName (placeName l)) (whole : IsBackup start.tree root scripts a) :
    (backed start root scripts).holds w := by
  refine ⟨hw.1, hw.2.1, fun m => ?_⟩
  by_cases hm : m = l
  · subst hm
    exact .inr ⟨hl, a, whole, hw.2.2.1⟩
  · exact hw.2.2.2 m hm

/-! ## Filling it -/

theorem archiveEntry_filling (hw : (filling start root scripts l a).holds w)
    (hl : ¬isScriptName (placeName l)) (named : isScriptName p.name) {name : String} {e : ArchiveEntry}
    (entry : archiveEntry start.tree p name = .ok e) : archiveEntry w.tree p name = .ok e := by
  unfold archiveEntry at entry
  cases stat : start.tree.stat p with
  | error o => simp [stat] at entry
  | ok e' =>
    obtain ⟨m, place, there⟩ := stat_eq_ok.mp stat
    have hm : isScriptName (placeName m) :=
      placeName_of_locate (isNamed_of_isScriptName named) place ▸ named
    have other : m ≠ l := by
      rintro rfl
      exact hl hm
    have same := (hw.2.2.2 m other).resolve_right fun other => other.1 hm
    have stat' := stat_eq_ok.mpr ⟨m, hw.1.locate place, same.trans there⟩
    rw [archiveEntry, stat', ← entry, stat]

theorem leadsTo_archive (hw : (filling start root scripts l a).holds w) (place : start.tree.locate archive = .ok l)
    (hl : ¬isScriptName (placeName l)) (named : isScriptName p.name) : leadsTo w.tree p archive = false := by
  unfold leadsTo
  split
  · next m m' found found' =>
    obtain rfl := Except.ok.inj ((hw.1.locate place).symm.trans found')
    refine beq_false_of_ne ?_
    rintro rfl
    exact hl (placeName_of_locate (isNamed_of_isScriptName named) found ▸ named)
  · rfl

theorem addEntry_fills (root : Path) (scripts : List ScriptItem)
    (place : start.tree.locate archive = .ok l) (hl : ¬isScriptName (placeName l))
    (named : isScriptName p.name) {name : String} {e : ArchiveEntry}
    (entry : archiveEntry start.tree p name = .ok e) :
    ⦃fun w => ⌜(filling start root scripts l a).holds w⌝⦄ tryFiles (Console.addEntry archive p name)
    ⦃⇓ r w => ⌜r = none ∧ (filling start root scripts l (a ++ [e])).holds w⌝⦄ := by
  refine triple_of_exists_ok fun w hw => ?_
  have here := hw.1.locate place
  have read := read_eq_ok.mpr ⟨l, here, hw.2.2.1⟩
  have file : w.tree.entry? l ≠ some .directory := by
    rw [hw.2.2.1]
    simp
  refine ⟨none, _, tryFiles_of_ok ?_, rfl, filling_put hw (a ++ [e])⟩
  unfold Console.addEntry
  rw [archiveEntry_filling hw hl named entry]
  simp only [bind, Except.bind, read, leadsTo_archive hw place hl named]
  exact write_eq_ok.mpr ⟨l, here, file, rfl⟩

theorem backupScripts_fills (place : start.tree.locate archive = .ok l)
    (hl : ¬isScriptName (placeName l)) (quiet : Bool) (total done : Nat) {b : Archive}
    (whole : IsBackup start.tree root ss b) (named : ∀ s ∈ ss, isScriptName s.2.name) :
    ⦃fun w => ⌜(filling start root scripts l a).holds w⌝⦄
    backupScripts archive (some root) quiet total done ss
    ⦃⇓ r w => ⌜r = none ∧ (filling start root scripts l (a ++ b)).holds w⌝⦄ := by
  induction whole generalizing a done with
  | nil =>
    unfold backupScripts
    mvcgen
    rw [append_nil]
    exact ⟨trivial, ‹_›⟩
  | @cons s e ss b entry _ ih =>
    have add := addEntry_fills (a := a) root scripts place hl (named s mem_cons_self) entry
    have others := ih (a := a ++ [e]) (done + 1) fun s' hs => named s' (mem_cons_of_mem s hs)
    have shown := say_completes (I := filling start root scripts l (a ++ [e]))
    rw [append_assoc, singleton_append] at others
    unfold backupScripts
    mvcgen [add, others, shown, -say_spec, -tryFiles_spec]
    · cases And.left ‹some _ = none ∧ _›
    · exact And.right ‹_›
    · exact And.right ‹_›

theorem not_isScriptName_of_archive (named : HasArchiveName archive)
    (place : start.tree.locate archive = .ok l) : ¬isScriptName (placeName l) := by
  intro script
  rw [placeName_of_locate named.isNamed place] at script
  rw [HasArchiveName, finalSign_scriptName script] at named
  exact absurd named (by decide)

theorem exists_backup (present : Present t scripts) (root : Path) : ∃ a, IsBackup t root scripts a := by
  induction scripts with
  | nil => exact ⟨[], .nil⟩
  | cons s ss ih =>
    obtain ⟨a, whole⟩ := ih fun s' hs => present s' (mem_cons_of_mem s hs)
    obtain ⟨e, entry⟩ := exists_archiveEntry (present s mem_cons_self).2 (backupName (some root) s)
    exact ⟨e :: a, .cons entry whole⟩

theorem writeBackup_fails (root : Path) (quiet : Bool) {e : FileError}
    (failed : startArchive archive w.tree = .error e) :
    writeBackup archive (some root) quiet scripts w = .ok (some e) w := by
  unfold writeBackup
  rw [bind_ok (tryFiles_of_error failed)]
  rfl

theorem writeBackup_made (named : HasArchiveName archive) (present : Present start.tree scripts)
    (quiet : Bool) (hw : (backed start root scripts).holds w)
    (started : startArchive archive w.tree = .ok t) :
    ∃ w', writeBackup archive (some root) quiet scripts w = .ok none w' ∧
      (backed start root scripts).holds w' ∧ ∃ c, w'.tree.read archive = .ok c := by
  obtain ⟨a, whole⟩ := exists_backup present root
  obtain ⟨l, place, file, rfl⟩ := write_eq_ok.mp started
  have place' := hw.1.symm.locate place
  have hl := not_isScriptName_of_archive named place'
  obtain ⟨r, w', run, rfl, filled⟩ := exists_ok_of_triple
    (backupScripts_fills (a := []) place' hl quiet scripts.length 0 whole fun s hs => (present s hs).1)
    (filling_of_backed hw file [])
  have read := read_eq_ok.mpr ⟨l, filled.1.locate place', filled.2.2.1⟩
  refine ⟨w', ?_, backed_of_filling filled hl whole, _, read⟩
  unfold writeBackup
  rw [bind_ok (tryFiles_of_ok started)]
  exact run

theorem writeBackup_backs (named : HasArchiveName archive) (present : Present start.tree scripts)
    (quiet : Bool) (hw : (backed start root scripts).holds w) :
    ∃ r w', writeBackup archive (some root) quiet scripts w = .ok r w' ∧
      (backed start root scripts).holds w' ∧ (r = none → ∃ c, w'.tree.read archive = .ok c) := by
  cases started : startArchive archive w.tree with
  | error e => exact ⟨some e, w, writeBackup_fails root quiet started, hw, fun none => nomatch none⟩
  | ok t =>
    obtain ⟨w', run, hw', stored⟩ := writeBackup_made named present quiet hw started
    exact ⟨none, w', run, hw', fun _ => stored⟩

theorem backupAll_of_writeBackup (filled : scripts.isEmpty = false)
    (named : (backupPath (some root) asked w.now).name.isEmpty = false) (quiet : Bool) :
    ∃ out, ∀ r w', writeBackup (zipPath (backupPath (some root) asked w.now)) (some root) quiet scripts
        { w with output := out } = .ok r w' →
      ∃ out', backupAll scripts asked (some root) quiet w =
        .ok (if r.isNone then some (zipPath (backupPath (some root) asked w.now)) else none)
          { w' with output := out' } := by
  unfold backupAll
  rw [if_neg (by simp [filled]), get_bind]
  generalize backupPath (some root) asked w.now = p at *
  have archived : asArchive p w = .ok (zipPath p) w := by
    rw [asArchive, if_neg (by simp [named])]
    rfl
  rw [bind_ok archived]
  obtain ⟨out₁, said₁⟩ := prints_note quiet ("Creating backup: " ++ (zipPath p).text) w
  rw [bind_ok said₁]
  obtain ⟨out₂, said₂⟩ := prints_note quiet
    ("Backing up " ++ toString scripts.length ++ " script files...") { w with output := out₁ }
  rw [bind_ok said₂]
  refine ⟨out₂, fun r w' run => ?_⟩
  rw [bind_ok run]
  cases r with
  | some e =>
    obtain ⟨out, said⟩ := prints_note quiet ("Backup failed: " ++ e.message) w'
    exact ⟨out, bind_ok said⟩
  | none =>
    obtain ⟨out, said⟩ := prints_note quiet ("Backup complete: " ++ (zipPath p).text ++ " ("
      ++ megabytes (archiveSize w'.tree (zipPath p)) ++ " MB)") w'
    exact ⟨out, (get_bind w').trans (bind_ok said)⟩

theorem backupAll_backs (root : Path) (present : Present start.tree scripts) (asked : Option String)
    (quiet : Bool) :
    ⦃fun w => ⌜(backed start root scripts).holds w⌝⦄ backupAll scripts asked (some root) quiet
    ⦃post⟨fun made w => ⌜(backed start root scripts).holds w ∧ (made.isSome →
        ∃ c, w.tree.read (zipPath (backupPath (some root) asked start.now)) = .ok c)⌝,
      fun _ w => ⌜(backed start root scripts).holds w⌝⟩⦄ := by
  refine triple_of_run fun w hw => ?_
  cases empty : scripts.isEmpty with
  | true =>
    obtain ⟨out, said⟩ := prints_note quiet "No scripts to backup." w
    refine .inl ⟨none, { w with output := out }, ?_, hw, fun some => nomatch some⟩
    unfold backupAll
    rw [if_pos empty, bind_ok said]
    rfl
  | false =>
    rw [← hw.2.1]
    cases nameless : (backupPath (some root) asked w.now).name.isEmpty with
    | true =>
      have stopped : asArchive (backupPath (some root) asked w.now) w =
          .error (.failure (.noName (backupPath (some root) asked w.now))) w := by
        rw [asArchive, if_pos nameless]
        rfl
      refine .inr ⟨.failure (.noName (backupPath (some root) asked w.now)), w, ?_, hw⟩
      unfold backupAll
      rw [if_neg (by simp [empty]), get_bind]
      exact bind_error stopped
    | false =>
      left
      obtain ⟨out, ends⟩ := backupAll_of_writeBackup empty nameless quiet
      obtain ⟨r, w', run, hw', stored⟩ := writeBackup_backs (hasArchiveName_zipPath _) present quiet
        (show (backed start root scripts).holds { w with output := out } from hw)
      obtain ⟨out', made⟩ := ends r w' run
      refine ⟨_, _, made, hw', fun some => stored ?_⟩
      cases r with
      | none => rfl
      | some e => cases some

theorem backupAll_made (filled : scripts.isEmpty = false) (present : Present start.tree scripts)
    (named : (backupPath (some root) asked w.now).name.isEmpty = false) (quiet : Bool)
    (hw : (backed start root scripts).holds w)
    (started : startArchive (zipPath (backupPath (some root) asked w.now)) w.tree = .ok t) :
    ∃ archive w', backupAll scripts asked (some root) quiet w = .ok (some archive) w' ∧
      (backed start root scripts).holds w' := by
  obtain ⟨out, ends⟩ := backupAll_of_writeBackup filled named quiet
  obtain ⟨w', run, hw', -⟩ := writeBackup_made (w := { w with output := out })
    (hasArchiveName_zipPath _) present quiet hw started
  obtain ⟨out', made⟩ := ends none w' run
  exact ⟨_, _, made, hw'⟩

theorem backupAll_fails (filled : scripts.isEmpty = false)
    (named : (backupPath (some root) asked w.now).name.isEmpty = false) (quiet : Bool)
    {e : FileError}
    (failed : startArchive (zipPath (backupPath (some root) asked w.now)) w.tree = .error e) :
    ∃ out, backupAll scripts asked (some root) quiet w = .ok none { w with output := out } := by
  obtain ⟨out, ends⟩ := backupAll_of_writeBackup (w := w) filled named quiet
  have stopped : writeBackup (zipPath (backupPath (some root) asked w.now)) (some root) quiet scripts
      { w with output := out } = .ok (some e) { w with output := out } :=
    writeBackup_fails root quiet failed
  exact ends _ _ stopped

end LuaTune.Runs
