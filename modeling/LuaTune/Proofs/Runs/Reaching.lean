import LuaTune.Proofs.Command.Tallies
import LuaTune.Proofs.Runs.Repairs
import LuaTune.Proofs.Runs.Safety

/-!
# When a run comes to its fixes

A run goes on to its fixes exactly if it finds a backup or there is room for one below its path, or
if it was told not to care.
-/

namespace LuaTune.Runs

open Command Console Files Recovery Resources Text
open Std.Do

set_option mvcgen.warning false

variable {o : Options} {root : Path} {scripts : List ScriptItem} {start w : World} {t t' : Tree}
  {asked : Option String}

/-! ## Room for the first backup -/

def HasRoom (t : Tree) (root : Path) (now : Moment) : Prop :=
  ∃ t', startArchive (zipPath (backupPath (some root) none now)) t = .ok t'

theorem hasRoom_iff {now : Moment} : HasRoom t root now ↔
    ∃ l, t.locate (zipPath (backupPath (some root) none now)) = .ok l ∧
      t.entry? l ≠ some .directory := by
  constructor
  · rintro ⟨t', started⟩
    obtain ⟨l, place, file, -⟩ := write_eq_ok.mp started
    exact ⟨l, place, file⟩
  · rintro ⟨l, place, file⟩
    exact ⟨_, write_eq_ok.mpr ⟨l, place, file, rfl⟩⟩

theorem HasRoom.congr {now : Moment} (h : HasRoom t root now) (dirs : SameDirectories t t') :
    HasRoom t' root now := by
  obtain ⟨l, place, file⟩ := hasRoom_iff.mp h
  exact hasRoom_iff.mpr ⟨l, dirs.locate place, fun dir => file ((dirs l).mpr dir)⟩

theorem backupPath_eq (root : Path)
    (auto : asked = none ∨ asked = some "auto") (now : Moment) :
    backupPath (some root) asked now =
      root.child ("fivem-scripts-backup-" ++ now.fileName ++ ".zip") := by
  rcases auto with rfl | rfl
  · rfl
  · rfl

theorem backupPath_named (root : Path)
    (auto : asked = none ∨ asked = some "auto") (now : Moment) :
    (backupPath (some root) asked now).name.isEmpty = false := by
  rw [backupPath_eq root auto, Path.name_child]
  simp

def Securable (t : Tree) (root : Path) (now : Moment) : Prop :=
  earlierBackups t root ≠ [] ∨ HasRoom t root now

/-- Nothing but backups was written, and there is room for another one. -/
def roomy (start : World) (root : Path) (scripts : List ScriptItem) : WorldInvariant where
  holds w := (backed start root scripts).holds w ∧ HasRoom w.tree root w.now
  printed _ _ h := h

def securable (start : World) (root : Path) (scripts : List ScriptItem) : WorldInvariant where
  holds w := (backed start root scripts).holds w ∧ Securable w.tree root w.now
  printed _ _ h := h

theorem roomy_of_missing (h : (securable start root scripts).holds w)
    (missing : earlierBackups w.tree root = []) : (roomy start root scripts).holds w :=
  ⟨h.1, h.2.resolve_left fun found => found missing⟩

/-! ## Workers -/

theorem workerCount_lt_one : workerCount o w < 1 ↔ o.workers < 0 := by
  unfold workerCount
  grind

/-- Opening the pool fails exactly if a negative number of workers is asked for. -/
theorem startWorkers_eq (o : Options) (w : World) : ∃ out, startWorkers o w =
    if o.workers < 0 then fail .noWorkers { w with output := out }
    else .ok () { w with output := out } := by
  obtain ⟨out, announced⟩ :=
    prints_note o.quiet ("Analyzing with " ++ toString (workerCount o w) ++ " workers...") w
  refine ⟨out, ?_⟩
  unfold startWorkers
  rw [get_bind, bind_ok announced]
  simp only [workerCount_lt_one]
  split
  · rfl
  · rfl

/-! ## With room -/

section

variable (filled : scripts.isEmpty = false) (present : Present start.tree scripts)

include filled present

theorem backupAll_goes (root : Path) (auto : asked = none ∨ asked = some "auto")
    (quiet : Bool) :
    ⦃fun w => ⌜(roomy start root scripts).holds w⌝⦄ backupAll scripts asked (some root) quiet
    ⦃⇓ made w => ⌜made.isSome ∧ (securable start root scripts).holds w⌝⦄ := by
  refine triple_of_run fun w ⟨hw, room⟩ => .inl ?_
  have ⟨t, started⟩ := room
  rw [backupPath_eq root (.inl rfl), ← backupPath_eq root auto] at started
  obtain ⟨archive, w', made, hw'⟩ :=
    backupAll_made filled present (backupPath_named root auto w.now) quiet hw started
  refine ⟨some archive, w', made, rfl, hw', .inr ?_⟩
  rw [hw'.2.1, ← hw.2.1]
  exact room.congr (hw.1.symm.trans hw'.1)

theorem firstBackup_goes (o : Options) (root : Path) :
    ⦃fun w => ⌜(securable start root scripts).holds w⌝⦄ firstBackup o root scripts
    ⦃⇓ go w => ⌜go = true ∧ (securable start root scripts).holds w⌝⦄ := by
  have backup := backupAll_goes filled present root (.inr rfl) o.quiet
  have warn := fun ss => (prints_sayAll ss).completes (I := roomy start root scripts)
  unfold firstBackup say put
  mvcgen [backup, warn, -backupAll_spec, -sayAll_spec]
  · exact roomy_of_missing ‹_› (by simp_all)
  · simp_all
  · simp_all
  · exact roomy_of_missing ‹_› (by simp_all)
  · simp_all
  · simp_all

theorem requireBackup_goes (o : Options) (root : Path) :
    ⦃fun w => ⌜(securable start root scripts).holds w⌝⦄ requireBackup o root scripts ⦃⇓ _ => ⌜True⌝⦄ := by
  have backup := backupAll_goes filled present root (.inl rfl) o.quiet
  have warn := fun ss => (prints_sayAll ss).completes (I := roomy start root scripts)
  unfold requireBackup say put
  mvcgen [backup, warn, -backupAll_spec, -sayAll_spec]
  · exact roomy_of_missing ‹_› ‹_›
  · simp_all

theorem prepare_goes (unasked : o.backupAll.isEmpty) (manned : 0 ≤ o.workers)
    (hw : (backed start root scripts).holds w) (can : o.noFirstBackup ∨ Securable w.tree root w.now) :
    Ends (prepare o root scripts) w fun t _ => t.isSome := by
  have first : ∃ w₁, firstBackup o root scripts w = .ok true w₁ ∧
      (o.noFirstBackup ∨ (securable start root scripts).holds w₁) := by
    rcases can with skipped | can
    · refine ⟨w, ?_, .inl skipped⟩
      unfold firstBackup
      rw [if_pos (by simp [skipped])]
      rfl
    · obtain ⟨go, w₁, first, rfl, hw₁⟩ :=
        exists_ok_of_triple (firstBackup_goes filled present o root) ⟨hw, can⟩
      exact ⟨w₁, first, .inr hw₁⟩
  obtain ⟨w₁, first, secured⟩ := first
  obtain ⟨out, started⟩ := startWorkers_eq o w₁
  rw [if_neg (by omega)] at started
  obtain ⟨arrived, out', analyzed, -⟩ := analyzeAll_ends o scripts { w₁ with output := out }
  unfold prepare
  rw [ends_iff, bind_ok first, if_pos rfl, bind_ok (askedBackup_of_none unasked w₁), bind_ok started,
    bind_ok analyzed]
  cases skipped : o.noFirstBackup with
  | true => exact ⟨some _, _, rfl, rfl⟩
  | false =>
    -- the backup is looked for again, and with wildcards in the root it may be missed and made again
    have hw₁ := secured.resolve_left (by simp [skipped])
    obtain ⟨u, w₂, required, -⟩ := exists_ok_of_triple (requireBackup_goes filled present o root)
      (show (securable start root scripts).holds { w₁ with output := out' } from hw₁)
    exact ⟨some _, w₂, bind_ok required, rfl⟩

end

/-! ## Without room -/

theorem backupAll_stops (filled : scripts.isEmpty = false) (full : ¬HasRoom start.tree root start.now)
    (quiet : Bool) :
    ⦃fun w => ⌜(settled start).holds w⌝⦄ backupAll scripts (some "auto") (some root) quiet
    ⦃⇓ made w => ⌜made = none ∧ (settled start).holds w⌝⦄ := by
  refine triple_of_run fun w hw => .inl ?_
  cases started : startArchive (zipPath (backupPath (some root) (some "auto") w.now)) w.tree with
  | ok t =>
    rw [hw.1, hw.2.1] at started
    exact absurd ⟨t, started⟩ full
  | error e =>
    obtain ⟨out, failed⟩ := backupAll_fails filled (backupPath_named root (.inr rfl) w.now) quiet started
    exact ⟨none, _, failed, rfl, hw⟩

theorem prepare_stops (filled : scripts.isEmpty = false) (fixes : o.fixes)
    (wanted : o.noFirstBackup = false) (unasked : o.backupAll.isEmpty)
    (never : ¬Securable w.tree root w.now) :
    ∃ w', prepare o root scripts w = .ok none w' ∧ w'.tree = w.tree := by
  obtain ⟨missing, full⟩ := not_or.mp never
  have missing : earlierBackups w.tree root = [] := not_not.mp missing
  have first : ⦃fun v => ⌜(settled w).holds v⌝⦄ firstBackup o root scripts
      ⦃⇓ go v => ⌜go = false ∧ (settled w).holds v⌝⦄ := by
    have backup := backupAll_stops filled full o.quiet
    have warn := fun ss => (prints_sayAll ss).completes (I := settled w)
    unfold firstBackup say put
    mvcgen [backup, warn, -backupAll_spec, -sayAll_spec] <;> simp_all [settled]
  obtain ⟨go, w', stopped, rfl, same⟩ := exists_ok_of_triple first (settled_self w)
  refine ⟨w', ?_, same.1⟩
  unfold prepare
  rw [bind_ok stopped]
  rfl

theorem prepare_unmanned (few : o.workers < 0) {t : Option Tally} {w' : World}
    (done : prepare o root scripts w = .ok t w') : t = none := by
  have start := startWorkers_eq o
  simp only [if_pos few] at start
  unfold prepare at done
  cases first : firstBackup o root scripts w with
  | error e w₁ =>
    rw [bind_error first] at done
    cases done
  | ok go w₁ =>
    rw [bind_ok first] at done
    cases go with
    | false => exact (EStateM.Result.ok.inj done).1.symm
    | true =>
      rw [if_pos rfl] at done
      cases asked : askedBackup o root scripts w₁ with
      | error e w₂ =>
        rw [bind_error asked] at done
        cases done
      | ok u w₂ =>
        obtain ⟨out, failed⟩ := start w₂
        rw [bind_ok asked, bind_error failed] at done
        cases done

end LuaTune.Runs
