import LuaTune.Command.Repair
import LuaTune.Proofs.Command.Archives

/-!
# Analyzing, fixing and restoring scripts

Fixing and restoring keep an invariant as soon as fixing a single script and putting back a single
copy do, whatever becomes of the workers.
-/

namespace LuaTune.Command

open Console Files List
open Std.Do

variable {o : Options}

set_option mvcgen.warning false

variable {I : WorldInvariant}

/-! ## Analyzing -/

theorem analyzeItem_spec (o : Options) (s : ScriptItem) : Keeps I (analyzeItem o s) := by
  unfold Keeps analyzeItem
  mvcgen

theorem runFrom_spec {α β : Type} {run : α → Action β} (pool n : Nat) (tasks : List α)
    (h : ∀ x ∈ tasks, Keeps I (run x)) : Keeps I (runFrom pool run n tasks) := by
  induction tasks generalizing n with
  | nil =>
    unfold Keeps runFrom
    mvcgen
  | cons x xs ih =>
    have first := h x mem_cons_self
    have others := ih (n + 1) fun y hy => h y (mem_cons_of_mem x hy)
    unfold Keeps runFrom
    mvcgen [first, others]

theorem collect_spec (o : Options) (total : Nat) (t : Tally)
    (results : List (ScriptItem × Outcome (Except Analysis.Fault (List Finding)))) :
    Keeps I (collect o total t results) := by
  induction results generalizing t with
  | nil =>
    unfold Keeps collect
    mvcgen
  | cons r rs ih =>
    unfold Keeps collect
    mvcgen [ih]

theorem analyzeSingly_spec (o : Options) (total : Nat) (t : Tally) (scripts : List ScriptItem) :
    Keeps I (analyzeSingly o total t scripts) := by
  induction scripts generalizing t with
  | nil =>
    unfold Keeps analyzeSingly
    mvcgen
  | cons s ss ih =>
    unfold Keeps analyzeSingly
    mvcgen [ih, analyzeItem_spec]

@[spec]
theorem startWorkers_spec (o : Options) : Keeps I (startWorkers o) := by
  unfold Keeps startWorkers
  mvcgen

@[spec]
theorem analyzeAll_spec (o : Options) (scripts : List ScriptItem) : Keeps I (analyzeAll o scripts) := by
  have pool := runFrom_spec (I := I) 0 0 scripts fun s _ => analyzeItem_spec o s
  unfold Keeps analyzeAll runPool
  mvcgen [pool, collect_spec, analyzeSingly_spec]

/-! ## Fixing -/

def AdmitsFixing (I : WorldInvariant) (o : Options) (p : Path) : Prop :=
  ∀ w t r, I.holds w → fixFile o.fixOptions w.tree p = .ok (t, r) → I.holds { w with tree := t }

theorem fixItem_spec {p : Path} (h : AdmitsFixing I o p) : Keeps I (fixItem o p) := by
  unfold Keeps fixItem
  mvcgen
  exact h _ _ _ ‹_› ‹_›

@[spec]
theorem noteFixed_spec (o : Options) (r : Repairs) (p : Path) (result : Except FixFault Fix.Fixed) :
    Keeps I (noteFixed o r p result) := by
  unfold Keeps noteFixed
  mvcgen

@[spec]
theorem showFixing_spec (o : Options) (r : Repairs) (total : Nat) : Keeps I (showFixing o r total) := by
  unfold Keeps showFixing
  mvcgen

theorem fixSingly_spec (total : Nat) (r : Repairs) (paths : List Path)
    (h : ∀ p ∈ paths, AdmitsFixing I o p) : Keeps I (fixSingly o total r paths) := by
  induction paths generalizing r with
  | nil =>
    unfold Keeps fixSingly
    mvcgen
  | cons p ps ih =>
    have first := fixItem_spec (h p mem_cons_self)
    have others := fun r => ih r fun q hq => h q (mem_cons_of_mem p hq)
    unfold Keeps fixSingly
    mvcgen [first, others]

theorem collectFixes_spec (o : Options) (total : Nat) (r : Repairs)
    (results : List (Path × Outcome (Except FixFault Fix.Fixed))) :
    Keeps I (collectFixes o total r results) := by
  induction results generalizing r with
  | nil =>
    unfold Keeps collectFixes
    mvcgen
  | cons x xs ih =>
    unfold Keeps collectFixes
    mvcgen [ih]

theorem fixByPool_spec (paths : List Path) (h : ∀ p ∈ paths, AdmitsFixing I o p) :
    Keeps I (fixByPool o paths) := by
  have pool := runFrom_spec 1 0 paths fun p hp => fixItem_spec (h p hp)
  have singly := fun total r (dealt : List Path) =>
    fixSingly_spec total r (paths.filter fun p => !dealt.contains p)
      fun p hp => h p (mem_filter.mp hp).1
  unfold Keeps fixByPool runPool
  mvcgen [pool, collectFixes_spec, singly]

theorem requireBackup_spec (o : Options) (root : Path) (scripts : List ScriptItem)
    (h : ∀ now, AdmitsWriting I (zipPath (backupPath (some root) none now))) :
    Keeps I (requireBackup o root scripts) := by
  unfold Keeps requireBackup
  mvcgen

@[spec]
theorem showSkipped_spec (o : Options) (before : List ScriptItem) : Keeps I (showSkipped o before) := by
  unfold Keeps showSkipped
  mvcgen

theorem unfixed_spec (o : Options) (scripts : List ScriptItem) {Q : Path → Prop}
    (h : ∀ s ∈ scripts, Q s.2) : Yields I (unfixed o scripts) fun paths => ∀ p ∈ paths, Q p := by
  unfold Yields unfixed
  mvcgen
  refine ⟨‹_›, fun p hp => ?_⟩
  obtain ⟨s, hs, rfl⟩ := mem_map.mp hp
  exact h s (mem_filter.mp hs).1

theorem fixPaths_spec (paths : List Path) (h : ∀ p ∈ paths, AdmitsFixing I o p) :
    Keeps I (fixPaths o paths) := by
  have singly := fun total r => fixSingly_spec total r paths h
  have pool := fixByPool_spec paths h
  unfold Keeps fixPaths
  mvcgen [singly, pool]

theorem repairAll_spec (o : Options) (root : Path) (scripts : List ScriptItem)
    (backup : ∀ now, AdmitsWriting I (zipPath (backupPath (some root) none now)))
    (fixing : ∀ s ∈ scripts, AdmitsFixing I o s.2) : Keeps I (repairAll o root scripts) := by
  have require := requireBackup_spec o root scripts backup
  have choose := unfixed_spec (I := I) o scripts fixing
  have fix := fun paths => triple_of_known (fixPaths_spec (I := I) (o := o) paths)
  unfold Keeps repairAll
  mvcgen [require, choose, fix]

/-! ## Copies of scripts -/

def AdmitsRestoring (I : WorldInvariant) (p : Path) : Prop :=
  ∀ w t, I.holds w → w.tree.copy (backupOf p) p = .ok t → I.holds { w with tree := t } ∧
    ∀ t', t.remove (backupOf p) = .ok t' → I.holds { w with tree := t' }

theorem restore_completes {k : Kept} (h : AdmitsRestoring I k.script) (verbose : Bool) :
    Completes I (restore verbose k) := by
  unfold Completes restore tryFiles
  mvcgen [say_completes, -say_spec]
  all_goals have restored := h _ _ ‹I.holds _› ‹Tree.copy _ _ _ = _›
  · exact restored.2 _ ‹_›
  · exact restored.2 _ ‹_›
  · exact restored.1

theorem countDone_completes (complaint : Kept → String) {step : Kept → Action (Option FileError)}
    (kept : List Kept) (h : ∀ k ∈ kept, Completes I (step k)) :
    Completes I (countDone complaint step kept) := by
  induction kept with
  | nil =>
    unfold Completes countDone
    mvcgen
  | cons k ks ih =>
    have first := h k mem_cons_self
    have others := ih fun k' hk => h k' (mem_cons_of_mem k hk)
    unfold Completes countDone
    mvcgen [first, others, say_completes, -say_spec]

/-- A script that is dealt with leaves a mark that the others neither make impossible before its turn
nor remove after it. -/
theorem countDone_reaches {J : WorldInvariant} (complaint : Kept → String)
    {step : Kept → Action (Option FileError)} {kept : List Kept} {k : Kept} (hk : k ∈ kept)
    (before : ∀ k ∈ kept, Completes I (step k))
    (turn : ⦃fun w => ⌜I.holds w⌝⦄ step k ⦃⇓ _ w => ⌜J.holds w⌝⦄)
    (after : ∀ k ∈ kept, Completes J (step k)) :
    ⦃fun w => ⌜I.holds w⌝⦄ countDone complaint step kept ⦃⇓ _ w => ⌜J.holds w⌝⦄ := by
  induction kept with
  | nil => cases hk
  | cons k' ks ih =>
    unfold countDone
    rcases mem_cons.mp hk with rfl | hk
    · have others := countDone_completes complaint ks fun k' hk' =>
        after k' (mem_cons_of_mem k hk')
      have complain := say_completes (I := J)
      mvcgen [turn, others, complain, -say_spec]
    · have first := before k' mem_cons_self
      have others := ih hk (fun k hk => before k (mem_cons_of_mem k' hk))
        fun k hk => after k (mem_cons_of_mem k' hk)
      have complain := say_completes (I := I)
      mvcgen [first, others, complain, -say_spec]

def Confirms (w : World) : Prop := w.interrupts = false ∧
    (Text.strip (w.input.takeWhile (· != '\n'))).map Char.toLower = ['y']

instance (w : World) : Decidable (Confirms w) :=
  inferInstanceAs (Decidable (_ ∧ _))

theorem confirm_spec (reading : I.IgnoresInput) (question : String) (start : World) :
    ⦃fun w => ⌜(I.unread start).holds w⌝⦄
    confirm question
    ⦃post⟨fun _ w => ⌜I.holds w ∧ Confirms start⌝, fun _ w => ⌜I.holds w ∧ ¬Confirms start⌝⟩⦄ := by
  have reply := ask_spec reading question start
  unfold confirm
  mvcgen [reply]
  · exact And.left ‹_›
  · obtain ⟨-, -, rfl⟩ := ‹I.holds _ ∧ _ ∧ _ = List.takeWhile _ _›
    refine ⟨‹_›, fun yes => ?_⟩
    simp [yes.2] at *
  · exact fun hw => ⟨hw, fun yes => by simp_all [yes.2]⟩
  · obtain ⟨hw, calm, rfl⟩ := ‹I.holds _ ∧ _ ∧ _ = List.takeWhile _ _›
    have yes := ‹¬(List.map _ _ != _) = true›
    exact ⟨hw, calm, by simpa using yes⟩
  · rintro hw (interrupted | silent)
    · exact ⟨hw, fun yes => by simp [yes.1] at interrupted⟩
    · refine ⟨hw, fun yes => ?_⟩
      rw [Confirms, silent] at yes
      exact absurd yes.2 (by decide)

theorem cleanBackups_denied (reading : I.IgnoresInput) (kept : List Kept) {start : World}
    (no : ¬Confirms start) :
    ⦃fun w => ⌜(I.unread start).holds w⌝⦄ cleanBackups kept
    ⦃post⟨fun _ w => ⌜I.holds w⌝, fun _ w => ⌜I.holds w⌝⟩⦄ := by
  have ask := fun question => confirm_spec reading question start
  unfold cleanBackups
  mvcgen [ask]
  · exact absurd (And.right ‹I.holds _ ∧ _›) no
  · exact fun hw _ => hw

theorem revert_asked (reading : I.IgnoresInput) (verbose : Bool) (kept : List Kept) (start : World)
    (h : Confirms start → ∀ k ∈ kept, AdmitsRestoring I k.script) :
    ⦃fun w => ⌜(I.unread start).holds w⌝⦄ revert verbose kept
    ⦃post⟨fun _ w => ⌜I.holds w⌝, fun _ w => ⌜I.holds w⌝⟩⦄ := by
  have ask := fun question => confirm_spec reading question start
  have restoring := fun complaint => triple_of_known fun yes : Confirms start =>
    (countDone_completes complaint kept fun k hk => restore_completes (h yes k hk) verbose).keeps
  unfold revert
  mvcgen [ask, restoring]
  exact fun hw _ => hw

end LuaTune.Command
