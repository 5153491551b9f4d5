import LuaTune.Proofs.Runs.Frames

/-!
# Deleting copies and putting them back

A script may be found twice; its copy is gone the second time, and that changes nothing.
-/

namespace LuaTune.Runs

open Command Console Files Recovery Resources Text
open Std.Do
open Function (update update_self update_of_ne)

set_option mvcgen.warning false

variable {o : Options} {root p : Path} {table : ScriptTable} {start : World} {l m : Location}
  {c : Content}

/-! ## Work on copies -/

section Confirmed

variable {I J : WorldInvariant} {kept : List Kept}

theorem confirmed_works {question : String} {complaint : Kept → String} {message : Nat → String}
    {step : Kept → Action (Option FileError)} (reading : I.IgnoresInput) (yes : Confirms start)
    (reaches : ⦃fun w => ⌜I.holds w⌝⦄ countDone complaint step kept ⦃⇓ _ w => ⌜J.holds w⌝⦄) :
    ⦃fun w => ⌜(I.unread start).holds w⌝⦄
    (do confirm question; let n ← countDone complaint step kept; say (message n))
    ⦃⇓ _ w => ⌜J.holds w⌝⦄ := by
  have ask := confirm_spec reading question start
  have goesOn := say_completes (I := J)
  mvcgen [ask, reaches, goesOn, -say_spec]
  · exact And.left ‹_›
  · exact fun _ _ no => absurd yes no

def copyStep (o : Options) : Kept → Action (Option FileError) :=
  if o.cleanBackups then fun k => tryFiles fun t => t.remove k.copy else restore o.verbose

theorem copyStep_of_deletes (asked : o.deletes) :
    copyStep o = fun k => tryFiles fun t => t.remove k.copy := by
  simp_all [copyStep, Options.deletes]

theorem copyStep_of_reverts (asked : o.reverts) : copyStep o = restore o.verbose := by
  simp_all [copyStep, Options.reverts]

theorem lintFound_works (reading : I.IgnoresInput) (asked : o.deletes ∨ o.reverts)
    (yes : Confirms start) (here : I.holds start)
    (reaches : ∀ complaint, ⦃fun w => ⌜I.holds w⌝⦄
      countDone complaint (copyStep o) (keptScripts start.tree table) ⦃⇓ _ w => ⌜J.holds w⌝⦄) :
    J.holds (worldAfter (lintFound o root table start)) := by
  have empty : keptScripts start.tree table = [] → J.holds start := by
    -- with no copies there is no question, and what is reached must hold already
    intro none
    obtain ⟨n, w, run, done⟩ := exists_ok_of_triple (reaches fun _ => "") here
    rw [none] at run
    cases run
    exact done
  have works : (o.listBackups || o.revert || o.cleanBackups) = true ∧ ¬o.listBackups = true := by
    rcases asked with deletes | reverts
    · simp_all [Options.deletes]
    · simp_all [Options.reverts]
  have delete : o.cleanBackups = true → ∀ kept, kept = keptScripts start.tree table →
      ⦃fun w => ⌜(I.unread start).holds w⌝⦄ cleanBackups kept ⦃⇓ _ w => ⌜J.holds w⌝⦄ := by
    rintro clean kept rfl
    refine confirmed_works reading yes ?_
    simpa [copyStep, clean] using reaches _
  have put : ¬o.cleanBackups = true → ∀ kept, kept = keptScripts start.tree table →
      ⦃fun w => ⌜(I.unread start).holds w⌝⦄ revert o.verbose kept ⦃⇓ _ w => ⌜J.holds w⌝⦄ := by
    rintro clean kept rfl
    refine confirmed_works reading yes ?_
    simpa [copyStep, clean] using reaches _
  refine holds_worldAfter (P := fun w => w = start) ?_ rfl
  unfold lintFound handleCopies
  mvcgen [delete, put]
  all_goals obtain rfl := ‹_ = start›
  · exact empty (List.isEmpty_iff.mp ‹_›)
  · exact absurd ‹_› works.2
  · rfl
  · exact ⟨here, rfl, rfl⟩
  · rfl
  · exact ⟨here, rfl, rfl⟩
  · exact absurd works.1 ‹_›
  · exact absurd works.1 ‹_›

end Confirmed

/-! ## Deleting copies -/

structure CopiesDeleted (scripts : List Path) (t t' : Tree) : Prop where
  copy : ∀ p ∈ scripts, ∀ m, t.locate (backupOf p) = .ok m → t'.entry? m = none
  others : ∀ m, (∀ p ∈ scripts, t.locate (backupOf p) ≠ .ok m) → t'.entry? m = t.entry? m

theorem mem_keptScripts_of_copy {t : Tree} {e : String × List Path} (he : e ∈ table) (hp : p ∈ e.2)
    (copy : t.contains (backupOf p)) :
    ⟨p, e.1⟩ ∈ keptScripts t table :=
  List.mem_flatMap.mpr ⟨e, he, List.mem_map.mpr ⟨p, List.mem_filter.mpr ⟨hp, copy⟩, rfl⟩⟩

theorem mem_scripts {k : Kept} (hk : k ∈ keptScripts start.tree table) :
    k.script ∈ table.flatMap (·.2) ∧ start.tree.contains k.copy := by
  obtain ⟨e, he, hp, kept⟩ := mem_keptScripts hk
  exact ⟨List.mem_flatMap.mpr ⟨e, he, hp⟩, kept⟩

theorem exists_kept (hp : p ∈ table.flatMap (·.2)) (kept : start.tree.contains (backupOf p)) :
    ∃ k ∈ keptScripts start.tree table, k.script = p := by
  obtain ⟨e, he, hp⟩ := List.mem_flatMap.mp hp
  exact ⟨_, mem_keptScripts_of_copy he hp kept, rfl⟩

theorem remove_vacates (place : start.tree.locate p = .ok m)
    (file : start.tree.entry? m ≠ some .directory) :
    ⦃fun w => ⌜(framed start fun _ => True).holds w⌝⦄ tryFiles (fun t => t.remove p)
    ⦃⇓ _ w => ⌜(vacated start m).holds w⌝⦄ := by
  unfold tryFiles
  mvcgen
  all_goals
    have same := ‹(framed start fun _ => True).holds _›
    have here := same.1.locate place
    have file' := fun dir => file ((same.1 m).mpr dir)
  · obtain ⟨m', c, place', there, rfl⟩ := remove_eq_ok.mp ‹_›
    obtain rfl := Except.ok.inj (here.symm.trans place')
    exact framed_erase same file' (update_self ..)
  · exact ⟨same.1, same.2.1, entry?_of_remove_error here file' ‹_›⟩

theorem removing_keeps_vacated (k : Kept) :
    Completes (vacated start m) (tryFiles fun t => t.remove k.copy) := by
  refine tryFiles_completes (admits_remove_framed fun l files _ none => ?_)
  by_cases same : m = l
  · rw [same, update_self]
  · rw [update_of_ne same, none]

theorem lintFound_deletes (asked : o.deletes) (yes : Confirms start) (named : NamesScripts table)
    (copies : FilesEnding start.tree ".flao-bak") :
    CopiesDeleted (table.flatMap (·.2)) start.tree
      (worldAfter (lintFound o root table start)).tree := by
  refine ⟨fun p hp m place => ?_, fun m away => ?_⟩
  · have script := isNamed_of_isScriptName (named.mem hp)
    obtain ⟨l, -, rfl⟩ := locate_of_backupOf script place
    -- a copy that is there goes when its turn comes and stays away, whatever else is deleted
    by_cases kept : start.tree.contains (backupOf p)
    · obtain ⟨k, hk, rfl⟩ := exists_kept hp kept
      refine (lintFound_works (I := framed start fun _ => True) (J := vacated start (copyPlace l))
        framed_ignoresInput (.inl asked) yes (framed_self trivial) fun complaint => ?_).2.2
      rw [copyStep_of_deletes asked]
      refine countDone_reaches complaint hk ?_ (remove_vacates place copies.copy)
        fun k _ => removing_keeps_vacated k
      exact fun k _ => tryFiles_completes (admits_remove_framed fun _ _ _ _ => trivial)
    · refine (lintFound_works (I := vacated start (copyPlace l)) (J := vacated start (copyPlace l))
        framed_ignoresInput (.inl asked) yes (framed_self (entry?_of_not_contains place kept))
        fun complaint => ?_).2.2
      rw [copyStep_of_deletes asked]
      exact countDone_completes complaint _ fun k _ => removing_keeps_vacated k
  · refine (lintFound_works (I := untouched start m) (J := untouched start m)
      framed_ignoresInput (.inl asked) yes (framed_self rfl) fun complaint => ?_).2.2
    rw [copyStep_of_deletes asked]
    refine countDone_completes complaint _ fun k hk => tryFiles_completes ?_
    refine admits_remove_framed fun l files place same => ?_
    rw [update_of_ne _, same]
    rintro rfl
    exact away k.script (mem_scripts hk).1 place

/-! ## Putting copies back -/

/-- Each script that has a copy is what the copy was, the copies are gone, and nothing else has
changed. -/
structure CopiesPutBack (scripts : List Path) (t t' : Tree) : Prop where
  script : ∀ p ∈ scripts, ∀ l c, t.locate p = .ok l → t.entry? (copyPlace l) = some (.file c) →
    t'.entry? l = some (.file c)
  copy : ∀ p ∈ scripts, ∀ m, t.locate (backupOf p) = .ok m → t'.entry? m = none
  others : ∀ m, (∀ p ∈ scripts, t.contains (backupOf p) →
    t.locate p ≠ .ok m ∧ t.locate (backupOf p) ≠ .ok m) → t'.entry? m = t.entry? m

def Returned (l : Location) (c : Content) (files : Location → Option Entry) : Prop :=
  files l = some (.file c) ∧ files (copyPlace l) = none

def Returnable (l : Location) (c : Content) (files : Location → Option Entry) : Prop :=
  files (copyPlace l) = some (.file c) ∨ Returned l c files

section Restoring

variable {c d : Content} {files : Location → Option Entry}

def putBack (l : Location) (c : Content) (files : Location → Option Entry) : Location → Option Entry :=
  update (update files l (some (.file c))) (copyPlace l) none

theorem returned_putBack (hl : isScriptName (placeName l)) : Returned l c (putBack l c files) := by
  refine ⟨?_, update_self ..⟩
  rw [putBack, update_of_ne (script_ne_copyPlace hl), update_self]

theorem putBack_apart (c : Content) (files : Location → Option Entry) (apart : m ≠ l)
    (hl : isScriptName (placeName l))
    (hm : isScriptName (placeName m)) :
    (update files l (some (.file c)) m = files m ∧
      update files l (some (.file c)) (copyPlace m) = files (copyPlace m)) ∧
    putBack l c files m = files m ∧ putBack l c files (copyPlace m) = files (copyPlace m) := by
  have copies : copyPlace m ≠ copyPlace l := fun same =>
    apart (copyPlace_injective hm hl same)
  have written := update_of_ne apart (some (Entry.file c)) files
  have written' := update_of_ne (script_ne_copyPlace hl (m := m)).symm (some (Entry.file c)) files
  refine ⟨⟨written, written'⟩, ?_, ?_⟩
  · rw [putBack, update_of_ne (script_ne_copyPlace hm), written]
  · rw [putBack, update_of_ne copies, written']

theorem Returned.putBack (h : Returned m d files) (hl : isScriptName (placeName l))
    (hm : isScriptName (placeName m)) (copy : files (copyPlace l) = some (.file c)) :
    Returned m d (update files l (some (.file c))) ∧ Returned m d (Runs.putBack l c files) := by
  -- where a script was put back there is no copy to put back again
  have apart : m ≠ l := by
    rintro rfl
    cases copy.symm.trans h.2
  obtain ⟨⟨script, copy'⟩, script'', copy''⟩ := putBack_apart c files apart hl hm
  exact ⟨⟨script.trans h.1, copy'.trans h.2⟩, script''.trans h.1, copy''.trans h.2⟩

theorem Returnable.putBack (h : Returnable m d files) (hl : isScriptName (placeName l))
    (hm : isScriptName (placeName m)) (copy : files (copyPlace l) = some (.file c)) :
    Returnable m d (update files l (some (.file c))) ∧ Returnable m d (Runs.putBack l c files) := by
  rcases h with there | back
  · by_cases apart : m = l
    · subst apart
      obtain rfl : c = d := by simpa [there] using copy.symm
      refine ⟨.inl ?_, .inr (returned_putBack hl)⟩
      rw [update_of_ne (script_ne_copyPlace hl).symm, there]
    · obtain ⟨⟨-, copy'⟩, -, copy''⟩ := putBack_apart c files apart hl hm
      exact ⟨.inl (copy'.trans there), .inl (copy''.trans there)⟩
  · obtain ⟨written, removed⟩ := back.putBack hl hm copy
    exact ⟨.inr written, .inr removed⟩

end Restoring

theorem place_of_kept (named : NamesScripts table) {k : Kept} (hk : k ∈ keptScripts start.tree table) :
    ∃ l, start.tree.locate k.script = .ok l ∧ k.script.IsNamed ∧ isScriptName (placeName l) := by
  obtain ⟨hp, kept⟩ := mem_scripts hk
  have script := isNamed_of_isScriptName (named.mem hp)
  obtain ⟨m, -, copy, -⟩ := contains_iff.mp kept
  obtain ⟨l, place, -⟩ := locate_of_backupOf script copy
  exact ⟨l, place, script, placeName_of_locate script place ▸ named.mem hp⟩

/-- The scripts that have a copy are files. -/
def KeptAreFiles (t : Tree) (table : ScriptTable) : Prop :=
  ∀ k ∈ keptScripts t table, ∀ l, t.locate k.script = .ok l → t.entry? l ≠ some .directory

theorem FilesEnding.keptAreFiles (h : FilesEnding start.tree ".lua") (named : NamesScripts table) :
    KeptAreFiles start.tree table := by
  intro k hk l place
  have script := named.mem (mem_scripts hk).1
  exact h.script (placeName_of_locate (isNamed_of_isScriptName script) place ▸ script)

/-- What holds of the files holds still when a copy is put back. -/
def SurvivesPutBack (P : (Location → Option Entry) → Prop) (t : Tree) (table : ScriptTable) : Prop :=
  ∀ k ∈ keptScripts t table, ∀ l c files, t.locate k.script = .ok l → isScriptName (placeName l) →
    files (copyPlace l) = some (.file c) → P files →
      P (update files l (some (.file c))) ∧ P (putBack l c files)

theorem restore_framed {P : (Location → Option Entry) → Prop} (named : NamesScripts table)
    (scripts : KeptAreFiles start.tree table) (verbose : Bool) (h : SurvivesPutBack P start.tree table) :
    ∀ k ∈ keptScripts start.tree table, Completes (framed start P) (restore verbose k) := by
  intro k hk
  obtain ⟨l, place, script, hl⟩ := place_of_kept named hk
  refine restore_completes (admitsRestoring_framed script place (scripts k hk l place) ?_) verbose
  exact fun c files hP copy => h k hk l c files place hl copy hP

theorem returned_of_copy {w : World} {t : Tree} (script : p.IsNamed)
    (place : start.tree.locate p = .ok l) (hl : isScriptName (placeName l))
    (file : start.tree.entry? l ≠ some .directory) (hw : (framed start (Returnable l c)).holds w)
    (copied : w.tree.copy (backupOf p) p = .ok t) :
    (∃ t', t.remove (backupOf p) = .ok t') ∧ ∀ t', t.remove (backupOf p) = .ok t' →
      (framed start (Returned l c)).holds { w with tree := t' } := by
  have file' : w.tree.entry? l ≠ some .directory := fun dir => file ((hw.1 l).mpr dir)
  obtain ⟨l', c', place', copy, result⟩ := restoreCopy_eq_ok script copied
  obtain rfl := Except.ok.inj ((hw.1.locate place).symm.trans place')
  obtain rfl := result file'
  obtain rfl : c' = c := by
    rcases hw.2.2 with there | back
    · simpa [there] using copy.symm
    · cases copy.symm.trans back.2
  have put := framed_put (P := fun files => files = update w.tree.entry? l (some (.file c'))) hw file' rfl
  have still : Tree.entry? (w.tree.put l (.file c')) (copyPlace l) = some (.file c') := by
    rw [entry?_put_ne _ (script_ne_copyPlace hl).symm, copy]
  have here := put.1.locate place
  refine ⟨⟨_, removeCopy_ok script here still⟩, fun t' removed => ?_⟩
  obtain ⟨-, rfl⟩ := removeCopy_eq_ok script here removed
  refine framed_erase put (by simp [still]) ?_
  rw [put.2.2]
  exact returned_putBack hl

theorem returned_of_copy_error {w : World} {e : FileError} (script : p.IsNamed)
    (place : start.tree.locate p = .ok l) (file : start.tree.entry? l ≠ some .directory)
    (hw : (framed start (Returnable l c)).holds w)
    (failed : w.tree.copy (backupOf p) p = .error e) : (framed start (Returned l c)).holds w := by
  have file' : w.tree.entry? l ≠ some .directory := fun dir => file ((hw.1 l).mpr dir)
  rcases hw.2.2 with there | back
  · cases failed.symm.trans (restoreCopy_ok script (hw.1.locate place) file' there)
  · exact ⟨hw.1, hw.2.1, back⟩

theorem restore_returns {k : Kept} (script : k.script.IsNamed)
    (place : start.tree.locate k.script = .ok l) (hl : isScriptName (placeName l))
    (file : start.tree.entry? l ≠ some .directory) (verbose : Bool) :
    ⦃fun w => ⌜(framed start (Returnable l c)).holds w⌝⦄ restore verbose k
    ⦃⇓ _ w => ⌜(framed start (Returned l c)).holds w⌝⦄ := by
  unfold restore tryFiles
  mvcgen [say_completes, -say_spec]
  all_goals have hw := ‹(framed start (Returnable l c)).holds _›
  · exact (returned_of_copy script place hl file hw ‹Tree.copy _ _ _ = _›).2 _ ‹_›
  · exact (returned_of_copy script place hl file hw ‹Tree.copy _ _ _ = _›).2 _ ‹_›
  · obtain ⟨⟨t', removed⟩, -⟩ := returned_of_copy script place hl file hw ‹Tree.copy _ _ _ = _›
    cases removed.symm.trans ‹Tree.remove _ _ = .error _›
  · exact returned_of_copy_error script place file hw ‹_›

section Reverting

variable (asked : o.reverts) (yes : Confirms start) (named : NamesScripts table)
  (scripts : KeptAreFiles start.tree table)
include asked yes named scripts

theorem lintFound_returns (hp : p ∈ table.flatMap (·.2))
    (place : start.tree.locate p = .ok l) (copy : start.tree.entry? (copyPlace l) = some (.file c)) :
    Returned l c (Tree.entry? (worldAfter (lintFound o root table start)).tree) := by
  have script := isNamed_of_isScriptName (named.mem hp)
  have hl : isScriptName (placeName l) := placeName_of_locate script place ▸ named.mem hp
  obtain ⟨k, hk, rfl⟩ := exists_kept hp (contains_iff.mpr ⟨_, _, locate_backupOf script place, copy⟩)
  refine (lintFound_works (I := framed start (Returnable l c)) (J := framed start (Returned l c))
    framed_ignoresInput (.inr asked) yes (framed_self (.inl copy)) fun complaint => ?_).2.2
  rw [copyStep_of_reverts asked]
  refine countDone_reaches complaint hk ?_
    (restore_returns script place hl (scripts k hk l place) o.verbose) ?_
  · exact restore_framed named scripts o.verbose fun _ _ _ _ _ _ hm copy h => h.putBack hm hl copy
  · exact restore_framed named scripts o.verbose fun _ _ _ _ _ _ hm copy h => h.putBack hm hl copy

theorem lintFound_framed {P : (Location → Option Entry) → Prop} (root : Path)
    (here : P start.tree.entry?) (h : SurvivesPutBack P start.tree table) :
    (framed start P).holds (worldAfter (lintFound o root table start)) := by
  refine lintFound_works framed_ignoresInput (.inr asked) yes (framed_self here) fun complaint => ?_
  rw [copyStep_of_reverts asked]
  exact countDone_completes complaint _ (restore_framed named scripts o.verbose h)

theorem lintFound_spares (away : ∀ p ∈ table.flatMap (·.2), start.tree.contains (backupOf p) →
      start.tree.locate p ≠ .ok m ∧ start.tree.locate (backupOf p) ≠ .ok m) :
    Tree.entry? (worldAfter (lintFound o root table start)).tree m = start.tree.entry? m := by
  refine (lintFound_framed (P := fun files => files m = start.tree.entry? m) asked yes named scripts root
    rfl fun k hk l c files place hl copy same => ?_).2.2
  obtain ⟨hp, kept⟩ := mem_scripts hk
  obtain ⟨script, copy'⟩ := away k.script hp kept
  have written : update files l (some (.file c)) m = start.tree.entry? m := by
    rw [update_of_ne _, same]
    rintro rfl
    exact script place
  refine ⟨written, (?_ : putBack l c files m = _)⟩
  rw [putBack, update_of_ne _, written]
  rintro rfl
  exact copy' (locate_backupOf (isNamed_of_isScriptName (named.mem hp)) place)

omit scripts in
theorem lintFound_restores (scripts : FilesEnding start.tree ".lua")
    (copies : FilesEnding start.tree ".flao-bak") :
    CopiesPutBack (table.flatMap (·.2)) start.tree
      (worldAfter (lintFound o root table start)).tree := by
  have scripts := scripts.keptAreFiles named
  refine ⟨fun p hp l c place copy => ?_, fun p hp m place => ?_, fun m away => ?_⟩
  · exact (lintFound_returns asked yes named scripts hp place copy).1
  · have script := isNamed_of_isScriptName (named.mem hp)
    obtain ⟨l, place', rfl⟩ := locate_of_backupOf script place
    cases copy : start.tree.entry? (copyPlace l) with
    | some e =>
      cases e with
      | directory => exact absurd copy copies.copy
      | file c => exact (lintFound_returns asked yes named scripts hp place' copy).2
    | none =>
      -- there was no copy, and no script with a copy can be at its place
      rw [lintFound_spares asked yes named scripts, copy]
      intro q hq kept
      obtain ⟨m, e, found, there⟩ := contains_iff.mp kept
      have hq := named.mem hq
      refine ⟨fun here => ?_, fun same => ?_⟩
      · exact script_ne_copyPlace (placeName_of_locate (isNamed_of_isScriptName hq) here ▸ hq) rfl
      · obtain rfl := Except.ok.inj (found.symm.trans same)
        cases there.symm.trans copy
  · exact lintFound_spares asked yes named scripts away

end Reverting

end LuaTune.Runs
