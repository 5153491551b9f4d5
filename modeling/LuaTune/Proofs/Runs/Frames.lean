import LuaTune.Proofs.Recovery.Session

/-!
# Frames

Until a run works on scripts no file changes. It makes and removes no directory, so a path leads
where it led at the start.
-/

namespace LuaTune.Runs

open Command Console Files Recovery Resources Text
open Function (update update_self update_of_ne)

variable {args : List String} {o : Options} {root p : Path} {table : ScriptTable}
  {start w w₁ w₂ : World} {l : Location} {P Q : (Location → Option Entry) → Prop}

/-! ## The stages of a run -/

/-- The scripts that a run finds; none if there is nothing at the path or the run stops before. -/
def discovered (o : Options) (root : Path) (w : World) : List Path :=
  if w.tree.contains root then
    match findScripts o root w with
    | .ok table _ => table.flatMap (·.2)
    | .error _ _ => []
  else []

theorem treeAfter_eq (args : List String) (w : World) :
    treeAfter args w = (worldAfter (lint args w)).tree := by
  obtain ⟨s, done⟩ := lintProgram_worldAfter args w
  rw [treeAfter, done]

theorem settled_of_task (chosen : chooseTask args w = .ok (o, root) w₁) : (settled w).holds w₁ := by
  have kept := holds_worldAfter (chooseTask_spec (I := settled w) (fun _ _ h => h) args)
    (settled_self w)
  rwa [chosen] at kept

theorem treeAfter_of_no_task {e : Stop} (stopped : chooseTask args w = .error e w₁) :
    treeAfter args w = w.tree := by
  have kept := holds_worldAfter (chooseTask_spec (I := settled w) (fun _ _ h => h) args)
    (settled_self w)
  rw [stopped] at kept
  rw [treeAfter_eq, lint, bind_error stopped]
  exact kept.1

theorem of_findScripts (found : findScripts o root w₁ = .ok table w₂) :
    ((settled w₁).unread w₁).holds w₂ ∧ NamesScripts table :=
  (findScripts_spec (I := (settled w₁).unread w₁) o root fun t => namesScripts_scriptsAt o t root).of_ok
    ⟨settled_self w₁, rfl, rfl⟩ found

theorem findScripts_subset (found : findScripts o root w₁ = .ok table w₂) :
    table ⊆ scriptsAt o w₁.tree root := by
  have among := findScripts_among (I := settled w₁) o root (A := (· ⊆ scriptsAt o w₁.tree root))
    fun w same table among => same.1 ▸ among
  exact (among.of_ok (settled_self w₁) found).2

theorem lint_eq_lintFound (chosen : chooseTask args w = .ok (o, root) w₁)
    (there : w₁.tree.contains root) (found : findScripts o root w₁ = .ok table w₂) :
    lint args w = lintFound o root table w₂ := by
  calc lint args w
    _ = lintAt o root w₁ := bind_ok chosen
    _ = (findScripts o root >>= lintFound o root) w₁ := by
      unfold lintAt
      rw [get_bind, if_pos there]
    _ = lintFound o root table w₂ := bind_ok found

theorem treeAfter_of_task (chosen : chooseTask args w = .ok (o, root) w₁) :
    (discovered o root w₁ = [] ∧ treeAfter args w = w.tree) ∨
      ∃ table w₂, findScripts o root w₁ = .ok table w₂ ∧ discovered o root w₁ = table.flatMap (·.2) ∧
        treeAfter args w = (worldAfter (lintFound o root table w₂)).tree := by
  have same := (settled_of_task chosen).1
  have start : lint args w = lintAt o root w₁ := bind_ok chosen
  by_cases there : w₁.tree.contains root
  · cases found : findScripts o root w₁ with
    | ok table w₂ =>
      refine .inr ⟨table, w₂, rfl, ?_, ?_⟩
      · rw [discovered, if_pos there, found]
      · rw [treeAfter_eq, lint_eq_lintFound chosen there found]
    | error e w₂ =>
      refine .inl ⟨?_, ?_⟩
      · rw [discovered, if_pos there, found]
      · have kept := holds_worldAfter (findScripts_spec (I := settled w₁) o root
          fun t => namesScripts_scriptsAt o t root).keeps (settled_self w₁)
        rw [found] at kept
        rw [treeAfter_eq, start, lintAt, get_bind, if_pos there, bind_error found, ← same]
        exact kept.1
  · refine .inl ⟨if_neg there, ?_⟩
    rw [treeAfter_eq, start, lintAt, get_bind, if_neg there, ← same]
    rfl

theorem handleCopies_of_off (off : o.onCopies = false) (w : World) :
    handleCopies o table w = .ok () w := by
  simp only [Options.onCopies, Bool.or_eq_false_iff, Bool.not_eq_false'] at off
  obtain ⟨⟨⟨list, revert⟩, clean⟩, extract⟩ := off
  unfold handleCopies
  rw [get_bind]
  simp only [list, revert, clean, extract]
  rfl

theorem lintFound_of_off (off : o.onCopies = false) (w : World) :
    lintFound o root table w = lintScripts o root (scriptItems table) w := by
  rw [lintFound, bind_ok (handleCopies_of_off off w)]

/-! ## Files and directories -/

def framed (start : World) (P : (Location → Option Entry) → Prop) : WorldInvariant where
  holds w := SameDirectories start.tree w.tree ∧ w.now = start.now ∧ P w.tree.entry?
  printed _ _ h := h

theorem framed_ignoresInput : (framed start P).IgnoresInput := fun _ _ h => h

theorem framed_self (h : P start.tree.entry?) : (framed start P).holds start :=
  ⟨fun _ => Iff.rfl, rfl, h⟩

theorem framed_put (h : (framed start Q).holds w) (file : w.tree.entry? l ≠ some .directory)
    {c : Content} (hP : P (update w.tree.entry? l (some (.file c)))) :
    (framed start P).holds { w with tree := w.tree.put l (.file c) } := by
  obtain ⟨dirs, now, -⟩ := h
  refine ⟨dirs.put file c, now, ?_⟩
  rw [entry?_put (not_isTopPlace_of_entry file)]
  exact hP

theorem framed_erase (h : (framed start Q).holds w) (file : w.tree.entry? l ≠ some .directory)
    (hP : P (update w.tree.entry? l none)) :
    (framed start P).holds { w with tree := w.tree.erase l } := by
  obtain ⟨dirs, now, -⟩ := h
  refine ⟨dirs.erase file, now, ?_⟩
  rw [entry?_erase (not_isTopPlace_of_entry file)]
  exact hP

theorem admitsWriting_framed
    (h : ∀ l c files, start.tree.locate p = .ok l → P files → P (update files l (some (.file c)))) :
    AdmitsWriting (framed start P) p := by
  intro c w t hw written
  obtain ⟨l, place, file, rfl⟩ := write_eq_ok.mp written
  exact framed_put hw file (h l c _ (hw.1.symm.locate place) hw.2.2)

theorem admits_remove_framed
    (h : ∀ l files, start.tree.locate p = .ok l → P files → P (update files l none)) :
    Admits (framed start P) fun t => t.remove p := by
  intro w t hw removed
  obtain ⟨l, c, place, file, rfl⟩ := remove_eq_ok.mp removed
  exact framed_erase hw (by simp [file]) (h l _ (hw.1.symm.locate place) hw.2.2)

theorem admitsRestoring_framed (named : p.IsNamed) (place : start.tree.locate p = .ok l)
    (file : start.tree.entry? l ≠ some .directory)
    (h : ∀ c files, P files → files (copyPlace l) = some (.file c) →
      P (update files l (some (.file c))) ∧
        P (update (update files l (some (.file c))) (copyPlace l) none)) :
    AdmitsRestoring (framed start P) p := by
  intro w t hw copied
  have here := hw.1.locate place
  have script : w.tree.entry? l ≠ some .directory := fun dir => file ((hw.1 l).mpr dir)
  obtain ⟨l', c, place', copy, result⟩ := restoreCopy_eq_ok named copied
  obtain rfl := Except.ok.inj (here.symm.trans place')
  obtain rfl := result script
  obtain ⟨put, erase⟩ := h c _ hw.2.2 copy
  have written := framed_put hw script put
  refine ⟨written, fun t' removed => ?_⟩
  obtain ⟨⟨c', copy'⟩, rfl⟩ := removeCopy_eq_ok named (written.1.locate place) removed
  refine framed_erase written (by simp [copy']) ?_
  rw [entry?_put (not_isTopPlace_of_entry script)]
  exact erase

theorem files_credit (s : Ledger) (y : Except FixFault Fix.Fixed) : (s.credit y).files = s.files := by
  unfold Ledger.credit
  split
  · split <;> rfl
  · rfl

theorem admitsFixing_framed (h : ∀ l files, start.tree.locate p = .ok l → P files →
      P (Ledger.fix o.fixOptions ⟨files, 0, 0⟩ l).files) :
    AdmitsFixing (framed start P) o p := by
  intro w t r hw fixed
  obtain ⟨dirs, now, hP⟩ := hw
  have ends := fixFile_ends o.fixOptions w.tree p
  rw [fixed] at ends
  refine ⟨dirs.trans ends.sameDirectories, now, ?_⟩
  have counted := congrArg Ledger.files (ends.ledger rfl 0 0)
  rw [files_credit] at counted
  have files : t.entry? = (Ledger.fixPath o.fixOptions w.tree ⟨w.tree.entry?, 0, 0⟩ p).files := counted
  unfold Ledger.fixPath at files
  cases place : w.tree.locate p with
  | error e =>
    rw [place] at files
    exact files ▸ hP
  | ok l =>
    rw [place] at files
    exact files ▸ h l _ (dirs.symm.locate place) hP

/-! ## Files by their names -/

def FilesEnding (t : Tree) (ending : String) : Prop :=
  ∀ e ∈ t.entries, endsWith (placeName e.1).toList ending.toList → e.2 ≠ .directory

instance (t : Tree) (ending : String) : Decidable (FilesEnding t ending) :=
  inferInstanceAs (Decidable (∀ e ∈ t.entries, _))

section Regular

variable {t : Tree}

theorem FilesEnding.script (h : FilesEnding t ".lua") (named : isScriptName (placeName l)) :
    t.entry? l ≠ some .directory :=
  fun dir => h _ (script_mem_entries named dir) named rfl

theorem FilesEnding.copy (h : FilesEnding t ".flao-bak") : t.entry? (copyPlace l) ≠ some .directory := by
  intro dir
  obtain ⟨mem, ends⟩ := copy_mem_entries dir
  exact h _ mem ends rfl

end Regular

/-! ## Single places -/

def untouched (start : World) (l : Location) : WorldInvariant :=
  framed start fun files => files l = start.tree.entry? l

theorem admitsWriting_untouched (away : start.tree.locate p ≠ .ok l) :
    AdmitsWriting (untouched start l) p := by
  refine admitsWriting_framed fun m c files place same => ?_
  rw [update_of_ne _, same]
  rintro rfl
  exact away place

def vacated (start : World) (l : Location) : WorldInvariant := framed start fun files => files l = none

end LuaTune.Runs
