import LuaTune.Proofs.Resources.Discovered
import LuaTune.Proofs.Runs.Repairs

/-!
# Resources that are left out

What is left out is the entry of a resource in the table of resources: another resource above it or
in it that is not on the list has its scripts all the same.
-/

namespace LuaTune.Runs

open Command Console Files Recovery Resources Text List

variable {o : Options} {root p d : Path} {table : ScriptTable} {w w₁ w₂ : World} {l k m : Location}

/-! ## The list -/

def excludedBy (o : Options) (t : Tree) : List String :=
  if o.exclude.isEmpty then []
  else
    match t.read (.ofString o.exclude) with
    | .error _ => []
    | .ok c =>
      match decodeStrictly c.toBytes with
      | .error _ => []
      | .ok cs => excludedNames (unifyNewlines cs)

def remaining (o : Options) (t : Tree) (table : ScriptTable) : ScriptTable :=
  table.filter fun e => !(excludedBy o t).contains e.1

theorem remaining_of_nil {t : Tree} (none : excludedBy o t = []) : remaining o t table = table := by
  rw [remaining, none]
  exact filter_eq_self.mpr fun _ _ => rfl

theorem exclude_eq (o : Options) (table : ScriptTable) (w : World) :
    ∃ out, exclude o table w = .ok (remaining o w.tree table) { w with output := out } := by
  unfold exclude
  rw [get_bind]
  simp only
  split
  · next empty =>
    rw [remaining_of_nil (by simp [excludedBy, empty])]
    exact ⟨w.output, rfl⟩
  next filled =>
  cases read : w.tree.read (.ofString o.exclude) with
  | error e =>
    have none : excludedBy o w.tree = [] := by simp [excludedBy, read]
    rw [remaining_of_nil none]
    split
    · exact ⟨_, rfl⟩
    · exact ⟨_, rfl⟩
  | ok c =>
    have there : w.tree.contains (.ofString o.exclude) := by
      obtain ⟨l, place, file⟩ := read_eq_ok.mp read
      exact contains_iff.mpr ⟨l, _, place, file⟩
    rw [if_neg (by simp [there])]
    cases decoded : decodeStrictly c.toBytes with
    | error e =>
      have none : excludedBy o w.tree = [] := by simp [excludedBy, read, decoded]
      rw [remaining_of_nil none]
      simp only [decoded, Except.mapError]
      exact ⟨_, rfl⟩
    | ok cs =>
      have names : excludedBy o w.tree = excludedNames (unifyNewlines cs) := by
        simp [excludedBy, read, decoded, filled]
      rw [remaining, names]
      simp only [decoded, Except.mapError]
      exact (prints_say _).perhaps fun out => ⟨out, rfl⟩

theorem findScripts_eq (o : Options) (root : Path) (w : World) :
    (∃ w', findScripts o root w = .ok (remaining o w.tree (scriptsAt o w.tree root)) w' ∧
        remaining o w.tree (scriptsAt o w.tree root) ≠ []) ∨
      ∃ e w', findScripts o root w = .error e w' ∧ remaining o w.tree (scriptsAt o w.tree root) = [] := by
  obtain ⟨out, said⟩ := prints_say ("\nScanning: " ++ root.text) w
  obtain ⟨out', left⟩ := exclude_eq o (scriptsAt o w.tree root) { w with output := out }
  have run : findScripts o root w =
      (if (remaining o w.tree (scriptsAt o w.tree root)).isEmpty then stopWithoutScripts o
        else do
          showFound o (remaining o w.tree (scriptsAt o w.tree root))
          return remaining o w.tree (scriptsAt o w.tree root)) { w with output := out' } := by
    unfold findScripts
    rw [bind_ok said, get_bind]
    exact bind_ok left
  rw [run]
  split
  · next empty =>
    cases stopped : (stopWithoutScripts o : Action ScriptTable) { w with output := out' } with
    | ok x w' =>
      exact ((stopWithoutScripts_spec (I := settled { w with output := out' }) o).of_ok
        (settled_self _) stopped).2.elim
    | error e w' => exact .inr ⟨e, w', rfl, isEmpty_iff.mp empty⟩
  · next filled =>
    have shown : Prints (showFound o (remaining o w.tree (scriptsAt o w.tree root))) :=
      (prints_say _).ite (prints_say _)
    obtain ⟨out₃, shown⟩ := shown { w with output := out' }
    exact .inl ⟨_, bind_ok shown, fun empty => filled (isEmpty_iff.mpr empty)⟩

theorem treeAfter_of_nothing {args : List String} (chosen : chooseTask args w = .ok (o, root) w₁)
    (none : remaining o w₁.tree (scriptsAt o w₁.tree root) = []) : treeAfter args w = w.tree := by
  rcases treeAfter_of_task chosen with ⟨-, same⟩ | ⟨table, w₂, found, -⟩
  · exact same
  rcases findScripts_eq o root w₁ with ⟨w', -, filled⟩ | ⟨e, w', stopped, -⟩
  · exact absurd none filled
  · cases found.symm.trans stopped

/-! ## Resources -/

def keptResources (o : Options) (t : Tree) (root : Path) : List Path :=
  (foundResources t root).filter fun d => !(excludedBy o t).contains (resourceName d root)

theorem mem_discovered_iff (proper : ProperNames w.tree) (resources : o.direct = false) :
    p ∈ discovered o root w ↔ ∃ d ∈ keptResources o w.tree root, p ∈ scriptsOf w.tree d := by
  have left : p ∈ discovered o root w ↔ ∃ e ∈ remaining o w.tree (discover w.tree root), p ∈ e.2 := by
    have table : scriptsAt o w.tree root = discover w.tree root := by simp [scriptsAt, resources]
    unfold discovered
    by_cases there : w.tree.contains root
    · rw [if_pos there]
      rcases findScripts_eq o root w with ⟨w', found, -⟩ | ⟨e, w', stopped, empty⟩
      · rw [found, table]
        exact mem_flatMap
      · rw [stopped]
        simp [← table, empty]
    · rw [if_neg there]
      constructor
      · intro no
        cases no
      · rintro ⟨e, he, -⟩
        obtain ⟨d, hd, -⟩ := (mem_discover_iff proper).mp (mem_filter.mp he).1
        exact absurd (contains_of_mem_foundResources hd) there
  rw [left]
  constructor
  · rintro ⟨e, he, hp⟩
    obtain ⟨he, kept⟩ := mem_filter.mp he
    obtain ⟨d, hd, -, rfl⟩ := (mem_discover_iff proper).mp he
    exact ⟨d, mem_filter.mpr ⟨hd, kept⟩, hp⟩
  · rintro ⟨d, hd, hp⟩
    obtain ⟨hd, kept⟩ := mem_filter.mp hd
    refine ⟨tableEntry w.tree root d, mem_filter.mpr ⟨?_, kept⟩, hp⟩
    exact (mem_discover_iff proper).mpr ⟨d, hd, ne_nil_of_mem hp, rfl⟩

def pathBelow (root d : Path) : String := "/".intercalate (d.parts.drop root.parts.length)

/-- A resource that the list names: by its own name, or by its path below the root. -/
structure IsExcluded (o : Options) (t : Tree) (root d : Path) : Prop where
  below : d ∈ t.directories root
  resource : isResource t d
  listed : d.name ∈ excludedBy o t ∨ pathBelow root d ∈ excludedBy o t

instance (o : Options) (t : Tree) (root d : Path) : Decidable (IsExcluded o t root d) :=
  decidable_of_iff (d ∈ t.directories root ∧ isResource t d = true ∧
      (d.name ∈ excludedBy o t ∨ pathBelow root d ∈ excludedBy o t))
    ⟨fun ⟨below, resource, listed⟩ => ⟨below, resource, listed⟩,
      fun ⟨below, resource, listed⟩ => ⟨below, resource, listed⟩⟩

def Inside (m k : Location) : Prop := m <+: k ∧ k ≠ m

def Apart (m m' : Location) : Prop := ¬m <+: m' ∧ ¬m' <+: m

/-- The paths that a run writes to besides scripts and their copies. -/
inductive SideOutput (o : Options) (root : Path) (now : Moment) : Path → Prop
  | report : o.report.isEmpty = false → SideOutput o root now (.ofString o.report)
  | asked : o.backupAll.isEmpty = false →
      SideOutput o root now (zipPath (backupPath (some root) (some o.backupAll) now))
  | automatic : SideOutput o root now (zipPath (backupPath (some root) none now))

theorem treeAfter_untouched {args : List String} (chosen : chooseTask args w = .ok (o, root) w₁)
    (fixes : o.fixes) (off : o.onCopies = false)
    (away : ∀ p, SideOutput o root w.now p → w.tree.locate p ≠ .ok k)
    (apart : ∀ p ∈ discovered o root w₁, ∀ l, w.tree.locate p = .ok l → k ≠ l ∧ k ≠ copyPlace l) :
    Tree.entry? (treeAfter args w) k = w.tree.entry? k := by
  obtain ⟨tree, now, -⟩ := settled_of_task chosen
  rcases treeAfter_of_task chosen with ⟨-, same⟩ | ⟨table, w₂, found, all, result⟩
  · rw [same]
  obtain ⟨⟨⟨tree₂, now₂, -⟩, -⟩, named⟩ := of_findScripts found
  rw [tree] at tree₂
  rw [now] at now₂
  rw [result, lintFound_of_off off]
  have start : (untouched w k).holds w₂ := by
    refine ⟨?_, now₂, ?_⟩
    · rw [tree₂]
      exact fun _ => Iff.rfl
    · rw [tree₂]
  refine (lintScripts_keeps fixes start (fun v hv => ?_) (fun filled v hv => ?_) (fun s hs => ?_)
    fun asked => ?_).2.2
  · exact admitsWriting_untouched (away _ (hv.2.1 ▸ .automatic))
  · exact admitsWriting_untouched (away _ (hv.2.1 ▸ .asked filled))
  · refine admitsFixing_framed fun l files place same => ?_
    have hp : s.2 ∈ discovered o root w₁ := by
      rw [all, ← map_scriptItems]
      exact mem_map_of_mem hs
    obtain ⟨script, copy⟩ := apart s.2 hp l place
    exact (Ledger.files_fix_ne script copy).trans same
  · exact admitsWriting_untouched (away _ (.report asked))

theorem not_apart_of_script {t : Tree} (proper : ProperNames t) (hp : p ∈ scriptsOf t d)
    (place : t.locate p = .ok l) (inside : Inside m k) (touched : k = l ∨ k = copyPlace l) :
    ∃ m', t.locate d = .ok m' ∧ ¬Apart m m' := by
  obtain ⟨m', here, front⟩ := place_of_mem_scriptsOf proper hp place
  have directory : k.dropLast = l.dropLast := by
    rcases touched with rfl | rfl
    · rfl
    · rw [copyPlace, dropLast_concat]
  have back : m <+: l.dropLast := by
    obtain ⟨⟨rest, rfl⟩, more⟩ := inside
    have some : rest ≠ [] := by
      rintro rfl
      exact more (append_nil m)
    rw [← directory, dropLast_append_of_ne_nil some]
    exact prefix_append _ _
  -- both lie above one directory, so one of them lies above the other
  refine ⟨m', here, fun apart => ?_⟩
  rcases prefix_or_prefix_of_prefix back front with h | h
  · exact apart.1 h
  · exact apart.2 h

theorem mem_places_iff {t : Tree} {paths : List Path} :
    l ∈ places t paths ↔ ∃ p ∈ paths, t.locate p = .ok l := by
  unfold places
  rw [mem_filterMap]
  refine exists_congr fun p => and_congr_right fun _ => ?_
  cases t.locate p <;> simp [Except.toOption]

/-- A run over resources leaves all that is inside a resource on its list as it is, if no resource that
is found and not on the list under its path below the root lies above it, in it or at its place. If one
does, a script in it becomes what as many fixes make of it as the run finds it, and it does not find it
exactly if none of these resources has it. -/
theorem excluded_fixed_through_kept (args : List String) {w : World} (proper : ProperNames w.tree) :
    Whenever (chooseTask args) w fun task w₁ =>
      task.1.fixes → task.1.direct = false → task.1.onCopies = false →
      ∀ d m, IsExcluded task.1 w.tree task.2 d → w.tree.locate d = .ok m →
        ((∀ d' ∈ keptResources task.1 w.tree task.2, ∀ m', w.tree.locate d' = .ok m' → Apart m m') →
          ∀ k, Inside m k → (∀ p, SideOutput task.1 task.2 w.now p → w.tree.locate p ≠ .ok k) →
              Tree.entry? (treeAfter args w) k = w.tree.entry? k) ∧
        (ReachesFixes task.1 task.2 w₁ → Calm w₁ ∨ task.1.singleThread →
          ∀ l c, Inside m l → isScriptName (placeName l) → w.tree.entry? l = some (.file c) →
            w.tree.entry? (copyPlace l) = none →
            (task.1.report.isEmpty = false → w.tree.locate (.ofString task.1.report) ≠ .ok l) →
              Tree.entry? (treeAfter args w) l =
                  some (.file ((fixedContent task.1.fixOptions.toOptions)^[
                    (places w.tree (discovered task.1 task.2 w₁)).count l] c)) ∧
                ((places w.tree (discovered task.1 task.2 w₁)).count l = 0 ↔
                  ∀ d' ∈ keptResources task.1 w.tree task.2, ∀ p ∈ scriptsOf w.tree d',
                    w.tree.locate p ≠ .ok l)) := by
  refine whenever_iff.mpr ?_
  rintro ⟨o, root⟩ w₁ chosen fixes resources off d m - place
  have tree := (settled_of_task chosen).1
  have found : ∀ {p}, p ∈ discovered o root w₁ ↔
      ∃ d ∈ keptResources o w.tree root, p ∈ scriptsOf w.tree d := by
    intro p
    rw [← tree]
    exact mem_discovered_iff (tree ▸ proper) resources
  refine ⟨fun apart k inside away => ?_, fun reaches workers l c inside named file fresh aside => ?_⟩
  · refine treeAfter_untouched chosen fixes off away fun p hp l leads => ?_
    obtain ⟨d', hd, hp⟩ := found.mp hp
    have separate : ¬(k = l ∨ k = copyPlace l) := by
      intro touched
      obtain ⟨m', here, meets⟩ := not_apart_of_script proper hp leads inside touched
      exact meets (apart d' hd m' here)
    exact not_or.mp separate
  · constructor
    · rw [← tree] at file fresh aside ⊢
      rw [treeAfter_fixed chosen fixes reaches named fresh workers (.inl rfl) aside]
      exact files_iterate_fix file _
    · rw [count_eq_zero, mem_places_iff]
      constructor
      · intro none d' hd p hp leads
        exact none ⟨p, found.mpr ⟨d', hd, hp⟩, leads⟩
      · rintro none ⟨p, hp, leads⟩
        obtain ⟨d', hd, hp⟩ := found.mp hp
        exact none d' hd p hp leads

@[irreducible]
def excludingWorld : World := worldWith ⟨[
  (["x.txt"], .file (.bytes (bytesOfChars "b\nr/c\ne\n".toList))),
  (["[q]"], .directory), (["[q]", "b"], .directory),
  (["[q]", "b", "fxmanifest.lua"], .file (.bytes [])), (["[q]", "b", "a.lua"], .file printing),
  (["r"], .directory), (["r", "fxmanifest.lua"], .file (.bytes [])), (["r", "c"], .directory),
  (["r", "c", "fxmanifest.lua"], .file (.bytes [])), (["r", "c", "a.lua"], .file printing),
  (["e"], .directory), (["e", "fxmanifest.lua"], .file (.bytes [])),
  (["e", "a.lua"], .file printing)]⟩ ""

def excludingArgs : List String :=
  [".", "--fix-debug", "--exclude", "x.txt", "--no-first-time-auto-backup"]

theorem excluding_through_kept : ProperNames excludingWorld.tree ∧
      Tree.entry? (treeAfter excludingArgs excludingWorld) ["e", "a.lua"] = some (.file printing) ∧
      ∃ n ≠ 0, Tree.entry? (treeAfter excludingArgs excludingWorld) ["[q]", "b", "a.lua"] =
        some (.file ((fixedContent { fixDebug := true })^[n] printing)) := by
  have proper : ProperNames excludingWorld.tree := by decide +kernel
  have chosen : Ends (chooseTask excludingArgs) excludingWorld fun task w₁ =>
      (task.1.fixes ∧ task.1.direct = false ∧ task.1.onCopies = false ∧ task.1.report.isEmpty ∧
        task.1.backupAll.isEmpty ∧ task.1.fixOptions.toOptions = { fixDebug := true }) ∧
      (Ends (findScripts task.1 task.2) w₁ fun table w' =>
        Ends (prepare task.1 task.2 (scriptItems table)) w' fun t _ => t.isSome) ∧
      (w₁.breakdown = none ∧ w₁.noPools = false) ∧
      IsExcluded task.1 excludingWorld.tree task.2 ⟨false, ["e"]⟩ ∧
      IsExcluded task.1 excludingWorld.tree task.2 ⟨false, ["[q]", "b"]⟩ ∧
      keptResources task.1 excludingWorld.tree task.2 = [⟨false, ["[q]", "b"]⟩, ⟨false, ["r"]⟩] ∧
      excludingWorld.tree.locate (zipPath (backupPath (some task.2) none excludingWorld.now)) ≠
        .ok ["e", "a.lua"] := by
    decide +kernel
  obtain ⟨task, w₁, run, ⟨fixes, resources, off, report, backup, options⟩, prepared, ⟨calm, pools⟩,
    direct, category, kept, away⟩ := ends_iff.mp chosen
  have both := (excluded_fixed_through_kept excludingArgs proper).of_ok run fixes resources off
  have places : excludingWorld.tree.locate ⟨false, ["e"]⟩ = .ok ["e"] ∧
      excludingWorld.tree.locate ⟨false, ["[q]", "b"]⟩ = .ok ["[q]", "b"] ∧
      excludingWorld.tree.locate ⟨false, ["r"]⟩ = .ok ["r"] := by
    decide +kernel
  refine ⟨proper, ?_, ?_⟩
  · have alone : ∀ d' ∈ keptResources task.1 excludingWorld.tree task.2, ∀ m',
        excludingWorld.tree.locate d' = .ok m' → Apart ["e"] m' := by
      intro d' hd m' place
      rw [kept] at hd
      rcases mem_cons.mp hd with rfl | hd
      · obtain rfl := Except.ok.inj (places.2.1.symm.trans place)
        exact ⟨by decide, by decide⟩
      · obtain rfl := mem_singleton.mp hd
        obtain rfl := Except.ok.inj (places.2.2.symm.trans place)
        exact ⟨by decide, by decide⟩
    refine ((both _ _ direct places.1).1 alone _ ⟨by decide, by decide⟩ fun p output => ?_).trans
      (by decide +kernel)
    cases output with
    | report asked => simp [report] at asked
    | asked filled => simp [backup] at filled
    | automatic => exact away
  · have workers : Calm w₁ := by
      intro n
      simp [breakdownAt, calm, pools]
    obtain ⟨result, none⟩ := (both _ _ category places.2.1).2 ⟨off, prepared⟩ (.inl workers)
      ["[q]", "b", "a.lua"] printing ⟨by decide, by decide⟩ (by decide +kernel) (by decide +kernel)
      (by decide +kernel) fun asked => by simp [report] at asked
    rw [options] at result
    refine ⟨_, fun zero => ?_, result⟩
    exact none.mp zero ⟨false, ["[q]", "b"]⟩ (by simp [kept]) ⟨false, ["[q]", "b", "a.lua"]⟩
      (by decide +kernel) (by decide +kernel)

/-- Scripts of two resources that the list names are changed. -/
theorem excluding_touched : (Ends (chooseTask excludingArgs) excludingWorld fun task _ => task.1.fixes ∧
      IsExcluded task.1 excludingWorld.tree task.2 ⟨false, ["[q]", "b"]⟩ ∧
      IsExcluded task.1 excludingWorld.tree task.2 ⟨false, ["r", "c"]⟩) ∧
    (∀ l ∈ [["[q]", "b", "a.lua"], ["r", "c", "a.lua"]],
      excludingWorld.tree.entry? l = some (.file printing) ∧
        Tree.entry? (treeAfter excludingArgs excludingWorld) l = some (.file silenced)) := by
  decide +kernel

end LuaTune.Runs
