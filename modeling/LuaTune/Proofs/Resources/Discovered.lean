import LuaTune.Proofs.Resources.Names

/-!
# Which resources are found

Every directory with a manifest is found, under a name that no other one has. Its scripts are looked
for in all directories below it, those of other resources too.
-/

namespace LuaTune.Resources

open Files Text List

variable {t : Tree} {root d d' p q : Path} {l : Location} {name : String}

/-! ## Names in a tree -/

/-- The name leads into a directory and is no path. -/
def IsName (name : String) : Prop := name ≠ ".." ∧ '/' ∉ name.toList

instance (name : String) : Decidable (IsName name) := inferInstanceAs (Decidable (_ ∧ _))

def ProperNames (t : Tree) : Prop := ∀ e ∈ t.entries, IsName (placeName e.1)

instance (t : Tree) : Decidable (ProperNames t) := inferInstanceAs (Decidable (∀ e ∈ t.entries, _))

theorem ProperNames.isName (proper : ProperNames t) (h : name ∈ t.names d) : IsName name := by
  obtain ⟨l, -, e, he, at'⟩ := place_of_mem_names h
  have := proper e he
  rwa [at', placeName_snoc] at this

inductive Descends (d : Path) : Path → Prop
  | here : Descends d d
  | down {p : Path} {name : String} : Descends d p → IsName name → Descends d (p.child name)

theorem descends_of_mem_directories (proper : ProperNames t) (h : p ∈ t.directories d) :
    Descends d p := by
  obtain ⟨-, depth, h⟩ := mem_directories h
  refine of_mem_directoriesFrom .here (fun p below c hc _ => ?_) h
  obtain ⟨name, hn, rfl⟩ := mem_map.mp hc
  exact below.down (proper.isName hn)

theorem descends_of_mem_endingWith (proper : ProperNames t) {ending : String} (h : Descends d d')
    (hp : p ∈ t.endingWith d' ending) : ∃ q name, Descends d q ∧ IsName name ∧ p = q.child name := by
  obtain ⟨-, name, hn, rfl, -⟩ := mem_endingWith.mp hp
  exact ⟨d', name, h, proper.isName hn, rfl⟩

theorem descends_of_mem_scriptsOf (proper : ProperNames t) (hp : p ∈ scriptsOf t d) :
    ∃ q name, Descends d q ∧ IsName name ∧ p = q.child name := by
  rcases mem_withUnhidden hp with usual | all
  · rcases mem_append.mp usual with own | usual
    · exact descends_of_mem_endingWith proper .here own
    · obtain ⟨name, hn, hp⟩ := mem_flatMap.mp usual
      have named : ∀ n ∈ usualDirectories, IsName n := by decide
      exact descends_of_mem_endingWith proper (Descends.here.down (named name hn)) hp
  · obtain ⟨d', hd, hp⟩ := mem_flatMap.mp all
    exact descends_of_mem_endingWith proper (descends_of_mem_directories proper hd) hp

theorem Descends.locate (h : Descends d p) (place : t.locate p = .ok l) :
    ∃ m, t.locate d = .ok m ∧ m <+: l := by
  induction h generalizing l with
  | here => exact ⟨l, place, prefix_rfl⟩
  | down _ named ih =>
    obtain ⟨l', place', -, rfl⟩ := (locate_child named.1).mp place
    obtain ⟨m, here, front⟩ := ih place'
    exact ⟨m, here, front.trans (prefix_append _ _)⟩

theorem place_of_mem_scriptsOf (proper : ProperNames t) (hp : p ∈ scriptsOf t d)
    (place : t.locate p = .ok l) : ∃ m, t.locate d = .ok m ∧ m <+: l.dropLast := by
  obtain ⟨q, name, below, named, rfl⟩ := descends_of_mem_scriptsOf proper hp
  obtain ⟨l', place', -, rfl⟩ := (locate_child named.1).mp place
  rw [dropLast_concat]
  exact below.locate place'

/-! ## Names of resources -/

theorem Descends.parts (h : Descends d p) :
    ∃ rel, p = ⟨d.rooted, d.parts ++ rel⟩ ∧ ∀ n ∈ rel, IsName n := by
  induction h with
  | here => exact ⟨[], by simp, fun _ no => nomatch no⟩
  | @down p name _ named ih =>
    obtain ⟨rel, rfl, names⟩ := ih
    refine ⟨rel ++ [name], by simp [Path.child], fun n hn => ?_⟩
    rcases mem_append.mp hn with hn | hn
    · exact names n hn
    · exact mem_singleton.mp hn ▸ named

theorem resourceName_append {rel : List String} (below : rel ≠ []) :
    resourceName ⟨root.rooted, root.parts ++ rel⟩ root = "/".intercalate rel := by
  have relative : Path.relativeTo? ⟨root.rooted, root.parts ++ rel⟩ root = some ⟨false, rel⟩ := by
    simp [Path.relativeTo?]
  unfold resourceName
  rw [relative]
  simp only
  split
  · rfl
  · obtain ⟨name, rfl⟩ : ∃ name, rel = [name] := by
      match rel with
      | [name] => exact ⟨name, rfl⟩
      | _ :: _ :: _ => simp_all
    simp [Path.name]

theorem intercalate_inj {xs ys : List String} (hx : ∀ n ∈ xs, '/' ∉ n.toList) (hy : ∀ n ∈ ys, '/' ∉ n.toList)
    (nx : xs ≠ []) (ny : ys ≠ []) (same : "/".intercalate xs = "/".intercalate ys) : xs = ys := by
  have split : ∀ {zs : List String}, (∀ n ∈ zs, '/' ∉ n.toList) → zs ≠ [] →
      ("/".intercalate zs).toList.splitOn '/' = zs.map String.toList := by
    intro zs names some
    rw [String.toList_intercalate]
    refine splitOn_intercalate '/' (fun cs hcs => ?_) (by simpa using some)
    obtain ⟨n, hn, rfl⟩ := mem_map.mp hcs
    exact names n hn
  have chars : xs.map String.toList = ys.map String.toList := by
    rw [← split hx nx, ← split hy ny, same]
  exact (map_inj_right fun _ _ => String.toList_inj.mp).mp chars

theorem resourceName_inj (hd : Descends root d) (hd' : Descends root d') (nd : d ≠ root)
    (nd' : d' ≠ root) (same : resourceName d root = resourceName d' root) : d = d' := by
  obtain ⟨rel, rfl, names⟩ := hd.parts
  obtain ⟨rel', rfl, names'⟩ := hd'.parts
  have some : rel ≠ [] := by
    rintro rfl
    simp at nd
  have some' : rel' ≠ [] := by
    rintro rfl
    simp at nd'
  rw [resourceName_append some, resourceName_append some'] at same
  rw [intercalate_inj (fun n hn => (names n hn).2) (fun n hn => (names' n hn).2) some some' same]

/-! ## The table of resources -/

/-- The resources that are looked for scripts. One at the root hides all others. -/
def foundResources (t : Tree) (root : Path) : List Path :=
  if isResource t root then [root] else (t.directories root).filter (isResource t)

section Table

variable {table : ScriptTable} {m : Path}

theorem exists_addResource (root : Path) (table : ScriptTable) (scripts : scriptsOf t m.parent ≠ []) :
    ∃ e ∈ addResource t root table m, e.1 = resourceName m.parent root := by
  rw [addResource_eq]
  split
  · simp_all
  · exact ⟨tableEntry t root m.parent, by simp, rfl⟩

theorem subset_addResource : table ⊆ addResource t root table m := by
  rw [addResource_eq]
  split
  · exact List.Subset.refl table
  · exact subset_append_left _ _

theorem subset_foldl_addResource (ms : List Path) : table ⊆ ms.foldl (addResource t root) table := by
  induction ms generalizing table with
  | nil => exact List.Subset.refl table
  | cons m ms ih => exact fun _ he => ih (subset_addResource he)

theorem exists_foldl_addResource (root : Path) (table : ScriptTable) {ms : List Path} (hm : m ∈ ms)
    (scripts : scriptsOf t m.parent ≠ []) :
    ∃ e ∈ ms.foldl (addResource t root) table, e.1 = resourceName m.parent root := by
  induction ms generalizing table with
  | nil => cases hm
  | cons m' ms ih =>
    rcases mem_cons.mp hm with rfl | hm
    · obtain ⟨e, he, named⟩ := exists_addResource root table scripts
      exact ⟨e, subset_foldl_addResource ms he, named⟩
    · exact ih (addResource t root table m') hm

end Table

theorem mem_of_manifest {m : Path} (hm : m ∈ manifests t root) :
    m.parent ∈ (t.directories root).filter (isResource t) := by
  rcases mem_append.mp hm with hm | hm
  all_goals
    obtain ⟨hm, there⟩ := mem_filter.mp hm
    obtain ⟨d, hd, rfl⟩ := mem_map.mp hm
    rw [Path.parent_of_child]
    exact mem_filter.mpr ⟨hd, by simp [isResource, there]⟩

theorem exists_manifest (hd : d ∈ (t.directories root).filter (isResource t)) :
    ∃ m ∈ manifests t root, m.parent = d := by
  obtain ⟨hd, resource⟩ := mem_filter.mp hd
  have named : ∀ name, t.contains (d.child name) → d.child name ∈ t.allNamed root name :=
    fun name there => mem_filter.mpr ⟨mem_map_of_mem hd, there⟩
  rcases Bool.or_eq_true_iff.mp resource with there | there
  · exact ⟨_, mem_append_left _ (named _ there), Path.parent_of_child d _⟩
  · exact ⟨_, mem_append_right _ (named _ there), Path.parent_of_child d _⟩

theorem mem_foundResources (other : isResource t root = false) :
    d ∈ foundResources t root ↔ d ∈ (t.directories root).filter (isResource t) := by
  simp [foundResources, other]

theorem isDirectory_of_contains_child (named : IsName name) (there : t.contains (d.child name)) :
    t.isDirectory d := by
  obtain ⟨m, e, place, -⟩ := contains_iff.mp there
  obtain ⟨l, above, dir, -⟩ := (locate_child named.1).mp place
  exact isDirectory_iff.mpr ⟨l, above, dir⟩

theorem contains_of_isDirectory (dir : t.isDirectory d) : t.contains d := by
  obtain ⟨l, place, entry⟩ := isDirectory_iff.mp dir
  exact contains_iff.mpr ⟨l, _, place, entry⟩

theorem isDirectory_of_isResource (h : isResource t d) : t.isDirectory d := by
  rcases Bool.or_eq_true_iff.mp h with there | there
  all_goals exact isDirectory_of_contains_child (by decide) there

theorem contains_of_mem_foundResources (hd : d ∈ foundResources t root) : t.contains root := by
  refine contains_of_isDirectory ?_
  cases own : isResource t root with
  | true => exact isDirectory_of_isResource own
  | false =>
    obtain ⟨hd, -⟩ := mem_filter.mp ((mem_foundResources own).mp hd)
    exact (mem_directories hd).1

theorem mem_discover_iff (proper : ProperNames t) {e : String × List Path} : e ∈ discover t root ↔
      ∃ d ∈ foundResources t root, scriptsOf t d ≠ [] ∧ e = tableEntry t root d := by
  cases own : isResource t root with
  | true =>
    have name : resourceName root root = root.name := by
      simp [resourceName, Path.relativeTo?]
    unfold discover foundResources tableEntry
    rw [if_pos own, if_pos own]
    cases scripts : scriptsOf t root with
    | nil => simp [scripts]
    | cons p ps => simp [scripts, name]
  | false =>
    have table : discover t root = (manifests t root).foldl (addResource t root) [] := by
      rw [discover, if_neg (by simp [own]), manifests]
    rw [table]
    constructor
    · intro he
      rcases mem_foldl_addResource he with no | ⟨m, hm, scripts, rfl⟩
      · cases no
      · exact ⟨m.parent, (mem_foundResources own).mpr (mem_of_manifest hm), scripts, rfl⟩
    · rintro ⟨d, hd, scripts, rfl⟩
      obtain ⟨m, hm, rfl⟩ := exists_manifest ((mem_foundResources own).mp hd)
      obtain ⟨e, he, named⟩ := exists_foldl_addResource root [] hm scripts
      -- the entry with this name is that of a resource with this name, and there is only one
      rcases mem_foldl_addResource he with no | ⟨m', hm', scripts', rfl⟩
      · cases no
      · have apart : ∀ {m}, m ∈ manifests t root → Descends root m.parent ∧ m.parent ≠ root := by
          intro m hm
          obtain ⟨hd, resource⟩ := mem_filter.mp (mem_of_manifest hm)
          refine ⟨descends_of_mem_directories proper hd, fun same => ?_⟩
          rw [same, own] at resource
          cases resource
        obtain ⟨below, other⟩ := apart hm
        obtain ⟨below', other'⟩ := apart hm'
        rwa [resourceName_inj below' below other' other named] at he

end LuaTune.Resources
