import LuaTune.Proofs.Resources.Listings

/-!
# Everything that is found, once and in order

Every directory with a manifest is a resource under the way to it from the root. Its scripts are
those in the usual folders and, of all others below it, those on whose whole path nothing is hidden.
-/

namespace LuaTune.Resources

open Files Text List

variable {t : Tree} {root d p q : Path} {usual all : List Path} {rel : List String}

/-! ## Scripts -/

def IsPlainName (name : String) : Prop := name ≠ "node_modules" ∧ ¬['.'] <+: name.toList

instance (name : String) : Decidable (IsPlainName name) := inferInstanceAs (Decidable (_ ∧ _))

/-- Nothing on the path is hidden or part of a package. -/
def IsPlain (p : Path) : Prop := ∀ n ∈ p.allParts, IsPlainName n

instance (p : Path) : Decidable (IsPlain p) := inferInstanceAs (Decidable (∀ n ∈ p.allParts, _))

theorem isSkipped_eq_false_iff : isSkipped p = false ↔ IsPlain p := by
  simp only [isSkipped, IsPlain, IsPlainName, any_eq_false, Bool.or_eq_true, beq_iff_eq,
    not_or, Text.startsWith_iff, ne_eq]

def scriptFolders : List (List String) :=
  [[], ["client"], ["server"], ["shared"], ["config"], ["locales"], ["lib"], ["modules"]]

/-- There is a script below the directory, in one of the folders or with a plain path. -/
def IsScriptBelow (t : Tree) (folders : List (List String)) (d p : Path) : Prop :=
  ∃ sub name, (∀ n ∈ sub, IsName n) ∧ IsName name ∧ p = d.down (sub ++ [name]) ∧ t.contains p ∧
    ".lua".toList <:+ name.toList ∧ (sub ∈ folders ∨ IsPlain p)

theorem mem_withUnhidden_iff : p ∈ withUnhidden usual all ↔ p ∈ usual ∨ p ∈ all ∧ IsPlain p := by
  rw [withUnhidden, Path.mem_sort, mem_append, mem_filter, ← isSkipped_eq_false_iff]
  by_cases h : p ∈ usual
  · simp [h]
  · simp [h]

theorem withUnhidden_increasing (d : Path) (nodup : usual.Nodup) (nodup' : all.Nodup)
    (alike : ∀ p ∈ usual ++ all, p.rooted = d.rooted) :
    (withUnhidden usual all).Pairwise Path.Precedes := by
  refine Path.sort_increasing ?_ fun p hp q hq => ?_
  · refine nodup.append (nodup'.filter _) fun p hp hp' => ?_
    have := (mem_filter.mp hp').2
    simp [hp] at this
  · have sub : usual ++ all.filter (fun p => !usual.contains p && !isSkipped p) ⊆ usual ++ all :=
      append_subset.mpr ⟨subset_append_left _ _, fun _ hp => mem_append_right _ (mem_of_mem_filter hp)⟩
    rw [alike p (sub hp), alike q (sub hq)]

theorem mem_flatMap_endingWith (tree : IsFileTree t) {folders : List (List String)}
    (names : ∀ sub ∈ folders, ∀ n ∈ sub, IsName n) :
    p ∈ (folders.map d.down).flatMap (fun d' => t.endingWith d' ".lua") ↔
      ∃ sub name, (∀ n ∈ sub, IsName n) ∧ IsName name ∧ p = d.down (sub ++ [name]) ∧ t.contains p ∧
        ".lua".toList <:+ name.toList ∧ sub ∈ folders := by
  simp only [flatMap_map, mem_flatMap, mem_endingWith_iff tree, Path.child_down]
  constructor
  · rintro ⟨sub, hs, name, named, rfl, there, ends⟩
    exact ⟨sub, name, names sub hs, named, rfl, there, ends, hs⟩
  · rintro ⟨sub, name, -, named, rfl, there, ends, hs⟩
    exact ⟨sub, hs, name, named, rfl, there, ends⟩

theorem mem_allEndingWith_iff (tree : IsFileTree t) :
    p ∈ t.allEndingWith d ".lua" ↔
      ∃ sub name, (∀ n ∈ sub, IsName n) ∧ IsName name ∧ p = d.down (sub ++ [name]) ∧ t.contains p ∧
        ".lua".toList <:+ name.toList := by
  simp only [Tree.allEndingWith, mem_flatMap, mem_directories_iff tree, mem_endingWith_iff tree]
  constructor
  · rintro ⟨d', ⟨-, sub, names, rfl, -⟩, name, named, rfl, there, ends⟩
    exact ⟨sub, name, names, named, Path.child_down d sub name, there, ends⟩
  · rintro ⟨sub, name, names, named, rfl, there, ends⟩
    rw [← Path.child_down] at there ⊢
    have dir := isDirectory_of_contains_child named there
    exact ⟨d.down sub, ⟨isDirectory_of_down names dir, sub, names, rfl, dir⟩, name, named, rfl, there,
      ends⟩

def scriptsBelow (t : Tree) (folders : List (List String)) (d : Path) : List Path :=
  withUnhidden ((folders.map d.down).flatMap fun d' => t.endingWith d' ".lua") (t.allEndingWith d ".lua")

section Folders

variable {folders : List (List String)} (tree : IsFileTree t)
  (names : ∀ sub ∈ folders, ∀ n ∈ sub, IsName n)

include tree names

theorem mem_scriptsBelow_iff : p ∈ scriptsBelow t folders d ↔ IsScriptBelow t folders d p := by
  rw [scriptsBelow, mem_withUnhidden_iff, mem_flatMap_endingWith tree names, mem_allEndingWith_iff tree]
  unfold IsScriptBelow
  constructor
  · rintro (⟨sub, name, hs, hn, at', there, ends, folder⟩ | ⟨⟨sub, name, hs, hn, at', there, ends⟩, plain⟩)
    · exact ⟨sub, name, hs, hn, at', there, ends, .inl folder⟩
    · exact ⟨sub, name, hs, hn, at', there, ends, .inr plain⟩
  · rintro ⟨sub, name, hs, hn, at', there, ends, folder | plain⟩
    · exact .inl ⟨sub, name, hs, hn, at', there, ends, folder⟩
    · exact .inr ⟨⟨sub, name, hs, hn, at', there, ends⟩, plain⟩

theorem scriptsBelow_increasing (nodup : folders.Nodup) (d : Path) :
    (scriptsBelow t folders d).Pairwise Path.Precedes := by
  have apart : (folders.map d.down).Nodup :=
    pairwise_map.mpr (nodup.imp fun ne same => ne (Path.down_inj.mp same))
  refine withUnhidden_increasing d (tree.flatMap_endingWith_nodup apart _)
    (tree.flatMap_endingWith_nodup (tree.directories_nodup d) _) fun p hp => ?_
  rcases mem_append.mp hp with hp | hp
  · obtain ⟨_, _, -, -, rfl, -⟩ := (mem_flatMap_endingWith tree names).mp hp
    rfl
  · obtain ⟨_, _, -, -, rfl, -⟩ := (mem_allEndingWith_iff tree).mp hp
    rfl

end Folders

theorem scriptsOf_eq (t : Tree) (d : Path) : scriptsOf t d = scriptsBelow t scriptFolders d := by
  unfold scriptsOf scriptsBelow
  congr 1
  simp [scriptFolders, usualDirectories, Path.child_eq_down]

theorem isName_of_mem_scriptFolders : ∀ sub ∈ scriptFolders, ∀ n ∈ sub, IsName n := by
  decide

theorem scriptFolders_nodup : scriptFolders.Nodup := by
  decide

/-! ## Resources -/

def HasManifest (t : Tree) (d : Path) : Prop :=
  t.contains (d.child "fxmanifest.lua") ∨ t.contains (d.child "__resource.lua")

instance (t : Tree) (d : Path) : Decidable (HasManifest t d) := inferInstanceAs (Decidable (_ ∨ _))

/-- Some names lead down from the root to a directory with a manifest. -/
def IsResourceBelow (t : Tree) (root : Path) (rel : List String) : Prop :=
  rel ≠ [] ∧ (∀ n ∈ rel, IsName n) ∧ t.isDirectory (root.down rel) ∧ HasManifest t (root.down rel)

theorem isResource_iff : isResource t d ↔ HasManifest t d := by
  simp [isResource, HasManifest]

theorem isResource_eq_false (h : ¬HasManifest t d) : isResource t d = false :=
  Bool.eq_false_iff.mpr (mt isResource_iff.mp h)

theorem scriptsOf_ne_nil (tree : IsFileTree t) (h : HasManifest t d) : scriptsOf t d ≠ [] := by
  have manifest : ∀ name, IsName name → ".lua".toList <:+ name.toList → t.contains (d.child name) →
      d.child name ∈ scriptsOf t d := fun name named ends there =>
    scriptsOf_eq t d ▸ (mem_scriptsBelow_iff tree isName_of_mem_scriptFolders).mpr
      ⟨[], name, by simp, named, rfl, there, ends, .inl (by decide)⟩
  rcases h with there | there
  all_goals exact ne_nil_of_mem (manifest _ (by decide) (by decide) there)

theorem mem_foundResources_iff (tree : IsFileTree t) (dir : t.isDirectory root)
    (other : isResource t root = false) :
    d ∈ foundResources t root ↔ ∃ rel, IsResourceBelow t root rel ∧ d = root.down rel := by
  rw [mem_foundResources other, mem_filter, mem_directories_iff tree]
  constructor
  · rintro ⟨⟨-, rel, names, rfl, here⟩, resource⟩
    refine ⟨rel, ⟨?_, names, here, isResource_iff.mp resource⟩, rfl⟩
    rintro rfl
    rw [Path.down_nil, other] at resource
    cases resource
  · rintro ⟨rel, ⟨-, names, here, manifest⟩, rfl⟩
    exact ⟨⟨dir, rel, names, rfl, here⟩, isResource_iff.mpr manifest⟩

theorem addResource_keys_nodup {table : ScriptTable} (m : Path) (nodup : (table.map (·.1)).Nodup) :
    ((addResource t root table m).map (·.1)).Nodup := by
  rw [addResource_eq]
  split
  · exact nodup
  · rename_i new
    rw [map_append]
    refine nodup.append (nodup_singleton _) fun name hn hn' => ?_
    obtain rfl : name = resourceName m.parent root := by simpa [tableEntry] using hn'
    obtain ⟨e, he, same⟩ := mem_map.mp hn
    have taken : table.any fun e => e.1 == resourceName m.parent root :=
      any_eq_true.mpr ⟨e, he, beq_iff_eq.mpr same⟩
    simp [taken] at new

theorem discover_keys_nodup (t : Tree) (root : Path) : ((discover t root).map (·.1)).Nodup := by
  unfold discover
  split
  · split
    · exact nodup_nil
    · exact nodup_singleton _
  · refine foldlRecOn (motive := fun table : ScriptTable => (table.map (·.1)).Nodup) _ _ ?_ ?_
    · exact nodup_nil
    · exact fun table nodup m _ => addResource_keys_nodup m nodup

theorem mem_discover_iff_below (tree : IsFileTree t) (dir : t.isDirectory root)
    (none : ¬HasManifest t root) {e : String × List Path} :
    e ∈ discover t root ↔ ∃ rel, IsResourceBelow t root rel ∧
      e = ("/".intercalate rel, scriptsOf t (root.down rel)) := by
  have entry : ∀ {rel}, IsResourceBelow t root rel →
      tableEntry t root (root.down rel) = ("/".intercalate rel, scriptsOf t (root.down rel)) :=
    fun resource => congrArg (·, _) (resourceName_append resource.1)
  simp only [mem_discover_iff tree.proper, mem_foundResources_iff tree dir (isResource_eq_false none)]
  constructor
  · rintro ⟨d, ⟨rel, resource, rfl⟩, -, rfl⟩
    exact ⟨rel, resource, entry resource⟩
  · rintro ⟨rel, resource, rfl⟩
    exact ⟨_, ⟨rel, resource, rfl⟩, scriptsOf_ne_nil tree resource.2.2.2, (entry resource).symm⟩

theorem discover_of_hasManifest (tree : IsFileTree t) (manifest : HasManifest t root) :
    discover t root = [(root.name, scriptsOf t root)] := by
  have some := scriptsOf_ne_nil tree manifest
  unfold discover
  rw [if_pos (isResource_iff.mpr manifest)]
  split
  · exact absurd ‹_› some
  · rfl

/-- The list holds the scripts below a directory, in strict order. -/
def ListsScripts (t : Tree) (d : Path) (scripts : List Path) : Prop :=
  scripts.Pairwise Path.Precedes ∧ ∀ p, p ∈ scripts ↔ IsScriptBelow t scriptFolders d p

theorem listsScripts_iff (tree : IsFileTree t) {scripts : List Path} :
    ListsScripts t d scripts ↔ scripts = scriptsOf t d := by
  have ordered := scriptsBelow_increasing tree isName_of_mem_scriptFolders scriptFolders_nodup d
  have found := fun p => mem_scriptsBelow_iff (p := p) (d := d) tree isName_of_mem_scriptFolders
  rw [scriptsOf_eq]
  constructor
  · rintro ⟨increasing, members⟩
    exact eq_of_increasing Path.Precedes.asymm increasing ordered fun p => (members p).trans (found p).symm
  · rintro rfl
    exact ⟨ordered, found⟩

/-- Below a root that is no resource, the table has one entry for each directory with a manifest, named
after the way to it, with exactly its scripts in strict order. No two directories share a name. For a
root that is a resource the table has only the entry of the root. -/
theorem discover_complete (tree : IsFileTree t) (dir : t.isDirectory root) : (¬HasManifest t root →
      ((discover t root).map (·.1)).Nodup ∧
      (∀ name scripts, (name, scripts) ∈ discover t root ↔
        ∃ rel, IsResourceBelow t root rel ∧ name = "/".intercalate rel ∧
          ListsScripts t (root.down rel) scripts) ∧
      ∀ rel rel', IsResourceBelow t root rel → IsResourceBelow t root rel' →
        "/".intercalate rel = "/".intercalate rel' → rel = rel') ∧
    (HasManifest t root →
      ∃ scripts, discover t root = [(root.name, scripts)] ∧ ListsScripts t root scripts) := by
  constructor
  · intro none
    refine ⟨discover_keys_nodup t root, fun name scripts => ?_, fun rel rel' h h' same => ?_⟩
    · simp only [mem_discover_iff_below tree dir none, listsScripts_iff tree, Prod.mk.injEq]
    · exact intercalate_inj (fun n hn => (h.2.1 n hn).2) (fun n hn => (h'.2.1 n hn).2) h.1 h'.1 same
  · intro manifest
    exact ⟨scriptsOf t root, discover_of_hasManifest tree manifest, (listsScripts_iff tree).mpr rfl⟩

@[irreducible]
def nestedTown : Tree :=
  ⟨[(["res"], .directory), (["res", "[a]"], .directory), (["res", "[a]", "core"], .directory),
    (["res", "[a]", "core", "fxmanifest.lua"], .file (.bytes [])),
    (["res", "[a]", "core", "__resource.lua"], .file (.bytes [])),
    (["res", "[a]", "core", ".x.lua"], .file (.bytes [])),
    (["res", "[a]", "core", ".git"], .directory),
    (["res", "[a]", "core", ".git", "w.lua"], .file (.bytes [])),
    (["res", "[a]", "core", "client"], .directory),
    (["res", "[a]", "core", "client", ".y.lua"], .file (.bytes [])),
    (["res", "[a]", "core", "deep"], .directory),
    (["res", "[a]", "core", "deep", "z.lua"], .file (.bytes [])),
    (["res", "[a]", "core", "deep", "__resource.lua"], .directory)]⟩

theorem nestedTown_discovered :
    IsFileTree nestedTown ∧ nestedTown.isDirectory ⟨false, ["res"]⟩ ∧
      ¬HasManifest nestedTown ⟨false, ["res"]⟩ ∧
      ((discover nestedTown ⟨false, ["res"]⟩).map (·.1)).Nodup ∧
      (∃ rel, IsResourceBelow nestedTown ⟨false, ["res"]⟩ rel ∧ "[a]/core" = "/".intercalate rel ∧
        ListsScripts nestedTown (Path.down ⟨false, ["res"]⟩ rel)
          [⟨false, ["res", "[a]", "core", ".x.lua"]⟩, ⟨false, ["res", "[a]", "core", "__resource.lua"]⟩,
            ⟨false, ["res", "[a]", "core", "client", ".y.lua"]⟩,
            ⟨false, ["res", "[a]", "core", "deep", "__resource.lua"]⟩,
            ⟨false, ["res", "[a]", "core", "deep", "z.lua"]⟩,
            ⟨false, ["res", "[a]", "core", "fxmanifest.lua"]⟩]) ∧
      (discover nestedTown ⟨false, ["res"]⟩).map (·.1) = ["[a]/core", "[a]/core/deep"] := by
  have tree : IsFileTree nestedTown := by decide +kernel
  have dir : nestedTown.isDirectory ⟨false, ["res"]⟩ := by decide +kernel
  have none : ¬HasManifest nestedTown ⟨false, ["res"]⟩ := by decide +kernel
  obtain ⟨nodup, exact', -⟩ := (discover_complete tree dir).1 none
  exact ⟨tree, dir, none, nodup, (exact' _ _).mp (by decide +kernel), by decide +kernel⟩

end LuaTune.Resources
