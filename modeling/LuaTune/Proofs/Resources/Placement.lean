import LuaTune.Proofs.Resources.Complete

/-!
# Where the root lies

The names of resources stay the same wherever the root lies, and so do the scripts in the usual
folders. All others are found only if their whole path is plain, and the names on the way to the
root are part of it.
-/

namespace LuaTune.Resources

open Files Text List

variable {t t' : Tree} {p q root : Path} {l l' : Location} {folders : List (List String)}
  {rel : List String}

/-! ## One directory in two places -/

def SameBelow (t : Tree) (p : Path) (t' : Tree) (q : Path) : Prop :=
  ∀ rel, (∀ n ∈ rel, IsName n) → (t.stat (p.down rel)).toOption = (t'.stat (q.down rel)).toOption

theorem isName_of_mem_way {sub : List String} {name : String} (names : ∀ n ∈ rel, IsName n)
    (hs : ∀ n ∈ sub, IsName n) (hn : IsName name) : ∀ n ∈ rel ++ (sub ++ [name]), IsName n :=
  forall_mem_append.mpr ⟨names, forall_mem_append.mpr ⟨hs, by simpa using hn⟩⟩

namespace SameBelow

theorem symm (h : SameBelow t p t' q) : SameBelow t' q t p := fun rel names => (h rel names).symm

theorem contains (h : SameBelow t p t' q) (names : ∀ n ∈ rel, IsName n) :
    t.contains (p.down rel) ↔ t'.contains (q.down rel) := by
  have there : ∀ (t : Tree) (p : Path), t.contains p = (t.stat p).toOption.isSome := by
    intro t p
    unfold Tree.contains
    cases t.stat p <;> rfl
  rw [there, there, h rel names]

theorem isDirectory (h : SameBelow t p t' q) (names : ∀ n ∈ rel, IsName n) :
    t.isDirectory (p.down rel) ↔ t'.isDirectory (q.down rel) := by
  have there : ∀ (t : Tree) (p : Path), t.isDirectory p ↔ (t.stat p).toOption = some .directory := by
    intro t p
    unfold Tree.isDirectory
    cases t.stat p with
    | error o => simp [Except.toOption]
    | ok e => cases e <;> simp [Except.toOption]
  rw [there, there, h rel names]

theorem isDirectory_root (h : SameBelow t p t' q) : t.isDirectory p ↔ t'.isDirectory q := by
  have none : ∀ n ∈ ([] : List String), IsName n := nofun
  simpa using h.isDirectory none

theorem hasManifest (h : SameBelow t p t' q) (names : ∀ n ∈ rel, IsName n) :
    HasManifest t (p.down rel) ↔ HasManifest t' (q.down rel) := by
  have manifest : ∀ name, IsName name →
      (t.contains ((p.down rel).child name) ↔ t'.contains ((q.down rel).child name)) := by
    intro name named
    rw [Path.child_down, Path.child_down]
    exact h.contains (forall_mem_append.mpr ⟨names, by simpa using named⟩)
  exact or_congr (manifest _ (by decide)) (manifest _ (by decide))

end SameBelow

theorem isPlain_down : IsPlain (p.down rel) ↔ IsPlain p ∧ ∀ n ∈ rel, IsPlainName n := by
  unfold IsPlain
  rw [Path.allParts_down]
  exact forall_mem_append

/-! ## Scripts as the root sees them -/

theorem exists_map_down {ps : List Path} (below : ∀ x ∈ ps, ∃ rel, x = p.down rel) :
    ∃ rels : List (List String), ps = rels.map p.down := by
  induction ps with
  | nil => exact ⟨[], rfl⟩
  | cons x ps ih =>
    obtain ⟨rel, rfl⟩ := below x mem_cons_self
    obtain ⟨rels, rfl⟩ := ih fun x hx => below x (mem_cons_of_mem _ hx)
    exact ⟨rel :: rels, rfl⟩

theorem map_relativeTo?_down (p : Path) (rels : List (List String)) :
    (rels.map p.down).map (·.relativeTo? p) = rels.map fun rel => some ⟨false, rel⟩ := by
  rw [map_map]
  exact map_congr_left fun rel _ => Path.relativeTo?_down p rel

theorem lex_of_precedes {rels : List (List String)} (h : (rels.map p.down).Pairwise Path.Precedes) :
    rels.Pairwise (List.Lex (· < ·)) :=
  (pairwise_map.mp h).imp Path.precedes_down.mp

theorem map_relativeTo?_eq_iff {ps qs : List Path} (hp : ps.Pairwise Path.Precedes)
    (hq : qs.Pairwise Path.Precedes) (below : ∀ x ∈ ps, ∃ rel, x = p.down rel)
    (below' : ∀ x ∈ qs, ∃ rel, x = q.down rel) :
    ps.map (·.relativeTo? p) = qs.map (·.relativeTo? q) ↔ ∀ rel, p.down rel ∈ ps ↔ q.down rel ∈ qs := by
  obtain ⟨rels, rfl⟩ := exists_map_down below
  obtain ⟨rels', rfl⟩ := exists_map_down below'
  have members : ∀ (p : Path) (rels : List (List String)) (rel), p.down rel ∈ rels.map p.down ↔ rel ∈ rels := by
    intro p rels rel
    simp
  simp only [map_relativeTo?_down, members]
  constructor
  · intro same rel
    have : rels = rels' := map_injective_iff.mpr (fun a b h => by simpa using h) same
    rw [this]
  · intro same
    have asymm : ∀ {a b : List String}, List.Lex (· < ·) a b → ¬List.Lex (· < ·) b a :=
      lex_asymm String.lt_asymm
    rw [eq_of_increasing asymm (lex_of_precedes hp) (lex_of_precedes hq) same]

/-- There is a script below a directory outside of the folders, with plain names from the root on. -/
def HasOpenScript (t : Tree) (folders : List (List String)) (root : Path) (rel : List String) : Prop :=
  ∃ sub name, (∀ n ∈ sub, IsName n) ∧ IsName name ∧ t.contains (root.down (rel ++ (sub ++ [name]))) ∧
    ".lua".toList <:+ name.toList ∧ sub ∉ folders ∧ ∀ n ∈ rel ++ (sub ++ [name]), IsPlainName n

theorem isScriptBelow_down {x : List String} : IsScriptBelow t folders (root.down rel) (root.down x) ↔
      ∃ sub name, (∀ n ∈ sub, IsName n) ∧ IsName name ∧ x = rel ++ (sub ++ [name]) ∧
        t.contains (root.down x) ∧ ".lua".toList <:+ name.toList ∧
        (sub ∈ folders ∨ IsPlain root ∧ ∀ n ∈ x, IsPlainName n) := by
  unfold IsScriptBelow
  simp only [Path.down_down, Path.down_inj, isPlain_down]

section Folders

variable (tree : IsFileTree t) (tree' : IsFileTree t') (same : SameBelow t p t' q)
  (folderNames : ∀ sub ∈ folders, ∀ n ∈ sub, IsName n) (nodup : folders.Nodup)
  (names : ∀ n ∈ rel, IsName n)

include same names in
theorem SameBelow.isScriptBelow (plain : IsPlain p → IsPlain q ∨ ¬HasOpenScript t folders p rel)
    {x : List String} (h : IsScriptBelow t folders (p.down rel) (p.down x)) :
    IsScriptBelow t' folders (q.down rel) (q.down x) := by
  obtain ⟨sub, name, hs, hn, rfl, there, ends, taken⟩ := isScriptBelow_down.mp h
  have there' := (same.contains (isName_of_mem_way names hs hn)).mp there
  refine isScriptBelow_down.mpr ⟨sub, name, hs, hn, rfl, there', ends, ?_⟩
  by_cases folder : sub ∈ folders
  · exact .inl folder
  · obtain ⟨here, plainNames⟩ := taken.resolve_left folder
    rcases plain here with plain | none
    · exact .inr ⟨plain, plainNames⟩
    · exact absurd ⟨sub, name, hs, hn, there, ends, folder, plainNames⟩ none

include same names in
theorem SameBelow.hasOpenScript (h : HasOpenScript t folders p rel) : HasOpenScript t' folders q rel := by
  obtain ⟨sub, name, hs, hn, there, ends, folder, plain⟩ := h
  exact ⟨sub, name, hs, hn, (same.contains (isName_of_mem_way names hs hn)).mp there, ends, folder,
    plain⟩

include tree tree' same folderNames nodup names in
theorem scriptsBelow_alike_iff : (scriptsBelow t folders (p.down rel)).map (·.relativeTo? p) =
        (scriptsBelow t' folders (q.down rel)).map (·.relativeTo? q) ↔
      (IsPlain p ↔ IsPlain q) ∨ ¬HasOpenScript t folders p rel := by
  have below : ∀ {t : Tree} {p : Path}, IsFileTree t → ∀ x ∈ scriptsBelow t folders (p.down rel),
      ∃ rel, x = p.down rel := by
    intro t p tree x hx
    obtain ⟨sub, name, -, -, rfl, -⟩ := (mem_scriptsBelow_iff tree folderNames).mp hx
    exact ⟨_, Path.down_down _ _ _⟩
  rw [map_relativeTo?_eq_iff (scriptsBelow_increasing tree folderNames nodup _)
    (scriptsBelow_increasing tree' folderNames nodup _) (below tree) (below tree')]
  simp only [mem_scriptsBelow_iff tree folderNames, mem_scriptsBelow_iff tree' folderNames]
  constructor
  · intro members
    by_cases opened : HasOpenScript t folders p rel
    · obtain ⟨sub, name, hs, hn, there, ends, folder, plain⟩ := opened
      -- the script is found below a root exactly if the path of the root is plain
      have found : ∀ {t : Tree} {root : Path}, t.contains (root.down (rel ++ (sub ++ [name]))) →
          (IsScriptBelow t folders (root.down rel) (root.down (rel ++ (sub ++ [name]))) ↔ IsPlain root) := by
        intro t root there
        rw [isScriptBelow_down]
        constructor
        · rintro ⟨sub', name', -, -, split, -, -, taken⟩
          obtain ⟨rfl, -⟩ := append_inj' (append_cancel_left split) rfl
          exact (taken.resolve_left folder).1
        · exact fun here => ⟨sub, name, hs, hn, rfl, there, ends, .inr ⟨here, plain⟩⟩
      have there' := (same.contains (isName_of_mem_way names hs hn)).mp there
      exact .inl ((found there).symm.trans ((members _).trans (found there')))
    · exact .inr opened
  · intro alike x
    refine ⟨same.isScriptBelow names fun here => ?_, same.symm.isScriptBelow names fun here => ?_⟩
    · exact alike.imp_left fun plain => plain.mp here
    · exact alike.imp (fun plain => plain.mpr here) fun none opened =>
        none (same.symm.hasOpenScript names opened)

end Folders

/-! ## Tables as the root sees them -/

/-- What is found, with paths as seen from the root; the name of the root itself is left out. -/
def seenFrom (t : Tree) (root : Path) : List (String × List (Option Path)) :=
  (discover t root).map fun e =>
    (if isResource t root then "" else e.1, e.2.map (·.relativeTo? root))

def seenDirectly (t : Tree) (root : Path) : List (String × List (Option Path)) :=
  (discoverDirect t root).map fun e => (e.1, e.2.map (·.relativeTo? root))

def IsResourceAt (t : Tree) (root : Path) (rel : List String) : Prop :=
  (HasManifest t root ∧ rel = []) ∨ (¬HasManifest t root ∧ IsResourceBelow t root rel)

theorem IsResourceAt.isName (h : IsResourceAt t root rel) : ∀ n ∈ rel, IsName n := by
  rcases h with ⟨-, rfl⟩ | ⟨-, -, names, -⟩
  · simp
  · exact names

theorem IsResourceAt.unique {rel' : List String} (h : IsResourceAt t root rel)
    (h' : IsResourceAt t root rel') (same : "/".intercalate rel = "/".intercalate rel') : rel = rel' := by
  rcases h with ⟨own, rfl⟩ | ⟨other, some, names, -⟩
  · rcases h' with ⟨-, rfl⟩ | ⟨other, -⟩
    · rfl
    · exact absurd own other
  · rcases h' with ⟨own, -⟩ | ⟨-, some', names', -⟩
    · exact absurd own other
    · exact intercalate_inj (fun n hn => (names n hn).2) (fun n hn => (names' n hn).2) some some' same

theorem SameBelow.isResourceAt (same : SameBelow t p t' q) (h : IsResourceAt t p rel) :
    IsResourceAt t' q rel := by
  have root : HasManifest t p ↔ HasManifest t' q := by
    have none : ∀ n ∈ ([] : List String), IsName n := by simp
    simpa using same.hasManifest none
  unfold IsResourceAt IsResourceBelow at *
  rw [← root]
  refine h.imp_right (And.imp_right ?_)
  rintro ⟨some, names, dir, manifest⟩
  exact ⟨some, names, (same.isDirectory names).mp dir, (same.hasManifest names).mp manifest⟩

theorem mem_seenFrom_iff (tree : IsFileTree t) (dir : t.isDirectory root)
    {e : String × List (Option Path)} :
    e ∈ seenFrom t root ↔ ∃ rel, IsResourceAt t root rel ∧
      e = ("/".intercalate rel, (scriptsOf t (root.down rel)).map (·.relativeTo? root)) := by
  unfold seenFrom IsResourceAt
  by_cases own : HasManifest t root
  · rw [discover_of_hasManifest tree own]
    simp [own, isResource_iff.mpr own]
  · have other := isResource_eq_false own
    simp only [mem_map, mem_discover_iff_below tree dir own, other, own]
    constructor
    · rintro ⟨_, ⟨rel, resource, rfl⟩, rfl⟩
      exact ⟨rel, .inr ⟨not_false, resource⟩, rfl⟩
    · rintro ⟨rel, ⟨no, -⟩ | ⟨-, resource⟩, rfl⟩
      · exact no.elim
      · exact ⟨_, ⟨rel, resource, rfl⟩, rfl⟩

theorem seenFrom_nodup (tree : IsFileTree t) (root : Path) : (seenFrom t root).Nodup := by
  unfold seenFrom
  by_cases own : HasManifest t root
  · rw [discover_of_hasManifest tree own]
    exact nodup_singleton _
  · have other := isResource_eq_false own
    refine List.Nodup.of_map Prod.fst ?_
    rw [map_map]
    simpa [Function.comp_def, other] using discover_keys_nodup t root

theorem seenDirectly_eq (dir : t.isDirectory root) : seenDirectly t root =
      if scriptsBelow t [[]] root = [] then []
      else [("(direct)", (scriptsBelow t [[]] root).map (·.relativeTo? root))] := by
  have file : ¬t.isFile root := by
    unfold Tree.isDirectory at dir
    unfold Tree.isFile
    split at dir
    · simp [*]
    · cases dir
  have scripts : withUnhidden (t.endingWith root ".lua") (t.allEndingWith root ".lua") =
      scriptsBelow t [[]] root := by
    simp [scriptsBelow]
  unfold seenDirectly discoverDirect
  rw [if_neg file, scripts]
  cases scriptsBelow t [[]] root with
  | nil => rfl
  | cons x xs => rfl

theorem direct_eq_iff {xs ys : List Path} :
    (if xs = [] then [] else [("(direct)", xs.map (·.relativeTo? p))]) =
        (if ys = [] then [] else [("(direct)", ys.map (·.relativeTo? q))]) ↔
      xs.map (·.relativeTo? p) = ys.map (·.relativeTo? q) := by
  cases xs <;> cases ys <;> simp

section Placement

variable (tree : IsFileTree t) (tree' : IsFileTree t') (same : SameBelow t p t' q)
  (dir : t.isDirectory p)
include tree tree' same dir

theorem seenFrom_alike_iff : (seenFrom t p).Perm (seenFrom t' q) ↔
    (IsPlain p ↔ IsPlain q) ∨ ∀ rel, IsResourceAt t p rel → ¬HasOpenScript t scriptFolders p rel := by
  have dir' := same.isDirectory_root.mp dir
  rw [perm_ext_iff_of_nodup (seenFrom_nodup tree p) (seenFrom_nodup tree' q)]
  simp only [mem_seenFrom_iff tree dir, mem_seenFrom_iff tree' dir']
  have alike := fun {rel} (h : IsResourceAt t p rel) => scriptsBelow_alike_iff tree tree' same
    isName_of_mem_scriptFolders scriptFolders_nodup h.isName
  simp only [← scriptsOf_eq] at alike
  constructor
  · intro members
    refine Classical.or_iff_not_imp_left.mpr fun unlike rel resource => ?_
    -- the names decide which resource of the other place has the same scripts
    obtain ⟨rel', resource', entry⟩ := (members _).mp ⟨rel, resource, rfl⟩
    obtain ⟨name, scripts⟩ := Prod.mk.inj entry
    obtain rfl := (same.isResourceAt resource).unique resource' name
    exact ((alike resource).mp scripts).resolve_left unlike
  · intro condition e
    have entry : ∀ {rel}, IsResourceAt t p rel → (scriptsOf t (p.down rel)).map (·.relativeTo? p) =
          (scriptsOf t' (q.down rel)).map (·.relativeTo? q) := fun {rel} resource =>
      (alike resource).mpr (condition.imp_right fun closed => closed rel resource)
    constructor
    · rintro ⟨rel, resource, rfl⟩
      exact ⟨rel, same.isResourceAt resource, by rw [entry resource]⟩
    · rintro ⟨rel, resource, rfl⟩
      have resource := same.symm.isResourceAt resource
      exact ⟨rel, resource, by rw [entry resource]⟩

theorem seenDirectly_alike_iff : seenDirectly t p = seenDirectly t' q ↔
    (IsPlain p ↔ IsPlain q) ∨ ¬HasOpenScript t [[]] p [] := by
  have folderNames : ∀ sub ∈ [([] : List String)], ∀ n ∈ sub, IsName n := by simp
  have none : ∀ n ∈ ([] : List String), IsName n := nofun
  have alike := scriptsBelow_alike_iff tree tree' same folderNames (nodup_singleton _) none
  rw [Path.down_nil, Path.down_nil] at alike
  rw [seenDirectly_eq dir, seenDirectly_eq (same.isDirectory_root.mp dir), direct_eq_iff, alike]

end Placement

/-- A directory in two places: the resources and scripts that are found are the same as seen from it,
apart from its own name, exactly if the paths of both places are plain or neither is, or no script of a
resource lies outside of the usual folders on a way from the root without hidden names. For scripts that
are found whatever the resources only the directory itself counts as a usual folder. -/
theorem found_alike_iff (tree : IsFileTree t) (tree' : IsFileTree t') (same : SameBelow t p t' q)
    (dir : t.isDirectory p) :
    ((seenFrom t p).Perm (seenFrom t' q) ↔ (IsPlain p ↔ IsPlain q) ∨
        ∀ rel, IsResourceAt t p rel → ¬HasOpenScript t scriptFolders p rel) ∧
    (seenDirectly t p = seenDirectly t' q ↔ (IsPlain p ↔ IsPlain q) ∨ ¬HasOpenScript t [[]] p []) :=
  ⟨seenFrom_alike_iff tree tree' same dir, seenDirectly_alike_iff tree tree' same dir⟩

/-! ## A directory under one name -/

section Placed

variable {name name' : String} {es : List (Location × Entry)}

def placedAt (name : String) (es : List (Location × Entry)) : Tree :=
  ⟨es.map fun e => (name :: e.1, e.2)⟩

theorem entry?_placedAt (named : IsName name) (l : Location) :
    Tree.entry? (placedAt name es) (name :: l) = getKey? l es := by
  have inner : ¬IsTopPlace (name :: l) := by
    rintro (none | top)
    · cases none
    · obtain ⟨rfl, -⟩ := List.cons.inj top
      exact absurd named (by decide)
  unfold Tree.entry? getKey? placedAt
  rw [if_neg inner, List.find?_map]
  simp [Function.comp_def]

theorem follow_placedAt (es : List (Location × Entry)) (named : IsName name) (named' : IsName name')
    (l : Location) (names : ∀ n ∈ rel, IsName n) :
    ∃ r : Except Obstacle Location, (placedAt name es).follow (name :: l) rel = r.map (name :: ·) ∧
      (placedAt name' es).follow (name' :: l) rel = r.map (name' :: ·) := by
  induction rel generalizing l with
  | nil => exact ⟨.ok l, rfl, rfl⟩
  | cons n rel ih =>
    have first := (names n mem_cons_self).1
    simp only [Tree.follow, entry?_placedAt named, entry?_placedAt named', if_neg first]
    cases getKey? l es with
    | none => exact ⟨.error .notFound, rfl, rfl⟩
    | some e =>
      cases e with
      | file c => exact ⟨.error .notDirectory, rfl, rfl⟩
      | directory => exact ih (l ++ [n]) fun n hn => names n (mem_cons_of_mem _ hn)

theorem sameBelow_placedAt (named : IsName name) (named' : IsName name') :
    SameBelow (placedAt name es) ⟨false, [name]⟩ (placedAt name' es) ⟨false, [name']⟩ := by
  intro rel names
  have start : ∀ {name}, IsName name → (placedAt name es).locate (Path.down ⟨false, [name]⟩ rel) =
      (placedAt name es).follow [name] rel := by
    intro name named
    have first := named.1
    simp [Tree.locate, Path.down, Tree.follow, Tree.entry?, first]
  obtain ⟨r, here, there⟩ := follow_placedAt es named named' [] names
  unfold Tree.stat
  rw [start named, start named', here, there]
  cases r with
  | error o => rfl
  | ok l =>
    simp only [Except.map, bind, Except.bind, entry?_placedAt named, entry?_placedAt named']

end Placed

@[irreducible]
def ownFolder : List (Location × Entry) :=
  [([], .directory), (["r"], .directory), (["r", "fxmanifest.lua"], .file (.bytes [])),
    (["r", "sub"], .directory), (["r", "sub", "a.lua"], .file (.bytes []))]

theorem ownFolder_alike :
    IsFileTree (placedAt "p" ownFolder) ∧ IsFileTree (placedAt "q" ownFolder) ∧
      SameBelow (placedAt "p" ownFolder) ⟨false, ["p"]⟩ (placedAt "q" ownFolder) ⟨false, ["q"]⟩ ∧
      (placedAt "p" ownFolder).isDirectory ⟨false, ["p"]⟩ ∧
      (seenFrom (placedAt "p" ownFolder) ⟨false, ["p"]⟩).Perm
        (seenFrom (placedAt "q" ownFolder) ⟨false, ["q"]⟩) ∧
      seenDirectly (placedAt "p" ownFolder) ⟨false, ["p"]⟩ =
        seenDirectly (placedAt "q" ownFolder) ⟨false, ["q"]⟩ := by
  have tree : IsFileTree (placedAt "p" ownFolder) := by decide +kernel
  have tree' : IsFileTree (placedAt "q" ownFolder) := by decide +kernel
  have same : SameBelow (placedAt "p" ownFolder) ⟨false, ["p"]⟩ (placedAt "q" ownFolder) ⟨false, ["q"]⟩ :=
    sameBelow_placedAt (by decide) (by decide)
  have dir : (placedAt "p" ownFolder).isDirectory ⟨false, ["p"]⟩ := by decide +kernel
  have plain : IsPlain ⟨false, ["p"]⟩ ↔ IsPlain ⟨false, ["q"]⟩ := by decide +kernel
  obtain ⟨resources, direct⟩ := found_alike_iff tree tree' same dir
  exact ⟨tree, tree', same, dir, resources.mpr (.inl plain), direct.mpr (.inl plain)⟩

/-- Under a hidden name the script in its own folder is not found, and without the resource nothing is. -/
theorem ownFolder_unlike_hidden :
    IsFileTree (placedAt "p" ownFolder) ∧ IsFileTree (placedAt ".q" ownFolder) ∧
      SameBelow (placedAt "p" ownFolder) ⟨false, ["p"]⟩ (placedAt ".q" ownFolder) ⟨false, [".q"]⟩ ∧
      seenFrom (placedAt "p" ownFolder) ⟨false, ["p"]⟩ =
        [("r", [some ⟨false, ["r", "fxmanifest.lua"]⟩, some ⟨false, ["r", "sub", "a.lua"]⟩])] ∧
      seenFrom (placedAt ".q" ownFolder) ⟨false, [".q"]⟩ =
        [("r", [some ⟨false, ["r", "fxmanifest.lua"]⟩])] ∧
      seenDirectly (placedAt "p" ownFolder) ⟨false, ["p"]⟩ =
        [("(direct)", [some ⟨false, ["r", "fxmanifest.lua"]⟩, some ⟨false, ["r", "sub", "a.lua"]⟩])] ∧
      seenDirectly (placedAt ".q" ownFolder) ⟨false, [".q"]⟩ = [] :=
  ⟨by decide +kernel, by decide +kernel, sameBelow_placedAt (by decide) (by decide), by decide +kernel,
    by decide +kernel, by decide +kernel, by decide +kernel⟩

end LuaTune.Resources
