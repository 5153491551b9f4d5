import LuaTune.Proofs.Resources.Discovered
import Mathlib.Data.List.Perm.Subperm

/-!
# Listings of a file tree

A listing of a directory names each thing in it once, and the walk through a directory comes to each
directory below it once.
-/

namespace LuaTune

theorem eq_of_increasing {α : Type} {before : α → α → Prop}
    (asymm : ∀ {x y}, before x y → ¬before y x) {xs ys : List α} (hx : xs.Pairwise before)
    (hy : ys.Pairwise before) (same : ∀ x, x ∈ xs ↔ x ∈ ys) : xs = ys := by
  have nodup : ∀ {zs : List α}, zs.Pairwise before → zs.Nodup := fun h => h.imp fun {x y} first same => by
    subst same
    exact asymm first first
  refine List.Perm.eq_of_pairwise (fun _ _ _ _ first second => absurd second (asymm first)) hx hy ?_
  exact (List.perm_ext_iff_of_nodup (nodup hx) (nodup hy)).mpr same

end LuaTune

namespace LuaTune.Files.Path

variable {p q : Path} {rel sub : List String}

def down (p : Path) (rel : List String) : Path := ⟨p.rooted, p.parts ++ rel⟩

@[simp]
theorem down_nil (p : Path) : p.down [] = p := by
  simp [down]

@[simp]
theorem child_down (p : Path) (rel : List String) (name : String) :
    (p.down rel).child name = p.down (rel ++ [name]) := by
  simp [down, child]

@[simp]
theorem down_down (p : Path) (rel sub : List String) : (p.down rel).down sub = p.down (rel ++ sub) := by
  simp [down]

@[simp]
theorem allParts_down (p : Path) (rel : List String) : (p.down rel).allParts = p.allParts ++ rel := by
  unfold allParts down
  split <;> simp

theorem relativeTo?_down (p : Path) (rel : List String) :
    (p.down rel).relativeTo? p = some ⟨false, rel⟩ := by
  simp [relativeTo?, down]

theorem child_eq_down (p : Path) (name : String) : p.child name = p.down [name] := rfl

@[simp]
theorem down_inj : p.down rel = p.down sub ↔ rel = sub := by
  simp [down]

/-! ## The order of paths -/

theorem partsPrecede_iff {a b : List String} : partsPrecede a b ↔ a = b ∨ List.Lex (· < ·) a b := by
  induction a generalizing b with
  | nil => cases b <;> simp [partsPrecede]
  | cons x a ih =>
    cases b with
    | nil => simp [partsPrecede]
    | cons y b =>
      simp only [partsPrecede, Bool.or_eq_true, decide_eq_true_eq, Bool.and_eq_true, beq_iff_eq, ih,
        List.cons.injEq, List.cons_lex_cons_iff]
      tauto

theorem partsPrecede_total (a b : List String) : partsPrecede a b ∨ partsPrecede b a := by
  by_contra none
  simp only [partsPrecede_iff, not_or] at none
  obtain ⟨⟨ne, before⟩, -, behind⟩ := none
  refine ne (List.lex_trichotomous (fun x y h h' => ?_) behind before)
  exact String.le_antisymm (String.not_lt.mp h') (String.not_lt.mp h)

theorem partsPrecede_trans (a b c : List String) : partsPrecede a b → partsPrecede b c → partsPrecede a c := by
  simp only [partsPrecede_iff]
  rintro (rfl | first) (rfl | second)
  · exact .inl rfl
  · exact .inr second
  · exact .inr first
  · exact .inr (List.lex_trans String.lt_trans first second)

def Precedes (p q : Path) : Prop := List.Lex (· < ·) p.allParts q.allParts

theorem Precedes.asymm (h : p.Precedes q) : ¬q.Precedes p := List.lex_asymm String.lt_asymm h

theorem allParts_inj (rooted : p.rooted = q.rooted) (same : p.allParts = q.allParts) : p = q := by
  obtain ⟨r, ps⟩ := p
  obtain ⟨r', qs⟩ := q
  obtain rfl : r = r' := rooted
  cases r <;> simp_all [allParts]

theorem precedes_down : (p.down rel).Precedes (p.down sub) ↔ List.Lex (· < ·) rel sub := by
  unfold Precedes
  rw [allParts_down, allParts_down]
  induction p.allParts with
  | nil => rfl
  | cons name names ih =>
    simp only [List.cons_append, List.cons_lex_cons_iff, String.lt_irrefl, false_or, true_and, ih]

theorem mem_sort {ps : List Path} : p ∈ sort ps ↔ p ∈ ps := mem_sortBy

theorem sort_increasing {ps : List Path} (nodup : ps.Nodup)
    (alike : ∀ p ∈ ps, ∀ q ∈ ps, p.rooted = q.rooted) : (sort ps).Pairwise Precedes := by
  have ordered := sortBy_pairwise (fun p q : Path => partsPrecede_total p.allParts q.allParts)
    (fun p q r => partsPrecede_trans p.allParts q.allParts r.allParts) ps
  have distinct : (sort ps).Nodup := (sortBy_perm _ ps).nodup_iff.mpr nodup
  refine (ordered.and distinct).imp_of_mem ?_
  rintro p q hp hq ⟨before, ne⟩
  refine (partsPrecede_iff.mp before).resolve_left fun same => ?_
  exact ne (allParts_inj (alike p (mem_sort.mp hp) q (mem_sort.mp hq)) same)

end LuaTune.Files.Path

namespace LuaTune.Resources

open Files Text List

variable {t : Tree} {root d d' p q : Path} {l : Location} {name : String} {rel sub : List String}

/-! ## Names -/

/-- Each place has one entry, under a name that leads to it. -/
structure IsFileTree (t : Tree) : Prop where
  proper : ProperNames t
  distinct : (t.entries.map (·.1)).Nodup

instance (t : Tree) : Decidable (IsFileTree t) :=
  decidable_of_iff (ProperNames t ∧ (t.entries.map (·.1)).Nodup)
    ⟨fun h => ⟨h.1, h.2⟩, fun h => ⟨h.proper, h.distinct⟩⟩

theorem IsFileTree.names_nodup (tree : IsFileTree t) (d : Path) : (t.names d).Nodup := by
  unfold Tree.names
  split
  · rename_i l _
    refine (sortBy_perm _ _).nodup_iff.mpr ?_
    have places : t.entries.Pairwise fun e e' => e.1 ≠ e'.1 := pairwise_map.mp tree.distinct
    refine List.Pairwise.filterMap _ (fun e e' apart name hn name' hn' => ?_) places
    rintro rfl
    exact apart ((nameBelow?_eq_some hn).trans (nameBelow?_eq_some hn').symm)
  · exact nodup_nil

theorem not_isTopPlace_concat (named : IsName name) : ¬IsTopPlace (l ++ [name]) := by
  rintro (none | top)
  · simp at none
  · have := congrArg placeName top
    rw [placeName_snoc] at this
    exact named.2 (by simp [this, placeName])

theorem mem_names_iff (tree : IsFileTree t) (dir : t.isDirectory d) :
    name ∈ t.names d ↔ IsName name ∧ t.contains (d.child name) := by
  constructor
  · intro hn
    have named := tree.proper.isName hn
    exact ⟨named, contains_child dir hn named.1⟩
  · rintro ⟨named, there⟩
    obtain ⟨m, e, place, entry⟩ := contains_iff.mp there
    obtain ⟨l, above, -, rfl⟩ := (locate_child named.1).mp place
    exact mem_names_of_entry above entry (not_isTopPlace_concat named)

theorem mem_endingWith_iff (tree : IsFileTree t) {ending : String} : p ∈ t.endingWith d ending ↔
      ∃ name, IsName name ∧ p = d.child name ∧ t.contains p ∧ ending.toList <:+ name.toList := by
  rw [mem_endingWith]
  constructor
  · rintro ⟨dir, name, hn, rfl, ends⟩
    obtain ⟨named, there⟩ := (mem_names_iff tree dir).mp hn
    exact ⟨name, named, rfl, there, Text.endsWith_iff.mp ends⟩
  · rintro ⟨name, named, rfl, there, ends⟩
    have dir := isDirectory_of_contains_child named there
    exact ⟨dir, name, (mem_names_iff tree dir).mpr ⟨named, there⟩, rfl, Text.endsWith_iff.mpr ends⟩

/-! ## The walk -/

theorem child_inj {name' : String} : d.child name = d'.child name' ↔ d = d' ∧ name = name' := by
  cases d
  cases d'
  simp [Path.child, and_assoc]

theorem isDirectory_down_of_concat (named : IsName name) (dir : t.isDirectory (d.down (rel ++ [name]))) :
    t.isDirectory (d.down rel) := by
  rw [← Path.child_down] at dir
  exact isDirectory_of_contains_child named (contains_of_isDirectory dir)

theorem isDirectory_of_down (names : ∀ n ∈ rel, IsName n) (dir : t.isDirectory (d.down rel)) :
    t.isDirectory d := by
  induction rel using List.reverseRec with
  | nil => simpa using dir
  | append_singleton rel last ih =>
    exact ih (fun n hn => names n (mem_append_left _ hn))
      (isDirectory_down_of_concat (names last (by simp)) dir)

theorem mem_entries_of_isDirectory (place : t.locate d = .ok l) (names : ∀ n ∈ rel, IsName n)
    (dir : t.isDirectory (d.down rel)) :
    t.locate (d.down rel) = .ok (l ++ rel) ∧
      ∀ i < rel.length, l ++ rel.take (i + 1) ∈ t.entries.map (·.1) := by
  induction rel using List.reverseRec with
  | nil => simpa using place
  | append_singleton rel name ih =>
    have named := names name (by simp)
    obtain ⟨above, on⟩ := ih (fun n hn => names n (mem_append_left _ hn))
      (isDirectory_down_of_concat named dir)
    rw [← Path.child_down] at dir ⊢
    obtain ⟨m, here, entry⟩ := isDirectory_iff.mp dir
    obtain ⟨l', above', -, rfl⟩ := (locate_child named.1).mp here
    obtain rfl := Except.ok.inj (above.symm.trans above')
    rw [append_assoc] at here entry
    refine ⟨here, fun i hi => ?_⟩
    rcases Nat.lt_or_ge i rel.length with before | last
    · rw [take_append_of_le_length before]
      exact on i before
    · rw [take_of_length_le (by simp; omega)]
      refine mem_map.mpr ⟨_, mem_entries_of_entry entry ?_, rfl⟩
      rw [← append_assoc]
      exact not_isTopPlace_concat named

theorem length_le_of_isDirectory (names : ∀ n ∈ rel, IsName n) (here : t.isDirectory d)
    (dir : t.isDirectory (d.down rel)) : rel.length ≤ t.entries.length := by
  obtain ⟨l, place, -⟩ := isDirectory_iff.mp here
  obtain ⟨-, on⟩ := mem_entries_of_isDirectory place names dir
  let way := (List.range rel.length).map fun i => l ++ rel.take (i + 1)
  have apart : way.Nodup := by
    refine List.Nodup.map_on (fun i hi j hj same => ?_) nodup_range
    have lengths := congrArg List.length same
    rw [mem_range] at hi hj
    simp only [length_append, length_take] at lengths
    omega
  have inside : way ⊆ t.entries.map (·.1) := by
    intro m hm
    obtain ⟨i, hi, rfl⟩ := mem_map.mp hm
    exact on i (mem_range.mp hi)
  simpa [way] using (apart.subperm inside).length_le

theorem mem_directoriesFrom (tree : IsFileTree t) {depth : Nat} (names : ∀ n ∈ rel, IsName n)
    (here : t.isDirectory d) (dir : t.isDirectory (d.down rel)) (deep : rel.length < depth) :
    d.down rel ∈ t.directoriesFrom depth d := by
  induction depth generalizing d rel with
  | zero => cases deep
  | succ depth ih =>
    rw [Tree.directoriesFrom]
    cases rel with
    | nil =>
      rw [Path.down_nil]
      exact mem_cons_self
    | cons name rel =>
      have step : d.down (name :: rel) = (d.child name).down rel := by
        rw [Path.child_eq_down, Path.down_down]
        rfl
      rw [step] at dir ⊢
      have named := names name mem_cons_self
      have names := fun n hn => names n (mem_cons_of_mem _ hn)
      have first := isDirectory_of_down names dir
      have listed : d.child name ∈ (t.children d).filter t.isDirectory := mem_filter.mpr ⟨mem_map_of_mem
          ((mem_names_iff tree here).mpr ⟨named, contains_of_isDirectory first⟩), first⟩
      refine mem_cons_of_mem _ (mem_flatMap.mpr ⟨d.child name, listed, ?_⟩)
      exact ih names first dir (Nat.lt_of_succ_lt_succ deep)

theorem mem_directories_iff (tree : IsFileTree t) : p ∈ t.directories d ↔ t.isDirectory d ∧
      ∃ rel, (∀ n ∈ rel, IsName n) ∧ p = d.down rel ∧ t.isDirectory p := by
  constructor
  · intro hp
    obtain ⟨rel, rfl, names⟩ := (descends_of_mem_directories tree.proper hp).parts
    obtain ⟨here, depth, hp⟩ := mem_directories hp
    exact ⟨here, rel, names, rfl, of_mem_directoriesFrom here (fun _ _ _ _ dir => dir) hp⟩
  · rintro ⟨here, rel, names, rfl, dir⟩
    rw [Tree.directories, if_pos here]
    exact mem_directoriesFrom tree names here dir
      (Nat.lt_succ_of_le (length_le_of_isDirectory names here dir))

theorem IsFileTree.directoriesFrom_nodup (tree : IsFileTree t) (depth : Nat) (d : Path) :
    (t.directoriesFrom depth d).Nodup := by
  induction depth generalizing d with
  | zero => exact nodup_nil
  | succ depth ih =>
    rw [Tree.directoriesFrom, nodup_cons]
    refine ⟨fun h => ?_, nodup_flatMap.mpr ⟨fun c _ => ih c, ?_⟩⟩
    · obtain ⟨c, hc, hd⟩ := mem_flatMap.mp h
      obtain ⟨name, -, rfl⟩ := mem_map.mp (mem_filter.mp hc).1
      have := (isBelow_of_mem_directoriesFrom hd).parts.length_le
      simp only [Path.child, length_append, length_singleton] at this
      omega
    · have apart : (t.children d).Pairwise fun c c' =>
          ∃ n n', n ≠ n' ∧ c = d.child n ∧ c' = d.child n' := by
        refine pairwise_map.mpr ((tree.names_nodup d).imp fun ne => ?_)
        exact ⟨_, _, ne, rfl, rfl⟩
      refine (apart.filter _).imp ?_
      rintro _ _ ⟨n, n', ne, rfl, rfl⟩ x hx hx'
      -- both children are the same part of the path
      have same := prefix_of_prefix_length_le (isBelow_of_mem_directoriesFrom hx).parts
        (isBelow_of_mem_directoriesFrom hx').parts (by simp [Path.child])
      have := same.eq_of_length (by simp [Path.child])
      simp only [Path.child, append_cancel_left_eq, List.cons.injEq, and_true] at this
      exact ne this

theorem IsFileTree.directories_nodup (tree : IsFileTree t) (d : Path) : (t.directories d).Nodup := by
  unfold Tree.directories
  split
  · exact tree.directoriesFrom_nodup _ d
  · exact nodup_nil

theorem parent_of_mem_endingWith {ending : String} (hp : p ∈ t.endingWith d ending) : p.parent = d := by
  obtain ⟨-, name, -, rfl, -⟩ := mem_endingWith.mp hp
  exact Path.parent_of_child d name

theorem IsFileTree.endingWith_nodup (tree : IsFileTree t) (d : Path) (ending : String) :
    (t.endingWith d ending).Nodup := by
  unfold Tree.endingWith
  split
  · refine List.Nodup.filter _ (pairwise_map.mpr ((tree.names_nodup d).imp fun ne same => ?_))
    exact ne (child_inj.mp same).2
  · exact nodup_nil

theorem IsFileTree.flatMap_endingWith_nodup (tree : IsFileTree t) {ds : List Path} (nodup : ds.Nodup)
    (ending : String) : (ds.flatMap fun d => t.endingWith d ending).Nodup := by
  refine nodup_flatMap.mpr ⟨fun d _ => tree.endingWith_nodup d ending, nodup.imp ?_⟩
  intro d d' ne p hp hp'
  exact ne ((parent_of_mem_endingWith hp).symm.trans (parent_of_mem_endingWith hp'))

end LuaTune.Resources
