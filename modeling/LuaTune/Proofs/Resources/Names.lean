import LuaTune.Command.Lint
import LuaTune.Proofs.Files.Places

/-!
# What is found

Whatever the options, what holds of the scripts in each directory at and below a path holds of
everything that is found there.
-/

namespace LuaTune.Resources

open Files List

variable {t : Tree} {base root d p q : Path} {table : ScriptTable} {name : String}

/-! ## Below a path -/

structure IsBelow (base p : Path) : Prop where
  rooted : p.rooted = base.rooted
  parts : base.parts <+: p.parts

theorem IsBelow.refl (p : Path) : IsBelow p p := ⟨rfl, prefix_rfl⟩

theorem IsBelow.trans (h : IsBelow base p) (h' : IsBelow p q) : IsBelow base q :=
  ⟨h'.rooted.trans h.rooted, h.parts.trans h'.parts⟩

theorem IsBelow.child (h : IsBelow base p) (name : String) : IsBelow base (p.child name) :=
  h.trans ⟨rfl, prefix_append _ _⟩

theorem IsBelow.relativeTo? (h : IsBelow base p) : ∃ rel, p.relativeTo? base = some rel := by
  unfold Path.relativeTo?
  rw [if_pos]
  · exact ⟨_, rfl⟩
  · simp [h.rooted, h.parts]

theorem of_mem_directoriesFrom {R : Path → Prop} (here : R d)
    (step : ∀ p, R p → ∀ c ∈ t.children p, t.isDirectory c → R c) {depth : Nat}
    (h : p ∈ t.directoriesFrom depth d) : R p := by
  induction depth generalizing d with
  | zero => cases h
  | succ depth ih =>
    rcases mem_cons.mp h with rfl | h
    · exact here
    · obtain ⟨c, hc, hp⟩ := mem_flatMap.mp h
      obtain ⟨hc, dir⟩ := mem_filter.mp hc
      exact ih (step d here c hc dir) hp

theorem isBelow_of_mem_directoriesFrom {depth : Nat} (h : p ∈ t.directoriesFrom depth d) :
    IsBelow d p := by
  refine of_mem_directoriesFrom (.refl d) (fun p below c hc _ => ?_) h
  obtain ⟨name, -, rfl⟩ := mem_map.mp hc
  exact below.child name

theorem mem_directories (h : p ∈ t.directories d) :
    t.isDirectory d ∧ ∃ depth, p ∈ t.directoriesFrom depth d := by
  unfold Tree.directories at h
  split at h
  · exact ⟨‹_›, _, h⟩
  · cases h

theorem isBelow_of_mem_directories (h : p ∈ t.directories d) : IsBelow d p := by
  obtain ⟨-, depth, h⟩ := mem_directories h
  exact isBelow_of_mem_directoriesFrom h

theorem isBelow_of_mem_allNamed {manifest : Path}
    (hm : manifest ∈ t.allNamed root name) : IsBelow root manifest.parent := by
  obtain ⟨d, hd, rfl⟩ := mem_map.mp (mem_filter.mp hm).1
  rw [Path.parent_of_child]
  exact isBelow_of_mem_directories hd

theorem mem_endingWith {ending : String} : p ∈ t.endingWith d ending ↔ t.isDirectory d ∧
    ∃ name ∈ t.names d, d.child name = p ∧ Text.endsWith name.toList ending.toList := by
  unfold Tree.endingWith Tree.children
  split
  · rename_i dir
    rw [mem_filter, mem_map, and_iff_right dir]
    constructor
    · rintro ⟨⟨name, hn, rfl⟩, ends⟩
      rw [Path.name_child] at ends
      exact ⟨name, hn, rfl, ends⟩
    · rintro ⟨name, hn, rfl, ends⟩
      rw [Path.name_child]
      exact ⟨⟨name, hn, rfl⟩, ends⟩
  · simp [*]

/-! ## The table of resources -/

def tableEntry (t : Tree) (root d : Path) : String × List Path := (resourceName d root, scriptsOf t d)

def manifests (t : Tree) (root : Path) : List Path :=
  t.allNamed root "fxmanifest.lua" ++ t.allNamed root "__resource.lua"

theorem addResource_eq (t : Tree) (root : Path) (table : ScriptTable) (m : Path) :
    addResource t root table m =
      if (table.any fun e => e.1 == resourceName m.parent root) || (scriptsOf t m.parent).isEmpty
      then table else table ++ [tableEntry t root m.parent] := by
  unfold addResource tableEntry
  simp only
  cases table.any fun e => e.1 == resourceName m.parent root with
  | true => rfl
  | false => cases scriptsOf t m.parent <;> rfl

theorem mem_addResource {m : Path} {e : String × List Path}
    (he : e ∈ addResource t root table m) :
    e ∈ table ∨ scriptsOf t m.parent ≠ [] ∧ e = tableEntry t root m.parent := by
  rw [addResource_eq] at he
  split at he
  · exact .inl he
  · rcases mem_append.mp he with he | he
    · exact .inl he
    · simp_all

theorem mem_foldl_addResource {ms : List Path} {e : String × List Path}
    (he : e ∈ ms.foldl (addResource t root) table) :
    e ∈ table ∨ ∃ m ∈ ms, scriptsOf t m.parent ≠ [] ∧ e = tableEntry t root m.parent := by
  induction ms generalizing table with
  | nil => exact .inl he
  | cons m ms ih =>
    rcases ih he with he | ⟨m', hm, rest⟩
    · exact (mem_addResource he).imp_right fun rest => ⟨m, mem_cons_self, rest⟩
    · exact .inr ⟨m', mem_cons_of_mem m hm, rest⟩

/-! ## All scripts -/

theorem mem_withUnhidden {usual all : List Path} (h : p ∈ withUnhidden usual all) :
    p ∈ usual ∨ p ∈ all := by
  unfold withUnhidden Path.sort at h
  rw [mem_sortBy, mem_append, mem_filter] at h
  exact h.imp_right And.left

section

variable {Q : Path → Prop} (h : ∀ d, IsBelow root d → ∀ p ∈ t.endingWith d ".lua", Q p)
include h

theorem of_mem_allEndingWith (below : IsBelow root d) (hp : p ∈ t.allEndingWith d ".lua") : Q p := by
  obtain ⟨d', hd, hp⟩ := mem_flatMap.mp hp
  exact h d' (below.trans (isBelow_of_mem_directories hd)) p hp

theorem of_mem_scriptsOf (below : IsBelow root d) (hp : p ∈ scriptsOf t d) : Q p := by
  rcases mem_withUnhidden hp with usual | all
  · rcases mem_append.mp usual with own | usual
    · exact h d below p own
    · obtain ⟨name, -, hp⟩ := mem_flatMap.mp usual
      exact h _ (below.child name) p hp
  · exact of_mem_allEndingWith h below all

theorem of_mem_discover : ∀ e ∈ discover t root, ∀ p ∈ e.2, Q p := by
  unfold discover
  split
  · split
    · exact fun _ he => nomatch he
    · intro e he p hp
      obtain rfl := mem_singleton.mp he
      exact of_mem_scriptsOf h (.refl root) hp
  · intro e he p hp
    rcases mem_foldl_addResource he with no | ⟨m, hm, -, rfl⟩
    · cases no
    · exact of_mem_scriptsOf h ((mem_append.mp hm).elim isBelow_of_mem_allNamed isBelow_of_mem_allNamed) hp

theorem of_mem_discoverDirect (file : t.isFile root → root.suffix = ".lua" → Q root) :
    ∀ e ∈ discoverDirect t root, ∀ p ∈ e.2, Q p := by
  unfold discoverDirect
  split
  · split
    · intro e he p hp
      obtain rfl := mem_singleton.mp he
      obtain rfl := mem_singleton.mp hp
      exact file ‹_› (eq_of_beq ‹_›)
    · exact fun _ he => nomatch he
  · split
    · exact fun _ he => nomatch he
    · intro e he p hp
      obtain rfl := mem_singleton.mp he
      rcases mem_withUnhidden hp with own | all
      · exact h root (.refl root) p own
      · exact of_mem_allEndingWith h (.refl root) all

theorem of_mem_scriptsAt {o : Command.Options}
    (file : t.isFile root → root.suffix = ".lua" → Q root) :
    ∀ e ∈ Command.scriptsAt o t root, ∀ p ∈ e.2, Q p := by
  unfold Command.scriptsAt
  split
  · exact of_mem_discoverDirect h file
  · exact of_mem_discover h

end

/-! ## Names -/

theorem isNamed_of_isScriptName (h : isScriptName p.name) : p.IsNamed := by
  have final := finalSign_scriptName h
  refine ⟨fun none => ?_, fun dots => ?_⟩
  · rw [Path.name, none] at final
    exact absurd final (by decide)
  · rw [dots] at final
    exact absurd final (by decide)

theorem isScriptName_of_mem_endingWith (h : p ∈ t.endingWith d ".lua") : isScriptName p.name := by
  obtain ⟨-, name, -, rfl, ends⟩ := mem_endingWith.mp h
  rwa [Path.name_child]

theorem isScriptName_of_suffix (h : p.suffix = ".lua") : isScriptName p.name := by
  unfold Path.suffix at h
  split at h
  · rename_i n hn
    have := congrArg String.toList h
    rw [String.toList_ofList] at this
    exact Text.endsWith_iff.mpr (this ▸ drop_suffix n _)
  · exact absurd h (by decide)

def NamesScripts (table : ScriptTable) : Prop := ∀ e ∈ table, ∀ p ∈ e.2, isScriptName p.name

theorem namesScripts_scriptsAt (o : Command.Options) (t : Tree) (root : Path) :
    NamesScripts (Command.scriptsAt o t root) :=
  of_mem_scriptsAt (fun _ _ _ hp => isScriptName_of_mem_endingWith hp)
    fun _ ending => isScriptName_of_suffix ending

theorem NamesScripts.mem (named : NamesScripts table)
    (hp : p ∈ table.flatMap (·.2)) : isScriptName p.name := by
  obtain ⟨e, he, hp⟩ := mem_flatMap.mp hp
  exact named e he p hp

theorem map_scriptItems (table : ScriptTable) :
    (Command.scriptItems table).map (·.2) = table.flatMap (·.2) := by
  unfold Command.scriptItems
  rw [map_flatMap]
  congr
  funext e
  rw [map_map]
  exact map_id _

theorem NamesScripts.items (named : NamesScripts table) :
    ∀ s ∈ Command.scriptItems table, isScriptName s.2.name :=
  fun _ hs => named.mem (map_scriptItems table ▸ mem_map_of_mem hs)

/-! ## Presence -/

theorem nameBelow?_eq_some {l : Location} {e : Location × Entry}
    (h : Tree.nameBelow? l e = some name) : e.1 = l ++ [name] := by
  unfold Tree.nameBelow? at h
  split at h
  · obtain ⟨rfl, -⟩ := ‹e.1.dropLast = l ∧ _›
    obtain ⟨front, at'⟩ := List.getLast?_eq_some_iff.mp h
    rw [at', dropLast_concat]
  · cases h

theorem place_of_mem_names (h : name ∈ t.names d) :
    ∃ l, t.locate d = .ok l ∧ ∃ e ∈ t.entries, e.1 = l ++ [name] := by
  unfold Tree.names sortNames at h
  split at h
  · obtain ⟨e, he, below⟩ := mem_filterMap.mp (mem_sortBy.mp h)
    exact ⟨_, ‹_›, e, he, nameBelow?_eq_some below⟩
  · cases h

theorem contains_child (dir : t.isDirectory d) (hn : name ∈ t.names d)
    (named : name ≠ "..") : t.contains (d.child name) := by
  obtain ⟨l, place, here⟩ := isDirectory_iff.mp dir
  obtain ⟨l', place', e, he, at'⟩ := place_of_mem_names hn
  obtain rfl := Except.ok.inj (place.symm.trans place')
  obtain ⟨e', there⟩ := exists_entry he
  rw [at'] at there
  exact contains_iff.mpr ⟨_, e', (locate_child named).mpr ⟨_, place, here, rfl⟩, there⟩

theorem mem_names_of_entry {r : Location} {e : Entry} (place : t.locate d = .ok r)
    (there : t.entry? (r ++ [name]) = some e) (top : ¬IsTopPlace (r ++ [name])) : name ∈ t.names d := by
  have listed := mem_entries_of_entry there top
  unfold Tree.names sortNames
  rw [place]
  refine mem_sortBy.mpr (mem_filterMap.mpr ⟨_, listed, ?_⟩)
  unfold Tree.nameBelow?
  rw [if_pos ⟨dropLast_concat, append_ne_nil_of_right_ne_nil r (cons_ne_nil _ _)⟩, List.getLast?_concat]

structure IsFound (t : Tree) (root p : Path) : Prop where
  below : IsBelow root p
  there : t.contains p

theorem isFound_of_mem_endingWith (below : IsBelow root d) (hp : p ∈ t.endingWith d ".lua") :
    IsFound t root p := by
  have named := isNamed_of_isScriptName (isScriptName_of_mem_endingWith hp)
  obtain ⟨dir, name, hn, rfl, -⟩ := mem_endingWith.mp hp
  refine ⟨below.child name, contains_child dir hn ?_⟩
  rw [← Path.name_child d name]
  exact named.2

theorem isFound_of_mem_scriptsAt {o : Command.Options} (dir : t.isDirectory root) :
    ∀ e ∈ Command.scriptsAt o t root, ∀ p ∈ e.2, IsFound t root p := by
  refine of_mem_scriptsAt (fun d below p hp => isFound_of_mem_endingWith below hp) fun file => ?_
  unfold Tree.isDirectory at dir
  unfold Tree.isFile at file
  split at file
  · simp_all
  · cases file

end LuaTune.Resources
