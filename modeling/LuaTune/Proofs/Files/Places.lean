import LuaTune.Files.Script
import LuaTune.Proofs.Tables

/-!
# Places in a file tree

As long as the directories stay the same, a path leads to the same place.
-/

namespace LuaTune.Files

open Text List

variable {t t' : Tree} {l m : Location} {p : Path} {e : Entry} {name : String}

/-! ## Entries -/

abbrev IsTopPlace (l : Location) : Prop := l = [] ∨ l = ["/"]

theorem entry?_top (t : Tree) (h : IsTopPlace l) : t.entry? l = some .directory := if_pos h

theorem entry?_put_self (t : Tree) (h : ¬IsTopPlace l) (e : Entry) : Tree.entry? (t.put l e) l = some e := by
  unfold Tree.entry? Tree.put
  rw [if_neg h, getKey?_setKey_self]

theorem entry?_put_ne (t : Tree) (h : m ≠ l) (e : Entry) : Tree.entry? (t.put l e) m = t.entry? m := by
  unfold Tree.entry? Tree.put
  rw [getKey?_setKey_ne h]

theorem entry?_erase_self (t : Tree) (h : ¬IsTopPlace l) : Tree.entry? (t.erase l) l = none := by
  unfold Tree.entry? Tree.erase
  rw [if_neg h]
  simp [getKey?]

theorem entry?_erase_ne (t : Tree) (h : m ≠ l) : Tree.entry? (t.erase l) m = t.entry? m := by
  unfold Tree.entry? Tree.erase getKey?
  congr 2
  rw [find?_filter]
  congr 1
  funext e
  by_cases he : e.1 = m <;> simp [he, h]

theorem mem_entries_of_entry (h : t.entry? l = some e) (top : ¬IsTopPlace l) : (l, e) ∈ t.entries := by
  unfold Tree.entry? at h
  rw [if_neg top] at h
  obtain ⟨x, hx, rfl⟩ := Option.map_eq_some_iff.mp h
  have := find?_some hx
  obtain rfl := eq_of_beq this
  exact mem_of_find?_eq_some hx

theorem exists_entry {x : Location × Entry} (h : x ∈ t.entries) : ∃ e, t.entry? x.1 = some e := by
  unfold Tree.entry?
  split
  · exact ⟨_, rfl⟩
  · have found : (t.entries.find? fun e => e.1 == x.1).isSome :=
      find?_isSome.mpr ⟨x, h, beq_self_eq_true _⟩
    obtain ⟨y, hy⟩ := Option.isSome_iff_exists.mp found
    exact ⟨y.2, by rw [getKey?, hy]; rfl⟩

/-! ## Reading and writing -/

theorem stat_eq_ok : t.stat p = .ok e ↔ ∃ l, t.locate p = .ok l ∧ t.entry? l = some e := by
  unfold Tree.stat
  cases hl : t.locate p with
  | error o => simp [bind, Except.bind]
  | ok l => cases he : t.entry? l <;> simp [bind, Except.bind, he, pure, Except.pure]

theorem read_eq_ok {c : Content} :
    t.read p = .ok c ↔ ∃ l, t.locate p = .ok l ∧ t.entry? l = some (.file c) := by
  rw [← stat_eq_ok]
  unfold Tree.read
  rcases t.stat p with o | ⟨c⟩ | _ <;> simp

theorem contains_iff : t.contains p ↔ ∃ l e, t.locate p = .ok l ∧ t.entry? l = some e := by
  rw [exists_comm]
  simp only [← stat_eq_ok, Tree.contains]
  cases t.stat p <;> simp

theorem entry?_of_not_contains (place : t.locate p = .ok l) (h : ¬t.contains p) :
    t.entry? l = none := by
  cases there : t.entry? l with
  | none => rfl
  | some e => exact absurd (contains_iff.mpr ⟨l, e, place, there⟩) h

theorem isDirectory_iff : t.isDirectory p ↔ ∃ l, t.locate p = .ok l ∧ t.entry? l = some .directory := by
  rw [← stat_eq_ok]
  unfold Tree.isDirectory
  rcases t.stat p with o | ⟨c⟩ | _ <;> simp

theorem write_eq_ok {c : Content} : t.write p c = .ok t' ↔
      ∃ l, t.locate p = .ok l ∧ t.entry? l ≠ some .directory ∧ t' = t.put l (.file c) := by
  unfold Tree.write
  cases hl : t.locate p with
  | error o => simp
  | ok l => cases he : t.entry? l with
    | none => simp [he, eq_comm]
    | some e => cases e <;> simp [he, eq_comm]

theorem remove_eq_ok : t.remove p = .ok t' ↔
      ∃ l c, t.locate p = .ok l ∧ t.entry? l = some (.file c) ∧ t' = t.erase l := by
  unfold Tree.remove
  cases hl : t.locate p with
  | error o => simp
  | ok l => cases he : t.entry? l with
    | none => simp [he]
    | some e => cases e <;> simp [he, eq_comm]

theorem entry?_of_remove_error {e : FileError} (place : t.locate p = .ok l)
    (file : t.entry? l ≠ some .directory) (h : t.remove p = .error e) : t.entry? l = none := by
  cases there : t.entry? l with
  | none => rfl
  | some e =>
    cases e with
    | directory => exact absurd there file
    | file c => cases h.symm.trans (remove_eq_ok.mpr ⟨l, c, place, there, rfl⟩)

theorem copy_eq_ok {source target : Path} : t.copy source target = .ok t' ↔ ∃ c, t.read source = .ok c ∧
      t.write (if t.isDirectory target then target.child source.name else target) c = .ok t' := by
  unfold Tree.copy
  cases t.read source <;> simp [bind, Except.bind]

/-! ## Following paths -/

theorem follow_append (t : Tree) (here : Location) (ps qs : List String) :
    t.follow here (ps ++ qs) = (t.follow here ps).bind fun l => t.follow l qs := by
  induction ps generalizing here with
  | nil => rfl
  | cons p ps ih =>
    simp only [cons_append, Tree.follow]
    split
    · rfl
    · rfl
    · split
      · split
        · rfl
        · exact ih _
      · exact ih _

theorem follow_cons {here : Location} {ps : List String} : t.follow here (name :: ps) = .ok l ↔
    t.entry? here = some .directory ∧ if name = ".." then here ≠ [] ∧ t.follow here.dropLast ps = .ok l
      else t.follow (here ++ [name]) ps = .ok l := by
  rw [Tree.follow]
  rcases t.entry? here with _ | _ | c
  · simp
  · by_cases dots : name = ".."
    · cases here <;> simp [dots]
    · simp [dots]
  · simp

theorem follow_name (h : name ≠ "..") :
    t.follow l [name] = .ok m ↔ t.entry? l = some .directory ∧ m = l ++ [name] := by
  rw [follow_cons, if_neg h, Tree.follow, Except.ok.injEq, eq_comm (a := m)]

theorem locate_child (h : name ≠ "..") :
    t.locate (p.child name) = .ok m ↔
      ∃ l, t.locate p = .ok l ∧ t.entry? l = some .directory ∧ m = l ++ [name] := by
  unfold Tree.locate Path.child
  rw [follow_append]
  cases t.follow (if p.rooted then ["/"] else []) p.parts with
  | error o => simp [Except.bind]
  | ok l => simp [Except.bind, follow_name h]

def SameDirectories (t t' : Tree) : Prop :=
  ∀ l, t.entry? l = some .directory ↔ t'.entry? l = some .directory

theorem SameDirectories.symm (h : SameDirectories t t') : SameDirectories t' t := fun l => (h l).symm

theorem SameDirectories.trans {t'' : Tree} (h : SameDirectories t t') (h' : SameDirectories t' t'') :
    SameDirectories t t'' :=
  fun l => (h l).trans (h' l)

theorem not_isTopPlace_of_entry (h : t.entry? l ≠ some .directory) : ¬IsTopPlace l :=
  fun top => h (entry?_top t top)

theorem SameDirectories.put (h : SameDirectories t t') (file : t'.entry? l ≠ some .directory)
    (c : Content) : SameDirectories t (t'.put l (.file c)) := by
  intro m
  by_cases hm : m = l
  · subst hm
    rw [h, entry?_put_self t' (not_isTopPlace_of_entry file)]
    simp [file]
  · rw [h, entry?_put_ne t' hm]

theorem SameDirectories.erase (h : SameDirectories t t') (file : t'.entry? l ≠ some .directory) :
    SameDirectories t (t'.erase l) := by
  intro m
  by_cases hm : m = l
  · subst hm
    rw [h, entry?_erase_self t' (not_isTopPlace_of_entry file)]
    simp [file]
  · rw [h, entry?_erase_ne t' hm]

theorem SameDirectories.follow (h : SameDirectories t t') {here : Location} {ps : List String}
    (hl : t.follow here ps = .ok l) : t'.follow here ps = .ok l := by
  induction ps generalizing here with
  | nil => exact hl
  | cons p ps ih =>
    obtain ⟨dir, rest⟩ := follow_cons.mp hl
    refine follow_cons.mpr ⟨(h here).mp dir, ?_⟩
    split at rest
    · next dots => exact (if_pos dots).mpr (rest.imp_right ih)
    · next named => exact (if_neg named).mpr (ih rest)

theorem SameDirectories.locate (h : SameDirectories t t') (hl : t.locate p = .ok l) :
    t'.locate p = .ok l :=
  h.follow hl

/-! ## Names -/

def Path.IsNamed (p : Path) : Prop := p.parts ≠ [] ∧ p.name ≠ ".."

@[simp]
theorem Path.name_child (p : Path) (name : String) : (p.child name).name = name := by
  simp [Path.name, Path.child]

@[simp]
theorem Path.parent_of_child (p : Path) (name : String) : (p.child name).parent = p := by
  simp [Path.child, Path.parent]

theorem Path.parent_child (h : p.parts ≠ []) : p.parent.child p.name = p := by
  unfold Path.parent Path.child Path.name
  rw [getLastD_eq_getLast?, getLast?_eq_some_getLast h, Option.getD_some, dropLast_concat_getLast h]

theorem locate_named (h : p.IsNamed) : t.locate p = .ok m ↔
      ∃ l, t.locate p.parent = .ok l ∧ t.entry? l = some .directory ∧ m = l ++ [p.name] := by
  have := locate_child (t := t) (m := m) (p := p.parent) h.2
  rwa [Path.parent_child h.1] at this

def placeName (l : Location) : String := l.getLastD ""

@[simp]
theorem placeName_snoc (l : Location) (name : String) : placeName (l ++ [name]) = name := by
  simp [placeName]

theorem placeName_of_locate (h : p.IsNamed) (hl : t.locate p = .ok l) : placeName l = p.name := by
  obtain ⟨above, -, -, rfl⟩ := (locate_named h).mp hl
  exact placeName_snoc _ _

def finalSign (s : String) : Option Char := s.toList.getLast?

@[simp]
theorem finalSign_append (s : String) {ending : String} (h : ending.toList ≠ []) :
    finalSign (s ++ ending) = finalSign ending := by
  unfold finalSign
  rw [String.toList_append, getLast?_append]
  cases hl : ending.toList.getLast? with
  | none => exact absurd (getLast?_eq_none_iff.mp hl) h
  | some c => rfl

/-! ## Scripts and their copies -/

def isScriptName (name : String) : Bool := endsWith name.toList ".lua".toList

theorem finalSign_scriptName (h : isScriptName name) : finalSign name = some 'a' := by
  obtain ⟨front, hf⟩ := endsWith_iff.mp h
  have : name = String.ofList front ++ ".lua" := by
    apply String.toList_injective
    rw [String.toList_append, String.toList_ofList, hf]
  rw [this, finalSign_append _ (by decide)]
  decide

def copyPlace (l : Location) : Location := l.dropLast ++ [placeName l ++ ".flao-bak"]

theorem finalSign_copyPlace (l : Location) : finalSign (placeName (copyPlace l)) = some 'k' := by
  unfold copyPlace
  rw [placeName_snoc, finalSign_append _ (by decide)]
  decide

theorem snoc_placeName (h : l ≠ []) : l.dropLast ++ [placeName l] = l := by
  unfold placeName
  rw [getLastD_eq_getLast?, getLast?_eq_some_getLast h, Option.getD_some, dropLast_concat_getLast h]

theorem ne_nil_of_isScriptName (h : isScriptName (placeName l)) : l ≠ [] := by
  rintro rfl
  exact absurd h (by decide)

theorem copyPlace_injective (hl : isScriptName (placeName l)) (hm : isScriptName (placeName m))
    (h : copyPlace l = copyPlace m) : l = m := by
  obtain ⟨fronts, names⟩ := append_inj' h rfl
  obtain ⟨names, -⟩ := List.cons.inj names
  have names := congrArg String.toList names
  rw [String.toList_append, String.toList_append, append_cancel_right_eq, String.toList_inj] at names
  rw [← snoc_placeName (ne_nil_of_isScriptName hl), ← snoc_placeName (ne_nil_of_isScriptName hm), fronts, names]

theorem ne_copyPlace_of_finalSign (h : finalSign (placeName l) ≠ some 'k') : l ≠ copyPlace m :=
  fun eq => h (eq ▸ finalSign_copyPlace m)

theorem script_ne_copyPlace (h : isScriptName (placeName l)) : l ≠ copyPlace m :=
  ne_copyPlace_of_finalSign (by rw [finalSign_scriptName h]; decide)

theorem not_isTopPlace_of_finalSign {c : Char} (h : finalSign (placeName l) = some c) (hc : c ≠ '/') :
    ¬IsTopPlace l := by
  rintro (rfl | rfl)
  · simp [placeName, finalSign] at h
  · simp [placeName, finalSign] at h
    exact hc h.symm

theorem not_isTopPlace_copyPlace (l : Location) : ¬IsTopPlace (copyPlace l) :=
  not_isTopPlace_of_finalSign (finalSign_copyPlace l) (by decide)

theorem copy_mem_entries (h : t.entry? (copyPlace l) = some e) : (copyPlace l, e) ∈ t.entries ∧
    endsWith (placeName (copyPlace l)).toList ".flao-bak".toList := by
  refine ⟨mem_entries_of_entry h (not_isTopPlace_copyPlace l), endsWith_iff.mpr ?_⟩
  rw [copyPlace, placeName_snoc, String.toList_append]
  exact suffix_append _ _

theorem backupName_ne_dots : name ++ ".flao-bak" ≠ ".." := by
  intro dots
  have := congrArg finalSign dots
  rw [finalSign_append _ (by decide)] at this
  exact absurd this (by decide)

theorem locate_backupOf (h : p.IsNamed) (hl : t.locate p = .ok l) :
    t.locate (backupOf p) = .ok (copyPlace l) := by
  obtain ⟨above, ha, hd, rfl⟩ := (locate_named h).mp hl
  refine (locate_child backupName_ne_dots).mpr ⟨above, ha, hd, ?_⟩
  simp [copyPlace]

theorem script_mem_entries (named : isScriptName (placeName l)) (h : t.entry? l = some e) :
    (l, e) ∈ t.entries :=
  mem_entries_of_entry h (not_isTopPlace_of_finalSign (finalSign_scriptName named) (by decide))

/-! ## Restoring -/

theorem locate_of_backupOf (h : p.IsNamed) (hm : t.locate (backupOf p) = .ok m) :
    ∃ l, t.locate p = .ok l ∧ m = copyPlace l := by
  obtain ⟨above, ha, hd, rfl⟩ := (locate_child backupName_ne_dots).mp hm
  have hl := (locate_named h).mpr ⟨above, ha, hd, rfl⟩
  exact ⟨_, hl, Except.ok.inj (hm.symm.trans (locate_backupOf h hl))⟩

theorem copy_ok {q : Path} {c : Content} (source : t.locate p = .ok m) (content : t.entry? m = some (.file c))
    (target : t.locate q = .ok l) (file : t.entry? l ≠ some .directory) :
    t.copy p q = .ok (t.put l (.file c)) := by
  refine copy_eq_ok.mpr ⟨c, read_eq_ok.mpr ⟨m, source, content⟩, ?_⟩
  rw [if_neg (by simp [isDirectory_iff, target, file])]
  exact write_eq_ok.mpr ⟨l, target, file, rfl⟩

theorem restoreCopy_eq_ok (h : p.IsNamed) (restored : t.copy (backupOf p) p = .ok t') :
    ∃ l c, t.locate p = .ok l ∧ t.entry? (copyPlace l) = some (.file c) ∧
      (t.entry? l ≠ some .directory → t' = t.put l (.file c)) := by
  obtain ⟨c, hc, -⟩ := copy_eq_ok.mp restored
  obtain ⟨m, hm, copy⟩ := read_eq_ok.mp hc
  obtain ⟨l, hl, rfl⟩ := locate_of_backupOf h hm
  exact ⟨l, c, hl, copy, fun file => Except.ok.inj (restored.symm.trans (copy_ok hm copy hl file))⟩

theorem removeCopy_eq_ok (h : p.IsNamed) (place : t.locate p = .ok l)
    (removed : t.remove (backupOf p) = .ok t') :
    (∃ c, t.entry? (copyPlace l) = some (.file c)) ∧ t' = t.erase (copyPlace l) := by
  obtain ⟨m, c, hm, file, rfl⟩ := remove_eq_ok.mp removed
  obtain rfl := Except.ok.inj ((locate_backupOf h place).symm.trans hm)
  exact ⟨⟨c, file⟩, rfl⟩

theorem restoreCopy_ok (h : p.IsNamed) {c : Content} (place : t.locate p = .ok l)
    (file : t.entry? l ≠ some .directory) (copy : t.entry? (copyPlace l) = some (.file c)) :
    t.copy (backupOf p) p = .ok (t.put l (.file c)) :=
  copy_ok (locate_backupOf h place) copy place file

theorem removeCopy_ok (h : p.IsNamed) {c : Content} (place : t.locate p = .ok l)
    (copy : t.entry? (copyPlace l) = some (.file c)) :
    t.remove (backupOf p) = .ok (t.erase (copyPlace l)) :=
  remove_eq_ok.mpr ⟨_, c, locate_backupOf h place, copy, rfl⟩

end LuaTune.Files
