import LuaTune.Proofs.Files.Atomic
import Mathlib.Logic.Function.Iterate

/-!
# Fixing scripts in any order

A ledger sees a tree as what is at each place and counts the scripts that were modified and their
edits. Fixing the scripts at two places commutes, also when it is one place twice.
-/

namespace LuaTune.Files

open Text List
open Function (update update_self update_of_ne update_comm)

@[ext]
structure Ledger where
  files : Location → Option Entry
  modified : Nat
  edits : Nat

namespace Ledger

variable {o : FixOptions} {s : Ledger} {l m k : Location} {c d : Content} {r q : Fix.Fixed}

def credit (s : Ledger) : Except FixFault Fix.Fixed → Ledger
  | .ok r =>
    if r.modified then { s with modified := s.modified + 1, edits := s.edits + r.count } else s
  | .error _ => s

/-- The fix that is due for what is at a place, with the content that is fixed. -/
def due? (o : FixOptions) : Option Entry → Option (Content × Fix.Fixed)
  | some (.file c) =>
    match Fix.fixSource o.toOptions (scriptText c.toBytes) with
    | .ok r => if r.modified then some (c, r) else none
    | .error _ => none
  | _ => none

def copyAfter (o : FixOptions) (c : Content) (copy : Option Entry) : Option Entry :=
  if o.backup then some (copy.getD (.file c)) else copy

def write (o : FixOptions) (s : Ledger) (l : Location) (c : Content) (r : Fix.Fixed) : Ledger where
  files := update (update s.files (copyPlace l) (copyAfter o c (s.files (copyPlace l)))) l
    (some (.file (.bytes (bytesOfChars r.content))))
  modified := s.modified + 1
  edits := s.edits + r.count

def fix (o : FixOptions) (s : Ledger) (l : Location) : Ledger :=
  match due? o (s.files l) with
  | some (c, r) => s.write o l c r
  | none => s

theorem fix_of_due (h : due? o (s.files l) = some (c, r)) : s.fix o l = s.write o l c r := by
  rw [fix, h]

theorem fix_of_none (h : due? o (s.files l) = none) : s.fix o l = s := by
  rw [fix, h]

theorem files_write : (s.write o l c r).files =
    update (update s.files (copyPlace l) (copyAfter o c (s.files (copyPlace l)))) l
      (some (.file (.bytes (bytesOfChars r.content)))) := rfl

theorem files_write_ne (hl : k ≠ l) (copy : k ≠ copyPlace l) :
    (s.write o l c r).files k = s.files k := by
  rw [files_write, update_of_ne hl, update_of_ne copy]

theorem files_fix_ne (hl : k ≠ l) (copy : k ≠ copyPlace l) : (s.fix o l).files k = s.files k := by
  unfold fix
  split
  · exact files_write_ne hl copy
  · rfl

section

variable (apart : l ≠ m) (hl : isScriptName (placeName l)) (hm : isScriptName (placeName m))

include apart hl hm

theorem copyPlace_apart : copyPlace l ≠ copyPlace m := by
  intro same
  exact apart (copyPlace_injective hl hm same)

theorem files_write_apart : (s.write o l c r).files m = s.files m ∧
    (s.write o l c r).files (copyPlace m) = s.files (copyPlace m) :=
  ⟨files_write_ne apart.symm (script_ne_copyPlace hm),
    files_write_ne (script_ne_copyPlace hl).symm (copyPlace_apart apart hl hm).symm⟩

theorem write_comm : (s.write o l c r).write o m d q = (s.write o m d q).write o l c r := by
  have copies := copyPlace_apart apart hl hm
  have first := (files_write_apart (s := s) (o := o) (c := c) (r := r) apart hl hm).2
  have second := (files_write_apart (s := s) (o := o) (c := d) (r := q) apart.symm hm hl).2
  apply Ledger.ext
  · rw [files_write (l := m), files_write (s := s.write o m d q), first, second, files_write, files_write]
    rw [update_comm (script_ne_copyPlace hl), update_comm apart, update_comm copies,
      update_comm (script_ne_copyPlace hm).symm]
  · rfl
  · exact Nat.add_right_comm _ _ _

theorem fix_comm : (s.fix o l).fix o m = (s.fix o m).fix o l := by
  have readsM : (s.fix o l).files m = s.files m := files_fix_ne apart.symm (script_ne_copyPlace hm)
  have readsL : (s.fix o m).files l = s.files l := files_fix_ne apart (script_ne_copyPlace hl)
  cases dueL : due? o (s.files l) with
  | none =>
    rw [fix_of_none dueL, fix_of_none (s := s.fix o m) (by rw [readsL, dueL])]
  | some x =>
    obtain ⟨c, r⟩ := x
    cases dueM : due? o (s.files m) with
    | none => rw [fix_of_none (s := s) dueM, fix_of_none (by rw [readsM, dueM])]
    | some y =>
      obtain ⟨d, q⟩ := y
      rw [fix_of_due (s := s.fix o l) (readsM ▸ dueM), fix_of_due (s := s.fix o m) (readsL ▸ dueL),
        fix_of_due dueL, fix_of_due dueM]
      exact write_comm apart hl hm

end

theorem foldl_fix_perm {places order : List Location} (same : order.Perm places)
    (scripts : ∀ l ∈ places, isScriptName (placeName l)) (s : Ledger) :
    order.foldl (fix o) s = places.foldl (fix o) s := by
  apply same.foldl_eq'
  intro l hl m hm s
  by_cases twice : l = m
  · rw [twice]
  · exact fix_comm twice (scripts l (same.mem_iff.mp hl)) (scripts m (same.mem_iff.mp hm))

def AgreeAt (l : Location) (s s' : Ledger) : Prop :=
  s.files l = s'.files l ∧ s.files (copyPlace l) = s'.files (copyPlace l)

theorem AgreeAt.fix {s' : Ledger} (h : AgreeAt l s s') : AgreeAt l (s.fix o l) (s'.fix o l) := by
  unfold Ledger.fix
  rw [← h.1]
  split
  · refine ⟨?_, ?_⟩
    · rw [files_write, files_write, update_self, update_self]
    · rw [files_write, files_write]
      by_cases same : copyPlace l = l
      · rw [same, update_self, update_self]
      · rw [update_of_ne same, update_of_ne same, update_self, update_self, h.2]
  · exact h

theorem AgreeAt.iterate {s' : Ledger} (h : AgreeAt l s s') (n : Nat) :
    AgreeAt l ((fun s => s.fix o l)^[n] s) ((fun s => s.fix o l)^[n] s') := by
  induction n generalizing s s' with
  | zero => exact h
  | succ n ih => exact ih h.fix

/-- A script that is fixed several times, with others in between, becomes what as many fixes make of
it, and so does its copy. -/
theorem foldl_fix_agreeAt {places : List Location} (hl : isScriptName (placeName l))
    (scripts : ∀ m ∈ places, isScriptName (placeName m)) (s : Ledger) :
    AgreeAt l (places.foldl (fix o) s) ((fun s => s.fix o l)^[places.count l] s) := by
  induction places generalizing s with
  | nil => exact ⟨rfl, rfl⟩
  | cons m ms ih =>
    have hm := scripts m mem_cons_self
    have rest := ih (fun m' hm' => scripts m' (mem_cons_of_mem m hm')) (s.fix o m)
    by_cases here : m = l
    · subst here
      rw [foldl_cons, count_cons_self]
      exact rest
    · have other : AgreeAt l (s.fix o m) s := ⟨files_fix_ne (Ne.symm here) (script_ne_copyPlace hl),
          files_fix_ne (script_ne_copyPlace hm).symm (copyPlace_apart (Ne.symm here) hl hm)⟩
      have both := other.iterate (o := o) (ms.count l)
      rw [foldl_cons, count_cons_of_ne here]
      exact ⟨rest.1.trans both.1, rest.2.trans both.2⟩

end Ledger

/-! ## Trees -/

variable {o : FixOptions} {t t' : Tree} {l : Location} {p : Path}

theorem entry?_erase (h : ¬IsTopPlace l) : Tree.entry? (t.erase l) = update t.entry? l none := by
  funext m
  by_cases hm : m = l
  · rw [hm, entry?_erase_self t h, update_self]
  · rw [entry?_erase_ne t hm, update_of_ne hm]

theorem due?_eq_none (script : scriptAt? t p = none) (place : t.locate p = .ok l) :
    Ledger.due? o (t.entry? l) = none := by
  cases e : t.entry? l with
  | none => rfl
  | some e' =>
    cases e' with
    | directory => rfl
    | file c => simp [scriptAt?_of_file place e] at script

theorem file_of_scriptAt? {source : Chars} (script : scriptAt? t p = some source) :
    ∃ l c, t.locate p = .ok l ∧ t.entry? l = some (.file c) ∧ scriptText c.toBytes = source := by
  unfold scriptAt? at script
  split at script
  · next c read =>
    obtain ⟨l, place, file⟩ := read_eq_ok.mp read
    exact ⟨l, c, place, file, Option.some.inj script⟩
  · cases script

def Ledger.fixPath (o : FixOptions) (t : Tree) (s : Ledger) (p : Path) : Ledger :=
  (t.locate p).toOption.elim s (s.fix o)

theorem FixEnds.ledger {x : Except FixFault (Tree × Fix.Fixed)} (h : FixEnds o t p x)
    (wet : o.dryRun = false) (modified edits : Nat) :
    (⟨Tree.entry? (leaves t x).2, modified, edits⟩ : Ledger).credit (x.map (·.2)) =
      Ledger.fixPath o t ⟨t.entry?, modified, edits⟩ p := by
  unfold Ledger.fixPath
  cases h with
  | unread script =>
    cases place : t.locate p with
    | error e => rfl
    | ok l =>
      exact (Ledger.fix_of_none (due?_eq_none script place)).symm
  | fault script fixed =>
    obtain ⟨l, c, place, file, rfl⟩ := file_of_scriptAt? script
    have none : Ledger.due? o (t.entry? l) = none := by simp [Ledger.due?, file, fixed]
    rw [place]
    exact (Ledger.fix_of_none none).symm
  | @kept _ r script fixed keep =>
    obtain ⟨l, c, place, file, rfl⟩ := file_of_scriptAt? script
    have same : r.modified = false := by simpa [wet] using keep
    have none : Ledger.due? o (t.entry? l) = none := by simp [Ledger.due?, file, fixed, same]
    rw [place]
    refine Eq.trans ?_ (Ledger.fix_of_none none).symm
    simp [leaves, Ledger.credit, Except.map, same]
  | @written l c r place file fixed write =>
    have changed : r.modified = true := by simpa [wet] using write
    have due : Ledger.due? o (t.entry? l) = some (c, r) := by
      simp [Ledger.due?, file, fixed, changed]
    rw [place]
    refine Eq.trans ?_ (Ledger.fix_of_due due).symm
    have top : ¬IsTopPlace l := not_isTopPlace_of_entry (t := t) (by simp [file])
    simp only [leaves, Ledger.credit, Except.map, changed, if_true, Ledger.write]
    rw [entry?_put top, entry?_beforeWriting]
    rfl

theorem FixEnds.sameDirectories {x : Except FixFault (Tree × Fix.Fixed)} (h : FixEnds o t p x) :
    SameDirectories t (leaves t x).2 := by
  cases h with
  | unread | fault | kept => exact fun _ => Iff.rfl
  | @written l c r place file fixed write =>
    refine (sameDirectories_beforeWriting o t l c).put ?_ _
    simp [entry?_beforeWriting_self file]

def places (t : Tree) (paths : List Path) : List Location :=
  paths.filterMap fun p => (t.locate p).toOption

theorem foldl_fixPath (paths : List Path) (s : Ledger) :
    paths.foldl (Ledger.fixPath o t) s = (places t paths).foldl (Ledger.fix o) s := by
  unfold places Ledger.fixPath
  induction paths generalizing s with
  | nil => rfl
  | cons p ps ih =>
    rw [foldl_cons, ih]
    cases place : t.locate p <;> simp [place, Except.toOption]

theorem SameDirectories.toOption_locate (h : SameDirectories t t') (p : Path) :
    (t'.locate p).toOption = (t.locate p).toOption := by
  cases place : t.locate p with
  | ok l => rw [h.locate place]
  | error e =>
    cases place' : t'.locate p with
    | error e' => rfl
    | ok l =>
      rw [h.symm.locate place'] at place
      cases place

theorem SameDirectories.places (h : SameDirectories t t') (paths : List Path) :
    Files.places t' paths = Files.places t paths := by
  unfold Files.places
  simp only [h.toOption_locate]

theorem SameDirectories.fixPath (h : SameDirectories t t') :
    Ledger.fixPath o t' = Ledger.fixPath o t := by
  funext s p
  rw [Ledger.fixPath, h.toOption_locate, Ledger.fixPath]

end LuaTune.Files
