import LuaTune.Proofs.Files.Places
import LuaTune.Proofs.Fix.Spelling
import LuaTune.Proofs.Text.LineTables
import Mathlib.Logic.Function.Basic

/-!
# A fix is done whole or not at all

Each step of a fix may fail and leave what the earlier ones did. It comes to that only if the system
does not let the script be written, and then the copy is left: all characters that a fix writes have
a byte, and every other fault comes before the first step.
-/

namespace LuaTune.Text

open List

def IsLatin1 (bs : Bytes) (cs : Chars) : Prop := bs.map UInt8.toNat = cs.map Char.toNat

theorem isLatin1_bytesOfChars {cs : Chars} (h : ∀ c ∈ cs, c.toNat < 256) :
    IsLatin1 (bytesOfChars cs) cs := by
  unfold IsLatin1 bytesOfChars
  rw [map_map]
  refine map_congr_left fun c hc => ?_
  exact Nat.mod_eq_of_lt (h c hc)

theorem toNat_lt_of_mem_scriptText {bs : Bytes} {c : Char} (h : c ∈ scriptText bs) : c.toNat < 256 := by
  rcases mem_unifyNewlines h with rfl | ⟨h, -⟩
  · decide
  · obtain ⟨b, -, rfl⟩ := mem_map.mp h
    have small : b.toNat < 256 := b.toNat_lt
    have valid : b.toNat.isValidChar := .inl (by omega)
    rwa [Char.ofNat, dif_pos valid]

end LuaTune.Text

namespace LuaTune.Fix

theorem fixSource_unmodified {o : Options} {source : Chars} {r : Fixed}
    (h : fixSource o source = .ok r) (same : r.modified = false) :
    r.content = source ∧ r.count = 0 := by
  obtain ⟨findings, -, h⟩ := fixSource_findings h
  unfold fixFindings at h
  split at h
  · cases h
    exact ⟨rfl, rfl⟩
  · cases applied : Edit.apply (sourceEdits o source findings) source with
    | error f => simp [applied, bind, Except.bind] at h
    | ok content =>
      simp only [applied, bind, Except.bind] at h
      split at h
      · cases h
        exact ⟨rfl, rfl⟩
      · cases h
        cases same

end LuaTune.Fix

namespace LuaTune.Files

open Text List
open Function (update update_self update_of_ne update_eq_self)

variable {t t' : Tree} {l m : Location} {p : Path}

variable {c : Content} {content : Chars} {o : FixOptions} {x : Except FixFault (Tree × Fix.Fixed)}

/-! ## Paths of files -/

def Reached (t : Tree) (l : Location) : Prop := ∀ k < l.length, t.entry? (l.take k) = some .directory

theorem Reached.follow {here : Location} (h : Reached t here) {ps : List String}
    (hl : t.follow here ps = .ok l) : Reached t l := by
  induction ps generalizing here with
  | nil =>
    cases hl
    exact h
  | cons p ps ih =>
    obtain ⟨dir, rest⟩ := follow_cons.mp hl
    split at rest
    · refine ih (fun k hk => ?_) rest.2
      rw [length_dropLast] at hk
      rw [dropLast_eq_take, take_take, Nat.min_eq_left (by omega)]
      exact h k (by omega)
    · refine ih (fun k hk => ?_) rest
      rw [length_append, length_singleton] at hk
      rw [take_append_of_le_length (by omega)]
      rcases Nat.lt_or_ge k here.length with inside | whole
      · exact h k inside
      · rwa [take_of_length_le whole]

theorem reached_start (t : Tree) (rooted : Bool) : Reached t (if rooted then ["/"] else []) := by
  intro k hk
  cases rooted with
  | false => cases hk
  | true =>
    obtain rfl := Nat.lt_one_iff.mp hk
    exact entry?_top t (.inl rfl)

theorem isNamed_of_file (place : t.locate p = .ok l) (file : t.entry? l = some (.file c)) :
    p.IsNamed := by
  have start := reached_start t p.rooted
  unfold Tree.locate at place
  by_cases empty : p.parts = []
  · rw [empty] at place
    cases place
    rw [entry?_top t (by cases p.rooted <;> simp [IsTopPlace])] at file
    cases file
  · refine ⟨empty, fun dots => ?_⟩
    have parts : p.parts = p.parent.parts ++ [p.name] :=
      (congrArg Path.parts (Path.parent_child empty)).symm
    rw [parts, dots, follow_append] at place
    cases above : t.follow (if p.rooted then ["/"] else []) p.parent.parts with
    | error o => simp [above, Except.bind] at place
    | ok here =>
      rw [above] at place
      obtain ⟨-, step⟩ := follow_cons.mp place
      obtain ⟨some, last⟩ := (if_pos rfl).mp step
      cases last
      have := length_pos_iff.mpr some
      have directory := start.follow above (here.length - 1) (by omega)
      rw [← dropLast_eq_take, file] at directory
      cases directory

/-! ## Writing a script -/

theorem copyPlace_ne (l : Location) : copyPlace l ≠ l := by
  intro same
  have names := congrArg placeName same
  rw [copyPlace, placeName_snoc] at names
  have lengths := congrArg String.length names
  simp at lengths

def copied (t : Tree) (l : Location) (c : Content) : Tree :=
  if t.entry? (copyPlace l) = none then t.put (copyPlace l) (.file c) else t

def beforeWriting (o : FixOptions) (t : Tree) (l : Location) (c : Content) : Tree :=
  if o.backup then copied t l c else t

theorem keepBackup_ok (place : t.locate p = .ok l) (file : t.entry? l = some (.file c)) :
    keepBackup t p = .ok (copied t l c) := by
  have copyAt := locate_backupOf (isNamed_of_file place file) place
  unfold keepBackup copied
  cases copy : t.entry? (copyPlace l) with
  | some e =>
    rw [if_pos (contains_iff.mpr ⟨_, e, copyAt, copy⟩)]
    rfl
  | none =>
    rw [if_neg (by simp [contains_iff, copyAt, copy]), if_pos rfl]
    exact copy_ok place file copyAt (by simp [copy])

theorem entry?_put (h : ¬IsTopPlace l) (e : Entry) :
    Tree.entry? (t.put l e) = update t.entry? l (some e) := by
  funext m
  by_cases hm : m = l
  · rw [hm, entry?_put_self t h, update_self]
  · rw [entry?_put_ne t hm, update_of_ne hm]

theorem sameDirectories_beforeWriting (o : FixOptions) (t : Tree) (l : Location) (c : Content) :
    SameDirectories t (beforeWriting o t l c) := by
  unfold beforeWriting copied
  split
  · split
    · next none => exact SameDirectories.put (fun _ => Iff.rfl) (by simp [none]) c
    · exact fun _ => Iff.rfl
  · exact fun _ => Iff.rfl

theorem entry?_beforeWriting (o : FixOptions) (c : Content) : Tree.entry? (beforeWriting o t l c) =
    update t.entry? (copyPlace l) (if o.backup then some ((t.entry? (copyPlace l)).getD (.file c))
      else t.entry? (copyPlace l)) := by
  unfold beforeWriting copied
  split
  · split
    · next none =>
      rw [entry?_put (not_isTopPlace_copyPlace l), none]
      rfl
    · next there =>
      obtain ⟨e, he⟩ := Option.ne_none_iff_exists'.mp there
      rw [he, Option.getD_some, ← he, update_eq_self]
  · exact (update_eq_self _ _).symm

section

variable {c : Content} (place : t.locate p = .ok l) (file : t.entry? l = some (.file c))

include file in
theorem entry?_beforeWriting_self (o : FixOptions) :
    Tree.entry? (beforeWriting o t l c) l = some (.file c) := by
  rw [entry?_beforeWriting, update_of_ne (copyPlace_ne l).symm, file]

include place file

theorem writeFixed_ok (o : FixOptions) (content : Chars) : writeFixed o t p content =
    .ok ((beforeWriting o t l c).put l (.file (.bytes (bytesOfChars content)))) := by
  have written : (beforeWriting o t l c).write p (.bytes (bytesOfChars content)) =
      .ok ((beforeWriting o t l c).put l (.file (.bytes (bytesOfChars content)))) :=
    write_eq_ok.mpr ⟨l, (sameDirectories_beforeWriting o t l c).locate place,
      by simp [entry?_beforeWriting_self file], rfl⟩
  unfold writeFixed
  unfold beforeWriting at written ⊢
  cases backup : o.backup with
  | false =>
    rw [backup] at written
    exact written
  | true =>
    rw [backup] at written
    rw [if_pos rfl, keepBackup_ok place file]
    exact written

end

/-! ## Steps -/

/-- Whether the system lets a fix make the copy of its script, and write the script. -/
structure Permits where
  copy : Bool := true
  script : Bool := true

inductive Halt where
  | fault (cause : FixFault)
  | unencodable (c : Char)
  | refused
deriving DecidableEq

/-- Steps that change a tree. What was done stays done when a later step fails. -/
abbrev Steps (α : Type) := ExceptT Halt (StateM Tree) α

def Steps.run {α : Type} (s : Steps α) (t : Tree) : Except Halt α × Tree := StateT.run (ExceptT.run s) t

def attempt (f : Tree → Except FileError Tree) : Steps Unit := do
  match f (← get) with
  | .ok t => set t
  | .error e => throw (.fault (.file e))

def permit (allowed : Bool) : Steps Unit := if allowed then return () else throw .refused

/-- Write over a file. Opening it empties it; then its characters are encoded and written. -/
def overwrite (p : Path) (content : Chars) : Steps Unit := do
  attempt (·.write p (.bytes []))
  match content.find? (256 ≤ ·.toNat) with
  | some c => throw (.unencodable c)
  | none => attempt (·.write p (.bytes (bytesOfChars content)))

def writeInSteps (s : Permits) (o : FixOptions) (p : Path) (content : Chars) : Steps Unit := do
  if o.backup then
    permit (s.copy || (← get).contains (backupOf p))
    attempt (keepBackup · p)
  permit s.script
  overwrite p content

def fixInSteps (s : Permits) (o : FixOptions) (p : Path) : Steps Fix.Fixed := do
  match scriptAt? (← get) p with
  | none => return ⟨false, [], 0, []⟩
  | some source =>
    match Fix.fixSource o.toOptions source with
    | .error e => throw (.fault (.script e))
    | .ok r => do
      if r.modified && !o.dryRun then writeInSteps s o p r.content
      return r

/-- What is left by a fix that is done at once: the tree as it was, unless the fix succeeds. -/
def leaves (t : Tree) : Except FixFault (Tree × Fix.Fixed) → Except Halt Fix.Fixed × Tree
  | .ok (t', r) => (.ok r, t')
  | .error e => (.error (.fault e), t)

section

variable {α β : Type} {s : Steps α} {f : α → Steps β} {a : α} {u : Tree}

theorem run_bind : (s >>= f).run t = ExceptT.bindCont f (s.run t).1 (s.run t).2 := rfl

theorem run_bind_ok (h : s.run t = (.ok a, u)) : (s >>= f).run t = (f a).run u := by
  rw [run_bind, h]
  rfl

theorem run_bind_error {h : Halt} (stopped : s.run t = (.error h, u)) : (s >>= f).run t = (.error h, u) := by
  rw [run_bind, stopped]
  rfl

theorem run_get_bind {f : Tree → Steps β} : (get >>= f : Steps β).run t = (f t).run t := rfl

theorem run_permit_true : (permit true).run t = (.ok (), t) := rfl

theorem run_attempt_ok {f : Tree → Except FileError Tree} (h : f t = .ok u) :
    (attempt f).run t = (.ok (), u) := by
  rw [attempt, run_get_bind, h]
  rfl

end

theorem run_overwrite (place : t.locate p = .ok l) (file : t.entry? l ≠ some .directory)
    (h : ∀ c ∈ content, c.toNat < 256) :
    (overwrite p content).run t = (.ok (), t.put l (.file (.bytes (bytesOfChars content)))) := by
  have opened : t.write p (.bytes []) = .ok (t.put l (.file (.bytes []))) :=
    write_eq_ok.mpr ⟨l, place, file, rfl⟩
  have encodable : content.find? (256 ≤ ·.toNat) = none := by
    simpa using h
  have again : (t.put l (.file (.bytes []))).write p (.bytes (bytesOfChars content)) =
      .ok (t.put l (.file (.bytes (bytesOfChars content)))) := by
    have there := (SameDirectories.put (fun _ => Iff.rfl) file (.bytes [])).locate place
    refine write_eq_ok.mpr ⟨l, there, ?_, ?_⟩
    · simp [entry?_put_self t (not_isTopPlace_of_entry file)]
    · simp only [Tree.put, setKey_setKey]
  rw [overwrite, run_bind_ok (run_attempt_ok opened), encodable]
  exact run_attempt_ok again

/-- What a refusal leaves: the tree as it was, or with a new copy beside a script that cannot be
written. -/
def Refused (s : Permits) (o : FixOptions) (t : Tree) (p : Path) (t' : Tree) : Prop :=
  t' = t ∧ (s.copy = false ∨ s.script = false) ∨
    s.script = false ∧ o.backup ∧ ∃ l m c, t.locate p = .ok l ∧ t.locate (backupOf p) = .ok m ∧
      t.entry? l = some (.file c) ∧ t.entry? m = none ∧ t' = t.put m (.file c)

theorem refused_beforeWriting {s : Permits} (place : t.locate p = .ok l)
    (file : t.entry? l = some (.file c)) (h : s.script = false) :
    Refused s o t p (beforeWriting o t l c) := by
  unfold beforeWriting copied
  split
  · next backup =>
    split
    · next none =>
      have copyAt := locate_backupOf (isNamed_of_file place file) place
      exact .inr ⟨h, backup, l, _, c, place, copyAt, file, none, rfl⟩
    · exact .inl ⟨rfl, .inr h⟩
  · exact .inl ⟨rfl, .inr h⟩

theorem run_writeInSteps (s : Permits) (place : t.locate p = .ok l) (file : t.entry? l = some (.file c))
    (h : ∀ c ∈ content, c.toNat < 256) :
    (writeInSteps s o p content).run t =
        (.ok (), (beforeWriting o t l c).put l (.file (.bytes (bytesOfChars content)))) ∨
      ∃ t', (writeInSteps s o p content).run t = (.error .refused, t') ∧ Refused s o t p t' := by
  have written : (do permit s.script; overwrite p content : Steps Unit).run (beforeWriting o t l c) =
        (.ok (), (beforeWriting o t l c).put l (.file (.bytes (bytesOfChars content)))) ∨
      ∃ t', (do permit s.script; overwrite p content : Steps Unit).run (beforeWriting o t l c) =
        (.error .refused, t') ∧ Refused s o t p t' := by
    cases script : s.script with
    | false => exact .inr ⟨_, rfl, refused_beforeWriting place file script⟩
    | true =>
      exact .inl (run_overwrite ((sameDirectories_beforeWriting o t l c).locate place)
        (by simp [entry?_beforeWriting_self file]) h)
  unfold beforeWriting at written ⊢
  unfold writeInSteps
  cases backup : o.backup with
  | false =>
    rw [backup] at written
    exact written
  | true =>
    rw [backup] at written
    rw [if_pos rfl, run_get_bind]
    cases allowed : s.copy || t.contains (backupOf p) with
    | false => exact .inr ⟨t, rfl, .inl ⟨rfl, .inl (Bool.or_eq_false_iff.mp allowed).1⟩⟩
    | true =>
      rw [run_bind_ok run_permit_true, run_bind_ok (run_attempt_ok (keepBackup_ok place file))]
      exact written

/-! ## Outcomes -/

inductive FixEnds (o : FixOptions) (t : Tree) (p : Path) :
    Except FixFault (Tree × Fix.Fixed) → Prop where
  | unread (script : scriptAt? t p = none) : FixEnds o t p (.ok (t, ⟨false, [], 0, []⟩))
  | fault {source : Chars} {e : Fix.Fault} (script : scriptAt? t p = some source)
      (fixed : Fix.fixSource o.toOptions source = .error e) : FixEnds o t p (.error (.script e))
  | kept {source : Chars} {r : Fix.Fixed} (script : scriptAt? t p = some source)
      (fixed : Fix.fixSource o.toOptions source = .ok r) (keep : ¬(r.modified && !o.dryRun)) :
      FixEnds o t p (.ok (t, r))
  | written {l : Location} {c : Content} {r : Fix.Fixed} (place : t.locate p = .ok l)
      (file : t.entry? l = some (.file c))
      (fixed : Fix.fixSource o.toOptions (scriptText c.toBytes) = .ok r)
      (write : r.modified && !o.dryRun) :
      FixEnds o t p (.ok ((beforeWriting o t l c).put l (.file (.bytes (bytesOfChars r.content))), r))

theorem scriptAt?_of_file (place : t.locate p = .ok l) (file : t.entry? l = some (.file c)) :
    scriptAt? t p = some (scriptText c.toBytes) := by
  simp [scriptAt?, read_eq_ok.mpr ⟨l, place, file⟩]

theorem fixFile_ends (o : FixOptions) (t : Tree) (p : Path) : FixEnds o t p (fixFile o t p) := by
  unfold fixFile
  cases read : t.read p with
  | error e =>
    have script : scriptAt? t p = none := by simp [scriptAt?, read]
    rw [script]
    exact .unread script
  | ok c =>
    obtain ⟨l, place, file⟩ := read_eq_ok.mp read
    have script := scriptAt?_of_file place file
    rw [script]
    cases fixed : Fix.fixSource o.toOptions (scriptText c.toBytes) with
    | error e =>
      simp only [fixed]
      exact .fault script fixed
    | ok r =>
      simp only [fixed, Except.mapError, bind, Except.bind]
      split
      · next write =>
        rw [writeFixed_ok place file]
        exact .written place file fixed write
      · next keep => exact .kept script fixed keep

theorem toNat_lt_of_fixed {o : Fix.Options} {bs : Bytes} {r : Fix.Fixed}
    (fixed : Fix.fixSource o (scriptText bs) = .ok r) : ∀ c ∈ r.content, c.toNat < 256 := by
  intro c hc
  rcases Fix.fixSource_drawsOn fixed c hc with old | ascii
  · exact toNat_lt_of_mem_scriptText old
  · have : c.toNat < 128 := by simpa [isAscii] using ascii
    omega

theorem FixEnds.run (s : Permits) (h : FixEnds o t p x) : (fixInSteps s o p).run t = leaves t x ∨
    ∃ t', (fixInSteps s o p).run t = (.error .refused, t') ∧ Refused s o t p t' := by
  rw [fixInSteps, run_get_bind]
  cases h with
  | unread script =>
    rw [script]
    exact .inl rfl
  | fault script fixed =>
    simp only [script, fixed]
    exact .inl rfl
  | kept script fixed keep =>
    simp only [script, fixed]
    rw [if_neg keep]
    exact .inl rfl
  | written place file fixed write =>
    simp only [scriptAt?_of_file place file, fixed]
    rw [if_pos write]
    rcases run_writeInSteps s place file (toNat_lt_of_fixed fixed) with written | ⟨t', stopped, left⟩
    · rw [run_bind_ok written]
      exact .inl rfl
    · exact .inr ⟨t', run_bind_error stopped, left⟩

theorem leaves_eq_error {s : Halt} (h : leaves t x = (.error s, t')) :
    ∃ e, x = .error e ∧ s = .fault e ∧ t' = t := by
  cases x with
  | ok a => cases h
  | error e =>
    cases h
    exact ⟨e, rfl, rfl, rfl⟩

theorem leaves_eq_ok {r : Fix.Fixed} (h : leaves t x = (.ok r, t')) : x = .ok (t', r) := by
  cases x with
  | ok a =>
    cases h
    rfl
  | error e => cases h

/-- A file is written anew and its copy is kept; nothing else changes. -/
structure Rewritten (o : FixOptions) (content : Chars) (l m : Location) (t t' : Tree) :
    Prop where
  apart : m ≠ l
  encodable : ∀ c ∈ content, c.toNat < 256
  script : ∃ bs, t'.entry? l = some (.file (.bytes bs)) ∧ IsLatin1 bs content
  copyMade : o.backup → t.entry? m = none →
    ∃ c, t.entry? l = some (.file c) ∧ t'.entry? m = some (.file c)
  copyStays : t.entry? m ≠ none → t'.entry? m = t.entry? m
  noCopy : o.backup = false → t'.entry? m = t.entry? m
  others : ∀ k, k ≠ l → k ≠ m → t'.entry? k = t.entry? k

theorem rewritten (file : t.entry? l = some (.file c)) (h : ∀ c ∈ content, c.toNat < 256) :
    Rewritten o content l (copyPlace l) t
      ((beforeWriting o t l c).put l (.file (.bytes (bytesOfChars content)))) := by
  have noDirectory : t.entry? l ≠ some .directory := by simp [file]
  have top := not_isTopPlace_of_entry noDirectory
  have copy : Tree.entry? ((beforeWriting o t l c).put l (.file (.bytes (bytesOfChars content))))
      (copyPlace l) = if o.backup then some ((t.entry? (copyPlace l)).getD (.file c))
        else t.entry? (copyPlace l) := by
    rw [entry?_put_ne _ (copyPlace_ne l), entry?_beforeWriting, update_self]
  refine ⟨copyPlace_ne l, h, ⟨_, entry?_put_self _ top _, isLatin1_bytesOfChars h⟩,
    fun backup none => ⟨c, file, ?_⟩, fun there => ?_, fun off => ?_, fun k hl hm => ?_⟩
  · rw [copy, if_pos backup, none]
    rfl
  · obtain ⟨e, he⟩ := Option.ne_none_iff_exists'.mp there
    rw [copy, he]
    simp
  · rw [copy, off]
    rfl
  · rw [entry?_put_ne _ hl, entry?_beforeWriting, update_of_ne hm]

structure FixReturns (o : FixOptions) (t : Tree) (p : Path) (r : Fix.Fixed) (t' : Tree) : Prop where
  unmodified : r.modified = false → t' = t ∧ r.content = (scriptAt? t p).getD [] ∧ r.count = 0
  dry : o.dryRun → t' = t
  written : r.modified → o.dryRun = false →
    ∃ l m, t.locate p = .ok l ∧ t.locate (backupOf p) = .ok m ∧ Rewritten o r.content l m t t'

theorem FixEnds.outcome {r : Fix.Fixed} (h : FixEnds o t p (.ok (t', r))) : FixReturns o t p r t' := by
  cases h with
  | unread script => exact ⟨fun _ => ⟨rfl, by simp [script], rfl⟩, fun _ => rfl, nofun⟩
  | kept script fixed keep =>
    refine ⟨fun same => ?_, fun _ => rfl, fun modified wet => ?_⟩
    · rw [script]
      exact ⟨rfl, Fix.fixSource_unmodified fixed same⟩
    · simp [modified, wet] at keep
  | written place file fixed write =>
    rename_i l c
    obtain ⟨modified, wet⟩ : r.modified = true ∧ o.dryRun = false := by simpa using write
    refine ⟨fun same => ?_, fun dry => ?_, fun _ _ => ⟨l, copyPlace l, place, ?_, ?_⟩⟩
    · simp [same] at modified
    · simp [dry] at wet
    · exact locate_backupOf (isNamed_of_file place file) place
    · exact rewritten file (toNat_lt_of_fixed fixed)

theorem FixEnds.fault_eq {e : FixFault} (h : FixEnds o t p (.error e)) :
    ∃ cause, e = .script cause := by
  cases h with
  | fault => exact ⟨_, rfl⟩

theorem Refused.unchanged {s : Permits} (h : Refused s o t p t') (writable : s.script) : t' = t := by
  rcases h with ⟨same, -⟩ | ⟨script, -⟩
  · exact same
  · cases script.symm.trans writable

def accented : Tree :=
  ⟨[(["d"], .directory),
    (["d", "a.lua"], .file (.bytes (bytesOfChars "-- caf\u00e9\r\ntable.insert(t, v)\r\n".toList))),
    (["d", "b.lua"], .file (.bytes (bytesOfChars "return\n".toList)))]⟩

def carriageReturns : Tree :=
  ⟨[(["a.lua"], .file (.bytes (bytesOfChars "local x = 1\r\n".toList)))]⟩

end LuaTune.Files
