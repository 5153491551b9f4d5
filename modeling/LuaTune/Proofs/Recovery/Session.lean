import LuaTune.Proofs.Command.Lint
import LuaTune.Proofs.Files.Ledger
import LuaTune.Proofs.Resources.Names

/-!
# Sessions

Over any number of runs that keep copies and delete none, and that write no report or archive over a
script or in the place of a copy, nothing of the original scripts is lost.
-/

namespace LuaTune.Recovery

open Command Console Files Resources Text

/-! ## Sessions -/

def NoCopies (t : Tree) : Prop :=
  ∀ e ∈ t.entries, ¬endsWith (placeName e.1).toList ".flao-bak".toList

def IsScript (t : Tree) (s : Location) (c : Content) : Prop :=
  t.entry? s = some (.file c) ∧ isScriptName (placeName s)

/-- The script is as it was and has no copy, or its copy is what the script was. -/
def Recoverable (t : Tree) (s : Location) (c : Content) : Prop :=
  (t.entry? s = some (.file c) ∧ t.entry? (copyPlace s) = none) ∨
    t.entry? (copyPlace s) = some (.file c)

/-- The place is neither a script nor the place for the copy of one. -/
def SparesScripts (t : Tree) (l : Location) : Prop :=
  ∀ e ∈ t.entries, isScriptName (placeName e.1) → e.2 ≠ .directory → l ≠ e.1 ∧ l ≠ copyPlace e.1

/-- Nor is it the place for the copy of a directory with a name of a script. -/
def Spares (t : Tree) (l : Location) : Prop := SparesScripts t l ∧
    ∀ e ∈ t.entries, isScriptName (placeName e.1) → e.2 = .directory → l ≠ copyPlace e.1

/-- The paths that a run with these options may write to because it was told to. -/
def outputs (o : Options) : List Path := (if o.report.isEmpty then [] else [.ofString o.report])
    ++ if o.extractDebug.isEmpty || 0 < o.split then [] else [debugArchive (.ofString o.extractDebug)]

/-- No two workers get the same script to fix. Two that do may both find that it has no copy; the later
one then copies what the earlier one wrote, and the original is lost. -/
def WorksApart (o : Options) (root : Path) (w : World) : Prop :=
  o.fixes = false ∨ o.singleThread = true ∨ Whenever (findScripts o root) w fun table _ =>
    (places w.tree (((scriptItems table).map (·.2)).filter fun p => !w.tree.contains (backupOf p))).Nodup

/-- The run keeps copies and deletes none, no script is fixed twice at a time, and the outputs go to
allowed places. -/
def Careful (allowed : Location → Prop) (args : List String) (w : World) : Prop :=
  Whenever (chooseTask args) w fun task w' =>
    task.1.backup ∧ (task.1.deletes → ¬Confirms w') ∧ WorksApart task.1 task.2 w' ∧
      ∀ p ∈ outputs task.1, ∀ l ∈ (w.tree.locate p).toOption, allowed l

def treeAfter (args : List String) (w : World) : Tree := (worldAfter (lintProgram args w)).tree

def worldWith (t : Tree) (typed : String) : World where
  tree := t
  input := typed.toList
  now := ⟨2020, 1, 2, 3, 4, 5⟩
  directory := "/work"
  processors := 4

def printing : Content := .bytes (bytesOfChars "print(1)\n".toList)

def silenced : Content := .bytes (bytesOfChars "-- print(1)\n".toList)

/-- The trees that careful runs lead to, each run in a world of its own. -/
inductive Session (allowed : Location → Prop) (original : Tree) : Tree → Prop
  | start : Session allowed original original
  | run {args : List String} {w : World} : Session allowed original w.tree → Careful allowed args w →
      Session allowed original (treeAfter args w)

/-- The run is asked to put copies back, that is confirmed, and the script is among those found. -/
def Reverts (args : List String) (w : World) (s : Location) : Prop :=
  Ends (chooseTask args) w fun task w' =>
    task.1.reverts ∧ Confirms w' ∧ w'.tree.contains task.2 ∧
      Ends (findScripts task.1 task.2) w' fun table _ =>
        ∃ e ∈ table, ∃ p ∈ e.2, w.tree.locate p = .ok s

section Decidable

variable (t : Tree) (s l : Location) (c : Content) (args : List String) (w : World)

instance : Decidable (NoCopies t) :=
  inferInstanceAs (Decidable (∀ e ∈ t.entries, _))

instance : Decidable (IsScript t s c) :=
  inferInstanceAs (Decidable (_ ∧ _))

instance : Decidable (Recoverable t s c) :=
  inferInstanceAs (Decidable (_ ∨ _))

instance : Decidable (SparesScripts t l) :=
  inferInstanceAs (Decidable (∀ e ∈ t.entries, _))

instance : Decidable (Spares t l) :=
  inferInstanceAs (Decidable (_ ∧ ∀ e ∈ t.entries, _))

instance (o : Options) (root : Path) : Decidable (WorksApart o root w) :=
  inferInstanceAs (Decidable (_ ∨ _ ∨ Whenever _ _ _))

instance (allowed : Location → Prop) [DecidablePred allowed] :
    Decidable (Careful allowed args w) :=
  inferInstanceAs (Decidable (Whenever _ _ _))

instance : Decidable (Reverts args w s) :=
  inferInstanceAs (Decidable (Ends _ _ _))

end Decidable

/-! ## What a session keeps -/

def Intact (t : Tree) (s : Location) (c : Content) : Prop :=
  (t.entry? s = some (.file c) ∧ t.entry? (copyPlace s) = none) ∨
    ((∃ c', t.entry? s = some (.file c')) ∧ t.entry? (copyPlace s) = some (.file c))

section Intact

variable {t t' : Tree} {s : Location} {c : Content}

theorem Intact.of_copy (h : Intact t s c) {e : Entry} (copy : t.entry? (copyPlace s) = some e) :
    e = .file c := by
  rcases h with ⟨-, none⟩ | ⟨-, original⟩
  · simp [none] at copy
  · simpa [copy] using original

theorem Intact.of_no_copy (h : Intact t s c) (none : t.entry? (copyPlace s) = none) :
    t.entry? s = some (.file c) := by
  rcases h with ⟨original, -⟩ | ⟨-, copy⟩
  · exact original
  · simp [none] at copy

theorem Intact.recoverable (h : Intact t s c) : Recoverable t s c := h.imp id And.right

theorem Intact.congr (h : Intact t s c) (script : t'.entry? s = t.entry? s)
    (copy : t'.entry? (copyPlace s) = t.entry? (copyPlace s)) : Intact t' s c := by
  unfold Intact at *
  rwa [script, copy]

end Intact

/-- The directories are the original ones, those with a name of a script have no copy, and the
script is intact. -/
structure Safe (original : Tree) (s : Location) (c : Content) (t : Tree) : Prop where
  directories : SameDirectories original t
  uncovered : ∀ d, isScriptName (placeName d) → t.entry? d = some .directory →
    t.entry? (copyPlace d) = none
  script : Intact t s c

namespace Safe

variable {original t t' : Tree} {s : Location} {c : Content} {l : Location}

theorem start (fresh : NoCopies original) (script : IsScript original s c) :
    Safe original s c original := by
  have none : ∀ l, original.entry? (copyPlace l) = none := by
    intro l
    cases h : original.entry? (copyPlace l) with
    | none => rfl
    | some e =>
      obtain ⟨mem, ends⟩ := copy_mem_entries h
      exact absurd ends (fresh (copyPlace l, e) mem)
  exact ⟨fun _ => .rfl, fun d _ _ => none d, .inl ⟨script.1, none s⟩⟩

theorem put (h : Safe original s c t) (file : t.entry? l ≠ some .directory)
    (cover : ∀ d, isScriptName (placeName d) → t.entry? d = some .directory → l ≠ copyPlace d)
    {c' : Content} (script : Intact (t.put l (.file c')) s c) :
    Safe original s c (t.put l (.file c')) := by
  refine ⟨h.directories.put file c', fun d hd dir => ?_, script⟩
  have dir := (h.directories d).mp (((h.directories.put file c') d).mpr dir)
  rw [entry?_put_ne t (cover d hd dir).symm]
  exact h.uncovered d hd dir

theorem erase (h : Safe original s c t) (file : t.entry? l ≠ some .directory)
    (script : Intact (t.erase l) s c) : Safe original s c (t.erase l) := by
  refine ⟨h.directories.erase file, fun d hd dir => ?_, script⟩
  have dir := (h.directories d).mp (((h.directories.erase file) d).mpr dir)
  by_cases hl : copyPlace d = l
  · rw [hl, entry?_erase_self t (not_isTopPlace_of_entry file)]
  · rw [entry?_erase_ne t hl]
    exact h.uncovered d hd dir

theorem write_harmless (h : Safe original s c t)
    (file : t.entry? l ≠ some .directory) (script : l ≠ s) (copy : l ≠ copyPlace s)
    (cover : ∀ d, isScriptName (placeName d) → t.entry? d = some .directory → l ≠ copyPlace d)
    (c' : Content) : Safe original s c (t.put l (.file c')) :=
  h.put file cover (h.script.congr (entry?_put_ne t script.symm _) (entry?_put_ne t copy.symm _))

variable {p : Path} {l : Location}

/-! ### Fixing -/

theorem beforeWriting (h : Safe original s c t) (hs : isScriptName (placeName s))
    (hl : isScriptName (placeName l)) {c₀ : Content} (content : t.entry? l = some (.file c₀)) {o : FixOptions}
    (backup : o.backup) : Safe original s c (Files.beforeWriting o t l c₀) ∧
      (l = s → Tree.entry? (Files.beforeWriting o t l c₀) (copyPlace s) = some (.file c)) := by
  rw [Files.beforeWriting, if_pos backup, Files.copied]
  split
  · next none =>
    have copied := entry?_put_self t (not_isTopPlace_copyPlace l) (.file c₀)
    have keeps : ∀ m, isScriptName (placeName m) →
        Tree.entry? (t.put (copyPlace l) (.file c₀)) m = t.entry? m :=
      fun m hm => entry?_put_ne t (script_ne_copyPlace hm) _
    have same : l = s → c₀ = c := by
      rintro rfl
      simpa [content] using h.script.of_no_copy none
    refine ⟨h.put (by simp [none]) ?_ ?_, ?_⟩
    · intro d hd dir eq
      obtain rfl := copyPlace_injective hl hd eq
      simp [content] at dir
    · by_cases eq : l = s
      · obtain rfl := same eq
        subst eq
        exact .inr ⟨⟨c₀, (keeps l hl).trans content⟩, copied⟩
      · refine h.script.congr (keeps s hs) (entry?_put_ne t (fun copies => eq ?_) _)
        exact (copyPlace_injective hs hl copies).symm
    · intro eq
      obtain rfl := same eq
      subst eq
      exact copied
  · next there =>
    refine ⟨h, ?_⟩
    rintro rfl
    obtain ⟨e, he⟩ := Option.ne_none_iff_exists'.mp there
    rw [he, h.script.of_copy he]

theorem fixFile (h : Safe original s c t) (hs : isScriptName (placeName s))
    (named : isScriptName p.name) {o : FixOptions} (backup : o.backup) {r : Fix.Fixed}
    (fixed : Files.fixFile o t p = .ok (t', r)) : Safe original s c t' := by
  have ends := fixFile_ends o t p
  rw [fixed] at ends
  cases ends with
  | unread | kept => exact h
  | @written l c₀ _ place content =>
    have hl : isScriptName (placeName l) := placeName_of_locate (isNamed_of_isScriptName named) place ▸ named
    obtain ⟨safe, copy⟩ := h.beforeWriting hs hl content backup
    have file : Tree.entry? (Files.beforeWriting o t l c₀) l ≠ some .directory := by
      simp [entry?_beforeWriting_self content]
    refine safe.put file (fun d _ _ => script_ne_copyPlace hl) ?_
    by_cases eq : l = s
    · subst eq
      refine .inr ⟨⟨_, entry?_put_self _ (not_isTopPlace_of_entry file) _⟩, ?_⟩
      rw [entry?_put_ne _ (script_ne_copyPlace hl).symm, copy rfl]
    · exact safe.script.congr (entry?_put_ne _ (Ne.symm eq) _)
        (entry?_put_ne _ (script_ne_copyPlace hl).symm _)

/-! ### Restoring -/

theorem restoreCopy (h : Safe original s c t) (named : isScriptName p.name)
    (restored : t.copy (backupOf p) p = .ok t') :
    ∃ l, isScriptName (placeName l) ∧ t.locate p = .ok l ∧ Safe original s c t' ∧
      (l = s → t'.entry? s = some (.file c)) := by
  have hp := isNamed_of_isScriptName named
  obtain ⟨l, c', place, copy, result⟩ := restoreCopy_eq_ok hp restored
  have hl : isScriptName (placeName l) := placeName_of_locate hp place ▸ named
  have file : t.entry? l ≠ some .directory := by
    intro dir
    simp [h.uncovered l hl dir] at copy
  obtain rfl := result file
  have written := entry?_put_self t (not_isTopPlace_of_entry file) (.file c')
  have copies := entry?_put_ne t (script_ne_copyPlace hl (m := s)).symm (.file c')
  refine ⟨l, hl, place, h.put file (fun d _ _ => script_ne_copyPlace hl) ?_, ?_⟩
  · by_cases eq : l = s
    · subst eq
      refine .inr ⟨⟨c', written⟩, ?_⟩
      rw [copies, copy, h.script.of_copy copy]
    · exact h.script.congr (entry?_put_ne t (Ne.symm eq) _) copies
  · rintro rfl
    rw [written, h.script.of_copy copy]

theorem removeCopy (h : Safe original s c t) (hs : isScriptName (placeName s))
    (named : isScriptName p.name) (place : t.locate p = .ok l) (hl : isScriptName (placeName l))
    (same : l = s → t.entry? s = some (.file c)) (removed : t.remove (backupOf p) = .ok t') :
    Safe original s c t' := by
  obtain ⟨⟨c', copy⟩, rfl⟩ := removeCopy_eq_ok (isNamed_of_isScriptName named) place removed
  have file : t.entry? (copyPlace l) ≠ some .directory := by simp [copy]
  have scripts := entry?_erase_ne t (script_ne_copyPlace hs) (m := s) (l := copyPlace l)
  refine h.erase file ?_
  by_cases eq : l = s
  · subst eq
    exact .inl ⟨scripts.trans (same rfl), entry?_erase_self t (not_isTopPlace_of_entry file)⟩
  · refine h.script.congr scripts (entry?_erase_ne t fun copies => eq ?_)
    exact (copyPlace_injective hs hl copies).symm

end Safe

/-! ## Archives -/

theorem finalSign_map (f : Char → Char) (s : String) : finalSign (s.map f) = (finalSign s).map f := by
  unfold finalSign
  rw [String.toList_map, List.getLast?_map]

def HasArchiveName (p : Path) : Prop := (finalSign p.name).map Char.toLower = some 'p'

variable {p : Path}

theorem HasArchiveName.isNamed (h : HasArchiveName p) : p.IsNamed := by
  refine ⟨fun none => ?_, fun dots => ?_⟩
  · rw [HasArchiveName, Path.name, none] at h
    exact absurd h (by decide)
  · rw [HasArchiveName, dots] at h
    exact absurd h (by decide)

theorem hasArchiveName_child (p : Path) (name : String) : HasArchiveName (p.child (name ++ ".zip")) := by
  unfold HasArchiveName
  rw [Path.name_child, finalSign_append _ (by decide)]
  decide

theorem hasArchiveName_zipPath (p : Path) : HasArchiveName (zipPath p) := by
  unfold zipPath
  split
  · have zip : (finalSign p.suffix).map Char.toLower = some 'p' := by
      rw [← finalSign_map, eq_of_beq ‹(p.suffix.map Char.toLower == ".zip") = true›]
      decide
    unfold HasArchiveName
    rw [← zip]
    unfold Path.suffix at zip ⊢
    split at zip
    · rename_i n _
      rw [finalSign, String.toList_ofList, List.getLast?_drop] at zip
      split at zip
      · cases zip
      · simp [finalSign, String.toList_ofList, List.getLast?_drop, *]
    · cases zip
  · exact hasArchiveName_child _ _

/-! ## Runs -/

variable {original : Tree} {s : Location} {c : Content}

def safety (original : Tree) (s : Location) (c : Content) : WorldInvariant where
  holds w := Safe original s c w.tree
  printed _ _ h := h

theorem admitsWriting_archive (hs : isScriptName (placeName s)) (hp : HasArchiveName p) :
    AdmitsWriting (safety original s c) p := by
  intro c' w t' safe written
  obtain ⟨l, place, file, rfl⟩ := write_eq_ok.mp written
  have final : (finalSign (placeName l)).map Char.toLower = some 'p' := by
    rw [placeName_of_locate hp.isNamed place]
    exact hp
  have copies : ∀ m, l ≠ copyPlace m := fun m => ne_copyPlace_of_finalSign fun k => by
    rw [k] at final
    exact absurd final (by decide)
  refine safe.write_harmless file ?_ (copies s) (fun d _ _ => copies d) c'
  rintro rfl
  rw [finalSign_scriptName hs] at final
  exact absurd final (by decide)

theorem admitsWriting_output (script : IsScript original s c) {t : Tree}
    (same : SameDirectories original t)
    (spared : ∀ l ∈ (t.locate p).toOption, Spares original l) :
    AdmitsWriting (safety original s c) p := by
  intro c' w t' safe written
  obtain ⟨l, place, file, rfl⟩ := write_eq_ok.mp written
  have place := (safe.directories.symm.trans same).locate place
  obtain ⟨scripts, directories⟩ := spared l (by rw [place]; rfl)
  obtain ⟨other, noCopy⟩ := scripts _ (script_mem_entries script.2 script.1) script.2 (by simp)
  refine safe.write_harmless file other noCopy (fun d hd dir => ?_) c'
  have dir := (safe.directories d).mpr dir
  exact directories _ (script_mem_entries hd dir) hd rfl

theorem admitsRestoring (hs : isScriptName (placeName s)) (named : isScriptName p.name) :
    AdmitsRestoring (safety original s c) p := by
  intro w t safe restored
  obtain ⟨l, hl, place, safe', same⟩ := Safe.restoreCopy safe named restored
  have back := (Safe.directories safe).symm.trans safe'.directories
  exact ⟨safe', fun t' => safe'.removeCopy hs named (back.locate place) hl same⟩

theorem admitsRun (script : IsScript original s c) {o : Options} (root : Path) {t : Tree}
    (same : SameDirectories original t) (backup : o.backup)
    (spared : ∀ p ∈ outputs o, ∀ l ∈ (t.locate p).toOption, Spares original l) :
    AdmitsRun (safety original s c) o root fun p => isScriptName p.name where
  reading _ _ h := h
  found t := namesScripts_scriptsAt o t root
  fixing p hp w t r safe fixed := Safe.fixFile safe script.2 hp backup fixed
  restoring p hp := admitsRestoring script.2 hp
  report asked := by
    refine admitsWriting_output script same (spared _ ?_)
    simp [outputs, asked]
  backup asked now := admitsWriting_archive script.2 (hasArchiveName_zipPath _)
  whole asked whole := by
    refine admitsWriting_output script same (spared _ ?_)
    simp [outputs, asked, Int.not_lt.mpr whole]
  pieces n := admitsWriting_archive script.2 (hasArchiveName_child _ _)

theorem safe_of_session (fresh : NoCopies original) (script : IsScript original s c) {t : Tree}
    (session : Session (Spares original) original t) : Safe original s c t := by
  induction session with
  | start => exact .start fresh script
  | @run args w _ careful safe =>
    refine lintProgram_keeps (I := safety original s c) (Q := fun p => isScriptName p.name)
      (fun _ _ h => h) safe ?_
    intro o root w' chosen
    obtain ⟨backup, denied, -, spared⟩ := careful.of_ok chosen
    exact ⟨admitsRun script root safe.directories backup spared, denied⟩

end LuaTune.Recovery
