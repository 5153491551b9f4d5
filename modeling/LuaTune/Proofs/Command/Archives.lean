import LuaTune.Command.Restore
import LuaTune.Proofs.Console.Keeps

/-!
# Writing archives

Backups and archives for debugging keep an invariant as soon as writing to their archives does.
-/

namespace LuaTune.Command

open Console Files
open Std.Do

variable {archive : Path}

set_option mvcgen.warning false

variable {I : WorldInvariant}

def AdmitsWriting (I : WorldInvariant) (p : Path) : Prop := ∀ c, Admits I fun t => t.write p c

/-! ## Backups -/

theorem startArchive_admitted (h : AdmitsWriting I archive) : Admits I (startArchive archive) := h _

theorem addEntry_admitted (h : AdmitsWriting I archive) (p : Path) (name : String) :
    Admits I (addEntry archive p name) := by
  intro w t hw added
  unfold addEntry at added
  cases he : archiveEntry w.tree p name with
  | error e => rw [he] at added; cases added
  | ok e =>
    rw [he] at added
    simp only [bind, Except.bind] at added
    split at added
    · exact h _ w t hw added
    · exact h _ w t hw added

@[spec]
theorem asArchive_spec (p : Path) : Yields I (asArchive p) (· = zipPath p) := by
  unfold Yields asArchive
  mvcgen

theorem backupScripts_spec (h : AdmitsWriting I archive) (root : Option Path) (quiet : Bool)
    (total done : Nat) (scripts : List ScriptItem) :
    Keeps I (backupScripts archive root quiet total done scripts) := by
  induction scripts generalizing done with
  | nil =>
    unfold Keeps backupScripts
    mvcgen
  | cons s ss ih =>
    have next := ih (done + 1)
    unfold Keeps backupScripts
    mvcgen [next]
    exact addEntry_admitted h _ _

theorem writeBackup_spec (h : AdmitsWriting I archive) (root : Option Path) (quiet : Bool)
    (scripts : List ScriptItem) : Keeps I (writeBackup archive root quiet scripts) := by
  have fill := backupScripts_spec h root quiet scripts.length 0 scripts
  unfold Keeps writeBackup
  mvcgen [fill]
  exact startArchive_admitted h

@[spec]
theorem note_spec (quiet : Bool) (s : String) : Keeps I (note quiet s) := by
  unfold Keeps note
  mvcgen

theorem backupAll_keeps (scripts : List ScriptItem) (asked : Option String) (root : Option Path)
    (quiet : Bool)
    (h : ∀ w, I.holds w → AdmitsWriting I (zipPath (backupPath root asked w.now))) :
    Keeps I (backupAll scripts asked root quiet) := by
  unfold Keeps backupAll
  mvcgen [writeBackup_spec]
  · exact And.left ‹_›
  · obtain ⟨-, rfl⟩ := ‹I.holds _ ∧ _ = zipPath _›
    exact h _ ‹_›

@[spec]
theorem backupAll_spec (scripts : List ScriptItem) (asked : Option String) (root : Option Path)
    (quiet : Bool) (h : ∀ now, AdmitsWriting I (zipPath (backupPath root asked now))) :
    Keeps I (backupAll scripts asked root quiet) :=
  backupAll_keeps scripts asked root quiet fun w _ => h w.now

/-! ## Archives for debugging -/

theorem addPair_spec (h : AdmitsWriting I archive) (verbose : Bool) (k : Kept) :
    Keeps I (addPair archive verbose k) := by
  unfold Keeps addPair
  mvcgen
  all_goals exact addEntry_admitted h _ _

theorem extractTo_spec (h : AdmitsWriting I archive) (verbose : Bool)
    (groups : List (String × List Kept)) : Keeps I (extractTo archive verbose groups) := by
  have pair := addPair_spec h verbose
  unfold Keeps extractTo
  mvcgen [pair]
  exact startArchive_admitted h

theorem extractPieces_spec {whole : Path} (h : ∀ n, AdmitsWriting I (pieceArchive whole n))
    (verbose : Bool) (total index : Nat) (pieces : List (List (String × List Kept))) :
    Keeps I (extractPieces whole verbose total index pieces) := by
  induction pieces generalizing index with
  | nil =>
    unfold Keeps extractPieces
    mvcgen
  | cons piece pieces ih =>
    have first := extractTo_spec (h (index + 1)) verbose piece
    have others := ih (index + 1)
    unfold Keeps extractPieces
    mvcgen [first, others]

theorem extractSplit_spec {whole : Path} (h : ∀ n, AdmitsWriting I (pieceArchive whole n))
    (verbose : Bool) (split : Nat) (groups : List (String × List Kept)) :
    Keeps I (extractSplit whole verbose split groups) := by
  have pieces := extractPieces_spec h verbose
  unfold Keeps extractSplit
  mvcgen [pieces]

theorem extractWhole_spec (h : AdmitsWriting I archive) (verbose : Bool)
    (groups : List (String × List Kept)) : Keeps I (extractWhole archive verbose groups) := by
  have whole := extractTo_spec h verbose groups
  unfold Keeps extractWhole
  mvcgen [whole]

theorem extractDebug_spec (asked : Path) (split : Int) (verbose : Bool) (kept : List Kept)
    (whole : split ≤ 0 → AdmitsWriting I (debugArchive asked))
    (pieces : 0 < split → ∀ n, AdmitsWriting I (pieceArchive (debugArchive asked) n)) :
    Keeps I (extractDebug asked split verbose kept) := by
  unfold Keeps extractDebug
  mvcgen [extractSplit_spec, extractWhole_spec]
  · exact fun _ _ => pieces ‹_›
  · exact fun _ _ => whole (by omega)

end LuaTune.Command
