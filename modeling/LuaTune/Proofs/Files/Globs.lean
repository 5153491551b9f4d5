import LuaTune.Proofs.Files.Places

/-!
# Patterns for paths

Parts without wildcards stand for themselves, so a pattern whose directories have none finds things
in that one directory.
-/

namespace LuaTune.Files

open List

variable {t : Tree} {p q : Path} {s : Chars} {part : String}

/-! ## Names -/

theorem matchesAll_chars {cs : Chars} {ws : List Wildcard}
    (h : matchesAll (cs.map .char ++ ws) s) : ∃ rest, s = cs ++ rest ∧ matchesAll ws rest := by
  induction cs generalizing s with
  | nil => exact ⟨s, rfl, h⟩
  | cons c cs ih =>
    cases s with
    | nil => cases h
    | cons d s =>
      obtain ⟨same, others⟩ := (Bool.and_eq_true _ _).mp h
      obtain ⟨rest, rfl, matched⟩ := ih others
      obtain rfl : d = c := eq_of_beq same
      exact ⟨rest, rfl, matched⟩

theorem exists_tail_of_someTail {test : Chars → Bool} (h : someTail test s) :
    ∃ front rest, s = front ++ rest ∧ test rest := by
  induction s with
  | nil => exact ⟨[], [], rfl, h⟩
  | cons c s ih =>
    rcases (Bool.or_eq_true _ _).mp h with here | later
    · exact ⟨[], c :: s, rfl, here⟩
    · obtain ⟨front, rest, rfl, passed⟩ := ih later
      exact ⟨c :: front, rest, rfl, passed⟩

theorem eq_of_matches_star (front ending : Chars)
    (h : matchesAll (front.map .char ++ .anyText :: ending.map .char) s) :
    ∃ middle, s = front ++ middle ++ ending := by
  obtain ⟨rest, rfl, star⟩ := matchesAll_chars h
  rw [matchesAll] at star
  obtain ⟨middle, rest, rfl, final⟩ := exists_tail_of_someTail star
  rw [← append_nil (ending.map Wildcard.char)] at final
  obtain ⟨nothing, rfl, none⟩ := matchesAll_chars final
  obtain rfl := isEmpty_iff.mp none
  exact ⟨middle, by simp⟩

/-! ## Directories -/

def Path.IsPlain (p : Path) : Prop := ∀ part ∈ p.parts, hasWildcards part = false

theorem eq_of_mem_matching (plain : hasWildcards part = false) (h : q ∈ matching t part p) :
    q = p.child part := by
  rw [matching, plain, if_neg Bool.false_ne_true] at h
  exact mem_singleton.mp (mem_filter.mp h).1

theorem eq_of_mem_foldl_matching {parts : List String} (plain : ∀ part ∈ parts, hasWildcards part = false)
    {found : List Path} (start : ∀ q ∈ found, q = p)
    (h : q ∈ parts.foldl (fun ps part => ps.flatMap (matching t part)) found) :
    q = ⟨p.rooted, p.parts ++ parts⟩ := by
  induction parts generalizing p found with
  | nil =>
    rw [append_nil]
    exact start q h
  | cons part parts ih =>
    have next : ∀ q ∈ found.flatMap (matching t part), q = p.child part := by
      intro q hq
      obtain ⟨d, hd, hq⟩ := mem_flatMap.mp hq
      obtain rfl := start d hd
      exact eq_of_mem_matching (plain part mem_cons_self) hq
    have rest := ih (fun part' hp => plain part' (mem_cons_of_mem part hp)) next h
    simpa [Path.child] using rest

theorem child_of_mem_matching (wild : hasWildcards part) (h : q ∈ matching t part p) : t.isDirectory p ∧
      ∃ name ∈ t.names p, q = p.child name ∧ matchesAll (wildcards part) name.toList := by
  rw [matching, if_pos wild] at h
  obtain ⟨below, passed⟩ := mem_filter.mp h
  split at below
  · obtain ⟨name, listed, rfl⟩ := mem_map.mp below
    rw [Path.name_child] at passed
    exact ⟨‹_›, name, listed, rfl, ((Bool.and_eq_true _ _).mp passed).1⟩
  · cases below

theorem mem_matching_of_mem_glob (plain : p.IsPlain) (h : q ∈ glob t (p.child part)) :
    q ∈ matching t part p := by
  rw [glob, Path.child, foldl_append] at h
  obtain ⟨d, hd, hq⟩ := mem_flatMap.mp h
  have here := eq_of_mem_foldl_matching plain (p := ⟨p.rooted, []⟩) (fun q hq => mem_singleton.mp hq) hd
  rw [nil_append] at here
  rwa [here] at hq

end LuaTune.Files
