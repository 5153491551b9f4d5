import LuaTune.Text.Bytes
import Mathlib.Data.List.DropRight

/-!
# Two tables of lines

`newlineLines` cuts a text at its newlines and `lines` at every line break. A break at the very end
does no harm, since it is blank itself.
-/

namespace LuaTune.Text

open List

variable {cs : Chars} {c : Char}

/-- The piece after `n` others of a text that is cut where `cut` says; empty if there is none. -/
def piece (cut : Char → Bool) : Nat → Chars → Chars
  | _, [] => []
  | 0, c :: cs => if cut c then [] else c :: piece cut 0 cs
  | n + 1, c :: cs => piece cut (if cut c then n else n + 1) cs

abbrev isNewline (c : Char) : Bool := c == '\n'

def firstLines : Nat → Chars → Chars
  | 0, _ => []
  | _ + 1, [] => []
  | n + 1, c :: cs => c :: firstLines (if isNewline c then n else n + 1) cs

/-- Does a line break that is no newline stand before a character that is not blank? -/
def hasInnerBreak : Chars → Bool
  | [] => false
  | c :: cs => isLineBreak c && !isNewline c && cs.any (!isBlank ·) || hasInnerBreak cs

/-! ## The tables by their pieces -/

theorem getD_splitOn (sep : Char) (n : Nat) (cs : Chars) :
    (splitOn sep cs)[n]?.getD [] = piece (· == sep) n cs := by
  induction cs generalizing n with
  | nil => cases n <;> rfl
  | cons c cs ih =>
    obtain ⟨l, ls, table⟩ := exists_cons_of_ne_nil (splitOn_ne_nil sep cs)
    simp only [splitOn, table] at ih ⊢
    by_cases h : c = sep
    · cases n with
      | zero => simp [piece, h]
      | succ n => simpa [piece, h] using ih n
    · cases n with
      | zero => simpa [piece, h] using ih 0
      | succ n => simpa [piece, h] using ih (n + 1)

theorem getD_linesFrom (h : '\r' ∉ cs) (line : Chars) (n : Nat) : (linesFrom line cs)[n]?.getD [] =
      (if n = 0 then line.reverse else []) ++ piece isLineBreak n cs := by
  fun_induction linesFrom line cs generalizing n with
  | case1 line empty => cases n <;> simp_all [piece]
  | case2 line some => cases n <;> simp [piece]
  | case3 line cs ih => simp at h
  | case4 line c cs other breaks ih =>
    rw [mem_cons, not_or] at h
    cases n with
    | zero => simp [piece, breaks]
    | succ n =>
      have := ih h.2 n
      cases n <;> simpa [piece, breaks] using this
  | case5 line c cs other inside ih =>
    rw [mem_cons, not_or] at h
    cases n with
    | zero => simpa [piece, inside] using ih h.2 0
    | succ n => simpa [piece, inside] using ih h.2 (n + 1)

theorem getD_lines (h : '\r' ∉ cs) (n : Nat) : (lines cs)[n]?.getD [] = piece isLineBreak n cs := by
  rw [lines, getD_linesFrom h]
  cases n <;> rfl

theorem mem_unifyNewlines (h : c ∈ unifyNewlines cs) : c = '\n' ∨ c ∈ cs ∧ c ≠ '\r' := by
  fun_induction unifyNewlines cs with
  | case1 => cases h
  | case2 cs ih =>
    rcases mem_cons.mp h with rfl | h
    · exact .inl rfl
    · exact (ih h).imp_right fun found => ⟨by simp [found.1], found.2⟩
  | case3 d cs other ih =>
    rcases mem_cons.mp h with rfl | h
    · split
      · exact .inl rfl
      · exact .inr ⟨mem_cons_self, ‹_›⟩
    · exact (ih h).imp_right fun found => ⟨mem_cons_of_mem d found.1, found.2⟩

theorem not_mem_scriptText (bs : Bytes) : '\r' ∉ scriptText bs := by
  intro h
  rcases mem_unifyNewlines h with newline | ⟨-, other⟩
  · exact absurd newline (by decide)
  · exact other rfl

/-! ## Blanks at the end -/

theorem contains_iff_infix {p : Chars} : contains cs p ↔ p <:+: cs := by
  induction cs with
  | nil => cases p <;> simp [contains, find?]
  | cons c cs ih =>
    rw [infix_cons_iff, ← ih, ← startsWith_iff, contains, find?]
    split
    · next start => simp [start]
    · next start => simp [start, contains]

theorem stripRight_eq_nil : stripRight cs = [] ↔ ∀ c ∈ cs, isBlank c := rdropWhile_eq_nil_iff

theorem stripRight_cons (c : Char) (cs : Chars) :
    stripRight (c :: cs) = if stripRight cs = [] ∧ isBlank c then [] else c :: stripRight cs := by
  simp only [stripRight, dropEndWhile, reverse_cons, dropWhile_append, reverse_eq_nil_iff,
    List.isEmpty_iff]
  by_cases blank : List.dropWhile isBlank cs.reverse = []
  · by_cases h : isBlank c <;> simp [blank, h]
  · simp [blank]

theorem stripRight_cons_inj (c : Char) {xs ys : Chars} :
    stripRight (c :: xs) = stripRight (c :: ys) ↔ stripRight xs = stripRight ys := by
  rw [stripRight_cons, stripRight_cons]
  constructor
  · intro h
    split at h <;> split at h <;> simp_all
  · intro h
    rw [h]

theorem stripRight_append_blank {xs bs : Chars} (blank : ∀ c ∈ bs, isBlank c) :
    stripRight (xs ++ bs) = stripRight xs := by
  induction xs with
  | nil => exact stripRight_eq_nil.mpr blank
  | cons c xs ih => rw [cons_append, stripRight_cons, stripRight_cons, ih]

theorem stripRight_append_cons (xs : Chars) {d : Char} (h : isBlank d = false) (ys : Chars) :
    stripRight (xs ++ d :: ys) = xs ++ d :: stripRight ys := by
  induction xs with
  | nil => simp [stripRight_cons, h]
  | cons c xs ih => rw [cons_append, stripRight_cons, ih, if_neg (by simp), cons_append]

theorem contains_stripRight (cs p : Chars) {d : Char} (h : isBlank d = false) :
    contains (stripRight cs) (p ++ [d]) = contains cs (p ++ [d]) := by
  rw [Bool.eq_iff_iff, contains_iff_infix, contains_iff_infix]
  constructor
  · exact fun found => found.trans ( rdropWhile_prefix isBlank cs).isInfix
  · rintro ⟨front, rest, rfl⟩
    refine ⟨front, stripRight rest, ?_⟩
    have text : front ++ (p ++ [d]) ++ rest = (front ++ p) ++ d :: rest := by simp
    rw [text, stripRight_append_cons _ h]
    simp

theorem strip_cons_blank (h : isBlank c) (cs : Chars) : strip (c :: cs) = strip cs := by
  rw [strip, strip, stripLeft, stripLeft, dropWhile_cons_of_pos h]

theorem strip_stripRight (cs : Chars) : strip (stripRight cs) = strip cs := by
  induction cs with
  | nil => rfl
  | cons c cs ih =>
    by_cases blank : isBlank c
    · rw [strip_cons_blank blank, ← ih, stripRight_cons]
      split
      · next h => rw [h.1]
      · exact strip_cons_blank blank _
    · have start (xs : Chars) : strip (c :: xs) = stripRight (c :: xs) := by
        rw [strip, stripLeft, dropWhile_cons_of_neg blank]
      rw [stripRight_cons, if_neg (fun h => blank h.2), start, start, stripRight_cons_inj]
      exact rdropWhile_idempotent isBlank cs

theorem isBlank_of_isLineBreak (h : isLineBreak c) : isBlank c := by
  simp only [isLineBreak, isBlank, Bool.or_eq_true, Bool.and_eq_true, decide_eq_true_eq, beq_iff_eq] at h ⊢
  omega

/-! ## Where the tables part -/

theorem firstLines_succ (n : Nat) (cs : Chars) :
    ∃ stop, stop <+: ['\n'] ∧ firstLines (n + 1) cs = firstLines n cs ++ piece isNewline n cs ++ stop := by
  induction cs generalizing n with
  | nil => exact ⟨[], nil_prefix, by cases n <;> rfl⟩
  | cons c cs ih =>
    by_cases newline : c = '\n'
    · cases n with
      | zero => exact ⟨['\n'], prefix_rfl, by simp [firstLines, piece, newline]⟩
      | succ n =>
        obtain ⟨stop, short, rest⟩ := ih n
        exact ⟨stop, short, by simp [firstLines, piece, newline, rest]⟩
    · cases n with
      | zero =>
        obtain ⟨stop, short, rest⟩ := ih 0
        exact ⟨stop, short, by simp_all [firstLines, piece]⟩
      | succ n =>
        obtain ⟨stop, short, rest⟩ := ih (n + 1)
        exact ⟨stop, short, by simp [firstLines, piece, newline, rest]⟩

theorem firstLines_isPrefix (n : Nat) (cs : Chars) : firstLines n cs <+: cs := by
  induction cs generalizing n with
  | nil => cases n <;> exact nil_prefix
  | cons c cs ih =>
    cases n with
    | zero => exact nil_prefix
    | succ n => exact (prefix_cons_inj c).mpr (ih _)

theorem firstLines_isPrefix_succ (n : Nat) (cs : Chars) : firstLines n cs <+: firstLines (n + 1) cs := by
  obtain ⟨stop, -, rest⟩ := firstLines_succ n cs
  rw [rest, append_assoc]
  exact prefix_append _ _

theorem piece_subset_firstLines {cut : Char → Bool} (newline : cut '\n') (n : Nat) (cs : Chars) :
    piece cut n cs ⊆ firstLines (n + 1) cs := by
  induction cs generalizing n with
  | nil => cases n <;> simp [piece]
  | cons c cs ih =>
    rw [firstLines]
    by_cases here : cut c
    · cases n with
      | zero => simp [piece, here]
      | succ n =>
        rw [piece, if_pos here]
        refine subset_cons_of_subset c ?_
        split
        · exact ih n
        · exact List.Subset.trans (ih n) (firstLines_isPrefix_succ _ cs).subset
    · have inside : ¬isNewline c := fun h => here (by rwa [eq_of_beq h])
      rw [if_neg inside]
      cases n with
      | zero =>
        rw [piece, if_neg here]
        exact cons_subset_cons c (ih 0)
      | succ n =>
        rw [piece, if_neg here]
        exact subset_cons_of_subset c (ih (n + 1))

theorem isBlank_of_prefix_newline {stop : Chars} (short : stop <+: ['\n']) : ∀ c ∈ stop, isBlank c := by
  intro c hc
  rw [mem_singleton.mp (short.subset hc)]
  decide

theorem blank_firstLines_iff (n : Nat) (cs : Chars) :
    (∀ c ∈ firstLines n cs, isBlank c) ↔ ∀ i < n, stripRight (piece isNewline i cs) = [] := by
  induction n with
  | zero => simp [firstLines]
  | succ n ih =>
    obtain ⟨stop, short, rest⟩ := firstLines_succ n cs
    rw [rest, Nat.forall_lt_succ_right, ← ih, stripRight_eq_nil]
    simp only [mem_append, or_imp, forall_and]
    exact and_iff_left (isBlank_of_prefix_newline short)

/-- After a break that is no newline the numbers differ by one, and all lines have to be blank. -/
theorem blank_of_shifted {n : Nat} (first : stripRight (piece isNewline 0 cs) = [])
    (others : ∀ i < n, stripRight (piece isLineBreak i cs) = stripRight (piece isNewline (i + 1) cs)) :
    ∀ c ∈ firstLines (n + 1) cs, isBlank c := by
  induction n with
  | zero =>
    rw [blank_firstLines_iff]
    intro i hi
    rwa [Nat.lt_one_iff.mp hi]
  | succ n ih =>
    have before := ih fun i hi => others i (by omega)
    -- line `n + 1` of the one table is line `n` of the other, which lies in lines that are blank
    have next : stripRight (piece isNewline (n + 1) cs) = [] := by
      rw [← others n (by omega), stripRight_eq_nil]
      exact fun c hc => before c (piece_subset_firstLines (by decide) n cs hc)
    rw [blank_firstLines_iff] at before ⊢
    exact Nat.forall_lt_succ_right.mpr ⟨before, next⟩

theorem hasInnerBreak_eq_false (h : ∀ c ∈ cs, isBlank c) : hasInnerBreak cs = false := by
  induction cs with
  | nil => rfl
  | cons c cs ih =>
    rw [forall_mem_cons] at h
    have nothing : cs.any (!isBlank ·) = false := by simpa using h.2
    rw [hasInnerBreak, nothing, Bool.and_false, Bool.false_or]
    exact ih h.2

theorem hasInnerBreak_cons (breaks : isLineBreak c) (newline : c ≠ '\n') (cs : Chars) :
    hasInnerBreak (c :: cs) = false ↔ ∀ d ∈ cs, isBlank d := by
  have here : hasInnerBreak (c :: cs) = (cs.any (!isBlank ·) || hasInnerBreak cs) := by
    rw [hasInnerBreak, breaks, isNewline, beq_false_of_ne newline]
    rfl
  rw [here, Bool.or_eq_false_iff]
  constructor
  · rintro ⟨nothing, -⟩
    simpa using nothing
  · intro blank
    exact ⟨by simpa using blank, hasInnerBreak_eq_false blank⟩

theorem shifted_iff (blank : isBlank c) (n : Nat) (cs : Chars) :
    (stripRight [] = stripRight (c :: piece isNewline 0 cs) ∧
        ∀ i < n, stripRight (piece isLineBreak i cs) = stripRight (piece isNewline (i + 1) cs)) ↔
      ∀ d ∈ firstLines (n + 1) cs, isBlank d := by
  have first : stripRight [] = stripRight (c :: piece isNewline 0 cs) ↔
      stripRight (piece isNewline 0 cs) = [] := by
    rw [eq_comm, show stripRight [] = [] from rfl, stripRight_cons]
    simp [blank]
  rw [first]
  constructor
  · rintro ⟨here, others⟩
    exact blank_of_shifted here others
  · intro all
    have lines := (blank_firstLines_iff _ _).mp all
    refine ⟨lines 0 (by omega), fun i hi => ?_⟩
    have early : ∀ d ∈ firstLines (i + 1) cs, isBlank d :=
      (blank_firstLines_iff _ _).mpr fun j hj => lines j (by omega)
    rw [lines (i + 1) (by omega), stripRight_eq_nil]
    exact fun d hd => early d (piece_subset_firstLines (by decide) i cs hd)

theorem pieces_alike_iff (n : Nat) (cs : Chars) :
    (∀ i < n, stripRight (piece isLineBreak i cs) = stripRight (piece isNewline i cs)) ↔
      hasInnerBreak (firstLines n cs) = false := by
  induction cs generalizing n with
  | nil => cases n <;> simp [piece, firstLines, hasInnerBreak]
  | cons c cs ih =>
    cases n with
    | zero => simp [firstLines, hasInnerBreak]
    | succ n =>
      -- a newline ends a line in both tables, another break in one of them, and any other character
      -- is the next one of the same line in both
      rw [Nat.forall_lt_succ_left]
      by_cases newline : c = '\n'
      · subst newline
        simpa [piece, firstLines, hasInnerBreak, show isLineBreak '\n' by decide] using ih n
      · by_cases breaks : isLineBreak c
        · have text : firstLines (n + 1) (c :: cs) = c :: firstLines (n + 1) cs := by
            simp [firstLines, newline]
          rw [text, hasInnerBreak_cons breaks newline, ← shifted_iff (isBlank_of_isLineBreak breaks)]
          simp [piece, newline, breaks]
        · have := ih (n + 1)
          rw [Nat.forall_lt_succ_left] at this
          simpa [piece, firstLines, hasInnerBreak, newline, breaks, stripRight_cons_inj] using this

/-- The lines of the two tables are the same, blanks at their ends apart, exactly if no line break
other than the newline has text behind it in these lines. -/
theorem lines_alike_iff (unified : '\r' ∉ cs) (n : Nat) :
    (∀ i < n, stripRight ((lines cs)[i]?.getD []) = stripRight ((newlineLines cs)[i]?.getD [])) ↔
      hasInnerBreak (firstLines n cs) = false := by
  simp only [getD_lines unified, newlineLines, getD_splitOn]
  exact pieces_alike_iff n cs

end LuaTune.Text
