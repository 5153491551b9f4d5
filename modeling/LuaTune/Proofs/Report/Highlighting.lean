import LuaTune.Report.Basic
import Mathlib.Data.List.Infix

/-!
# Marked code

The part to mark is looked for in the line after escaping. Its first place there need not begin with
a character of the line: a name such as `amp` stands in what `&` is escaped to.
-/

namespace LuaTune.Text

theorem replaceFirst_eq {p cs : Chars} {n : Nat} (h : find? p cs = some n) :
    ∃ xs ys, xs.length = n ∧ cs = xs ++ p ++ ys ∧ ∀ r, replaceFirst p r cs = xs ++ r ++ ys := by
  obtain ⟨xs, ys, rfl, rfl⟩ := find?_eq_some h
  refine ⟨xs, ys, rfl, rfl, fun r => ?_⟩
  rw [replaceFirst, h]
  simp

end LuaTune.Text

namespace LuaTune.Report

open Text List

variable {xs cs part : Chars} {n : Nat}

/-! ## Escaped text -/

def codeChar (c : Char) : Chars := escapedChar ⟨"&quot;", "&#x27;"⟩ c

theorem codeChar_inj {a b : Char} {ys : Chars} (h : codeChar a ++ xs = codeChar b ++ ys) :
    a = b := by
  unfold codeChar escapedChar at h
  split at h <;> split at h <;> simp at h <;> grind

theorem codeChar_plain {c d : Char} (h : d ∈ codeChar c) : d ∉ ['<', '>', '"', '\''] := by
  unfold codeChar escapedChar at h
  split at h <;> simp at h ⊢ <;> grind

theorem codeChar_ne_nil (c : Char) : codeChar c ≠ [] := by
  unfold codeChar escapedChar
  split <;> simp

theorem escapeCode_ne_nil (h : cs ≠ []) : escapeCode cs ≠ [] := by
  cases cs with
  | nil => exact absurd rfl h
  | cons c cs => exact append_ne_nil_of_left_ne_nil (codeChar_ne_nil c) _

theorem escapeCode_append (xs ys : Chars) : escapeCode (xs ++ ys) = escapeCode xs ++ escapeCode ys :=
  flatMap_append

/-- A text is escaped character by character, so that what begins with an escaped text is that text
and more. -/
theorem exists_of_escapeCode_append {rest : Chars} (h : escapeCode cs = escapeCode xs ++ rest) :
    ∃ ys, cs = xs ++ ys ∧ rest = escapeCode ys := by
  induction xs generalizing cs with
  | nil => exact ⟨cs, rfl, h.symm⟩
  | cons x xs ih =>
    cases cs with
    | nil => exact absurd (append_eq_nil_iff.mp h.symm).1 (escapeCode_ne_nil (cons_ne_nil x xs))
    | cons c cs =>
      change codeChar c ++ escapeCode cs = codeChar x ++ escapeCode xs ++ rest at h
      rw [append_assoc] at h
      cases codeChar_inj h
      obtain ⟨ys, rfl, same⟩ := ih (append_cancel_left h)
      exact ⟨ys, rfl, same⟩

theorem escapeCode_plain {d : Char} (h : d ∈ escapeCode cs) : d ∉ ['<', '>', '"', '\''] := by
  obtain ⟨c, -, hd⟩ := mem_flatMap.mp h
  exact codeChar_plain hd

/-! ## Marked lines -/

def openTag : Chars := "<span class=\"highlight\">".toList

theorem openTag_eq : ∃ tag, openTag = '<' :: tag := ⟨_, rfl⟩

def closeTag : Chars := "</span>".toList

/-- The escaped line, in which some part of the line may be marked. -/
def ShowsLine (line html : Chars) : Prop := html = escapeCode line ∨ ∃ a b c, a ++ b ++ c = line ∧
    html = escapeCode a ++ openTag ++ escapeCode b ++ closeTag ++ escapeCode c

variable {line : Chars} {ds : Details} {pattern : String}

/-- The part that is to be marked stands in the escaped line, first after so many characters. -/
structure IsMarkedAt (line : Chars) (ds : Details) (pattern : String) (part : Chars) (n : Nat) :
    Prop where
  detailed : ds.isEmpty = false
  chosen : markedPart? ds pattern = some part
  filled : part ≠ []
  place : find? (escapeCode part) (escapeCode line) = some n

theorem IsMarkedAt.highlight_eq (h : IsMarkedAt line ds pattern part n) :
    ∃ front rest, front.length = n ∧ escapeCode line = front ++ escapeCode part ++ rest ∧
      highlight line ds pattern = front ++ openTag ++ escapeCode part ++ closeTag ++ rest := by
  obtain ⟨detailed, marked, filled, place⟩ := h
  obtain ⟨c, cs, rfl⟩ := exists_cons_of_ne_nil filled
  obtain ⟨front, rest, length, split, replaced⟩ := replaceFirst_eq place
  refine ⟨front, rest, length, split, ?_⟩
  have html : highlight line ds pattern =
      replaceFirst (escapeCode (c :: cs)) (openTag ++ escapeCode (c :: cs) ++ closeTag) (escapeCode line) := by
    simp only [highlight, detailed, marked]
    rfl
  rw [html, replaced]
  simp only [append_assoc]

theorem highlight_eq_escapeCode (h : ∀ part n, ¬IsMarkedAt line ds pattern part n) :
    highlight line ds pattern = escapeCode line := by
  unfold highlight
  dsimp only
  split
  · next c cs chosen =>
    cases detailed : ds.isEmpty with
    | true => simp [detailed] at chosen
    | false =>
      simp only [detailed] at chosen
      have nowhere : find? (escapeCode (c :: cs)) (escapeCode line) = none :=
        Option.eq_none_iff_forall_ne_some.mpr fun n place => h _ n ⟨detailed, chosen, cons_ne_nil c cs, place⟩
      rw [replaceFirst, nowhere]
  · rfl

theorem IsMarkedAt.unique {part' : Chars} {n' : Nat} (h : IsMarkedAt line ds pattern part n)
    (h' : IsMarkedAt line ds pattern part' n') : n' = n := by
  cases h.chosen.symm.trans h'.chosen
  exact Option.some.inj (h'.place.symm.trans h.place)

theorem takeWhile_openTag (h : '<' ∉ xs) (ys : Chars) :
    (xs ++ (openTag ++ ys)).takeWhile (· != '<') = xs := by
  obtain ⟨tag, opens⟩ := openTag_eq
  rw [takeWhile_append_of_pos fun c hc => by simpa using ne_of_mem_of_not_mem hc h]
  simp [opens]

theorem IsMarkedAt.showsLine_iff (h : IsMarkedAt line ds pattern part n) :
    ShowsLine line (highlight line ds pattern) ↔ ∃ a, a <+: line ∧ (escapeCode a).length = n := by
  obtain ⟨front, rest, rfl, split, html⟩ := h.highlight_eq
  have unmarked (cs : Chars) : '<' ∉ escapeCode cs := fun mem => escapeCode_plain mem (by decide)
  have start : '<' ∉ front := fun mem => unmarked line (split ▸ by simp [mem])
  rw [html]
  constructor
  · rintro (whole | ⟨a, b, c, rfl, same⟩)
    · obtain ⟨tag, opens⟩ := openTag_eq
      exact absurd (whole ▸ by simp [opens]) (unmarked line)
    · have first := congrArg (List.takeWhile (· != '<')) same
      simp only [append_assoc, takeWhile_openTag start, takeWhile_openTag (unmarked a)] at first
      exact ⟨a, ⟨b ++ c, by simp⟩, by rw [first]⟩
  · rintro ⟨a, ⟨later, rfl⟩, length⟩
    rw [escapeCode_append, append_assoc] at split
    obtain ⟨rfl, after⟩ := append_inj split length
    obtain ⟨c, rfl, rfl⟩ := exists_of_escapeCode_append after
    exact .inr ⟨a, part, c, by simp, rfl⟩

/-- No text of the line becomes markup. The page shows the line, with a part marked or not, exactly
if the first place of the marked part begins with a character of the line. -/
theorem highlight_showsLine_iff (line : Chars) (ds : Details) (pattern : String) :
    (∀ ch ∈ escapeCode line, ch ∉ ['<', '>', '"', '\'']) ∧
    (highlight line ds pattern = escapeCode line ∨ ∃ x y z, x ++ y ++ z = escapeCode line ∧
      highlight line ds pattern = x ++ openTag ++ y ++ closeTag ++ z) ∧
    (ShowsLine line (highlight line ds pattern) ↔ ∀ part n, IsMarkedAt line ds pattern part n →
      ∃ a, a <+: line ∧ (escapeCode a).length = n) := by
  refine ⟨fun ch hc => escapeCode_plain hc, ?_⟩
  by_cases marked : ∃ part n, IsMarkedAt line ds pattern part n
  · obtain ⟨part, n, marked⟩ := marked
    obtain ⟨front, rest, -, split, html⟩ := marked.highlight_eq
    refine ⟨.inr ⟨front, escapeCode part, rest, split.symm, html⟩, marked.showsLine_iff.trans ?_⟩
    exact ⟨fun h part' n' marked' => marked.unique marked' ▸ h, fun h => h part n marked⟩
  · have whole := highlight_eq_escapeCode fun part n h => marked ⟨part, n, h⟩
    exact ⟨.inl whole, iff_of_true (.inl whole) fun part n h => absurd ⟨part, n, h⟩ marked⟩

/-- The name is marked inside an escaped character. -/
theorem ampersand_split : let line := "a & amp".toList
    highlight line [("variable", .text "amp")] "global_write" =
      "a &<span class=\"highlight\">amp</span>; amp".toList ∧
    ¬ShowsLine line (highlight line [("variable", .text "amp")] "global_write") := by
  refine ⟨by decide +kernel, fun shows => ?_⟩
  have marked : IsMarkedAt "a & amp".toList [("variable", .text "amp")] "global_write" "amp".toList 3 :=
    ⟨rfl, rfl, by decide, by decide +kernel⟩
  obtain ⟨a, front, length⟩ := marked.showsLine_iff.mp shows
  have bounds : ∀ k < 8, (escapeCode ("a & amp".toList.take k)).length ≠ 3 := by decide +kernel
  refine bounds a.length (Nat.lt_succ_of_le front.length_le) ?_
  rwa [← prefix_iff_eq_take.mp front]

end LuaTune.Report
