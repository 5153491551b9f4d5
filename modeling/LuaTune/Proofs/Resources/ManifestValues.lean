import LuaTune.Proofs.Text.LineTables
import LuaTune.Resources

/-!
# Values in manifests

A value is what stands between the first and the last quote of its line, single quotes first. So a
value in double quotes that quotes something itself is cut down to that.
-/

namespace LuaTune.Text

open List

/-! ## Texts of one line -/

theorem linesFrom_of_no_break {line cs : Chars} (h : ∀ c ∈ cs, ¬isLineBreak c) :
    linesFrom line cs = linesFrom (cs.reverse ++ line) [] := by
  fun_induction linesFrom line cs with
  | case1 | case2 => simp_all [linesFrom]
  | case3 line cs ih => exact absurd rfl (h '\r' mem_cons_self)
  | case4 line c cs other breaks ih => exact absurd breaks (h c mem_cons_self)
  | case5 line c cs other inside ih =>
    rw [ih fun d hd => h d (mem_cons_of_mem c hd), reverse_cons, append_assoc, singleton_append]

theorem lines_of_no_break {cs : Chars} (some : cs ≠ []) (h : ∀ c ∈ cs, ¬isLineBreak c) : lines cs = [cs] := by
  rw [lines, linesFrom_of_no_break h]
  simp [linesFrom, some]

/-- A character occurs nowhere, once, or first and last at two places. -/
theorem occurs_cases (q : Char) (cs : Chars) : q ∉ cs ∨ (∃ a c, cs = a ++ q :: c ∧ q ∉ a ∧ q ∉ c) ∨
      ∃ a b c, cs = a ++ q :: (b ++ q :: c) ∧ q ∉ a ∧ q ∉ c := by
  by_cases mem : q ∈ cs
  · obtain ⟨a, rest, rfl, before⟩ := eq_append_cons_of_mem mem
    by_cases again : q ∈ rest
    · obtain ⟨c, b, whole, behind⟩ := eq_append_cons_of_mem (mem_reverse.mpr again)
      rw [reverse_eq_iff, reverse_append, reverse_cons, append_assoc, singleton_append] at whole
      exact .inr (.inr ⟨a, b.reverse, c.reverse, by rw [whole], before, fun mem => behind (mem_reverse.mp mem)⟩)
    · exact .inr (.inl ⟨a, rest, rfl, before, again⟩)
  · exact .inl mem

end LuaTune.Text

namespace LuaTune.Resources

open List
open Text Files

/-! ## Between quotes -/

/-- What stands between the first and the last quote `q` of `v`, if it is something. -/
def IsQuoted (q : Char) (v b : Chars) : Prop :=
  b ≠ [] ∧ ∃ a c, v = a ++ q :: (b ++ q :: c) ∧ q ∉ a ∧ q ∉ c

section

variable {q : Char} {v a b c : Chars}

theorem between?_twice (before : q ∉ a) (behind : q ∉ c) :
    between? q (a ++ q :: (b ++ q :: c)) = if b = [] then none else some b := by
  have whole : a ++ q :: (b ++ q :: c) = (a ++ [q]) ++ b ++ q :: c := by simp
  have last := findLastChar?_append ((a ++ [q]) ++ b) behind
  have cut := slice_of_eq whole.symm
  rw [← whole] at last
  simp only [length_append, length_singleton] at last cut
  simp only [between?, findChar?_append before, last, Option.bind_eq_bind, Option.bind_some, cut]
  cases b with
  | nil => exact if_neg (Nat.lt_irrefl _)
  | cons d b => exact if_pos (by rw [length_cons]; omega)

theorem between?_once (before : q ∉ a) (behind : q ∉ c) : between? q (a ++ q :: c) = none := by
  rw [between?, findChar?_append before, findLastChar?_append a behind]
  exact if_neg (by omega)

theorem between?_not_mem (h : q ∉ v) : between? q v = none := by
  rw [between?, findChar?_eq_none h]
  rfl

theorem between?_around (before : q ∉ a) (behind : q ∉ c) (v : Chars) :
    between? q (a ++ (v ++ c)) = between? q v := by
  rcases occurs_cases q v with none | ⟨x, z, rfl, hx, hz⟩ | ⟨x, y, z, rfl, hx, hz⟩
  · rw [between?_not_mem none, between?_not_mem (by simp [before, none, behind])]
  · have whole : a ++ (x ++ q :: z ++ c) = (a ++ x) ++ q :: (z ++ c) := by simp
    rw [whole, between?_once hx hz, between?_once (by simp [before, hx]) (by simp [behind, hz])]
  · have whole : a ++ (x ++ q :: (y ++ q :: z) ++ c) = (a ++ x) ++ q :: (y ++ q :: (z ++ c)) := by simp
    rw [whole, between?_twice hx hz, between?_twice (by simp [before, hx]) (by simp [behind, hz])]

theorem between?_eq_some_iff : between? q v = some b ↔ IsQuoted q v b := by
  constructor
  · intro h
    rcases occurs_cases q v with none | ⟨x, z, rfl, hx, hz⟩ | ⟨x, y, z, rfl, hx, hz⟩
    · rw [between?_not_mem none] at h
      cases h
    · rw [between?_once hx hz] at h
      cases h
    · rw [between?_twice hx hz] at h
      split at h
      · cases h
      · next some =>
        cases h
        exact ⟨some, x, z, rfl, hx, hz⟩
  · rintro ⟨some, x, z, rfl, hx, hz⟩
    rw [between?_twice hx hz, if_neg some]

theorem IsQuoted.ne (h : IsQuoted q v b) : b ≠ v := by
  obtain ⟨-, a, c, rfl, -⟩ := h
  intro same
  have := congrArg length same
  simp at this
  omega

end

/-! ## Fields -/

inductive Field where
  | name
  | version
  | author
  | description
deriving DecidableEq, Repr

def Field.key : Field → Chars
  | .name => "name".toList
  | .version => "version".toList
  | .author => "author".toList
  | .description => "description".toList

def Info.value? (info : Info) : Field → Option String
  | .name => info.name
  | .version => info.version
  | .author => info.author
  | .description => info.description

def fieldLine (f : Field) (spaces : Nat) (q : Char) (v : Chars) : Chars :=
  (f.key ++ replicate spaces ' ') ++ q :: (v ++ [q])

/-- What is read of a value `v` in quotes `q`. -/
def readBack (q : Char) (v : Chars) : Chars := if q = '"' then (between? '\'' v).getD v else v

variable {f : Field} {spaces : Nat} {q : Char} {v : Chars}

theorem quote_not_mem_front (f : Field) (spaces : Nat) (quote : q = '\'' ∨ q = '"') :
    q ∉ f.key ++ replicate spaces ' ' := by
  have notKey : q ∉ f.key := by rcases quote with rfl | rfl <;> cases f <;> decide
  have notSpace : q ≠ ' ' := by rcases quote with rfl | rfl <;> decide
  simp [notKey, notSpace]

theorem quotedValue_fieldLine (quote : q = '\'' ∨ q = '"') (some : v ≠ []) (unquoted : q ∉ v) :
    quotedValue (fieldLine f spaces q v) = readBack q v := by
  have front := quote_not_mem_front f spaces quote
  have own : between? q (fieldLine f spaces q v) = Option.some v := by
    rw [fieldLine, between?_twice front not_mem_nil, if_neg some]
  rcases quote with rfl | rfl
  · rw [quotedValue, own]
    rfl
  · have single : between? '\'' (fieldLine f spaces '"' v) = between? '\'' v := by
      have before : '\'' ∉ (f.key ++ replicate spaces ' ') ++ ['"'] := by
        rw [mem_append, not_or]
        exact ⟨quote_not_mem_front f spaces (.inl rfl), by decide⟩
      rw [← between?_around before (c := ['"']) (by decide) v, append_assoc, singleton_append]
      rfl
    rw [quotedValue, own, single, readBack, if_pos rfl]
    cases between? '\'' v <;> rfl

theorem strip_fieldLine (quote : q = '\'' ∨ q = '"') : strip (fieldLine f spaces q v) = fieldLine f spaces q v := by
  have first : stripLeft (fieldLine f spaces q v) = fieldLine f spaces q v := by
    cases f <;> exact dropWhile_cons_of_neg (by decide)
  have solid : isBlank q = false := by rcases quote with rfl | rfl <;> rfl
  have last := stripRight_append_cons ((f.key ++ replicate spaces ' ') ++ q :: v) solid []
  rw [strip, first, fieldLine, ← cons_append, ← append_assoc]
  exact last

theorem unbroken_of_all (h : v.all fun c => !isLineBreak c) : ∀ c ∈ v, ¬isLineBreak c := by
  simpa using h

theorem fieldLine_unbroken (quote : q = '\'' ∨ q = '"') (h : ∀ c ∈ v, ¬isLineBreak c) :
    ∀ c ∈ fieldLine f spaces q v, ¬isLineBreak c := by
  have key : ∀ c ∈ f.key, ¬isLineBreak c := unbroken_of_all (by cases f <;> decide)
  have own : ¬isLineBreak q := by rcases quote with rfl | rfl <;> decide
  intro c hc
  simp only [fieldLine, mem_append, mem_cons, mem_replicate, not_mem_nil, or_false] at hc
  rcases hc with (hc | ⟨-, rfl⟩) | rfl | hc | rfl
  · exact key c hc
  · decide
  · exact own
  · exact h c hc
  · exact own

theorem startsWith_fieldLine (f g : Field) : startsWith (fieldLine f spaces q v) g.key = decide (f = g) := by
  cases f <;> cases g <;> rfl

theorem readBack_ne_nil (some : v ≠ []) : readBack q v ≠ [] := by
  unfold readBack
  split
  · cases found : between? '\'' v with
    | none => exact some
    | some b => exact (between?_eq_some_iff.mp found).1
  · exact some

theorem value?_addLine (info : Info) (quote : q = '\'' ∨ q = '"') (some : v ≠ []) (unquoted : q ∉ v) :
    (info.addLine (fieldLine f spaces q v)).value? f = Option.some (String.ofList (readBack q v)) := by
  have filled : (String.ofList (readBack q v)).isEmpty = false := by
    simpa [String.isEmpty_eq_false_iff] using readBack_ne_nil some
  simp only [Info.addLine, strip_fieldLine quote, quotedValue_fieldLine quote some unquoted, filled,
    Bool.false_eq_true, if_false]
  change Info.value? (if startsWith _ Field.name.key then _ else if startsWith _ Field.version.key then _
    else if startsWith _ Field.author.key then _ else if startsWith _ Field.description.key then _ else _) f = _
  simp only [startsWith_fieldLine]
  cases f <;> rfl

/-- A manifest of one line gives the value back, unless it stands in double quotes and has single
quotes with something between them: then that is taken for the value. -/
theorem manifest_value_read {t : Tree} {resource : Path} {content : Content}
    (read : t.read (manifestOf t resource) = .ok content)
    (line : plainText content.toBytes = fieldLine f spaces q v) (quote : q = '\'' ∨ q = '"') (some : v ≠ [])
    (unquoted : q ∉ v) (oneLine : ∀ c ∈ v, ¬isLineBreak c) :
    ((infoOf t resource).value? f = Option.some (String.ofList v) ↔ ¬(q = '"' ∧ ∃ b, IsQuoted '\'' v b)) ∧
    ∀ b, q = '"' → IsQuoted '\'' v b → (infoOf t resource).value? f = Option.some (String.ofList b) := by
  have filled : fieldLine f spaces q v ≠ [] := by
    rw [fieldLine]
    exact append_ne_nil_of_right_ne_nil _ (cons_ne_nil _ _)
  have value : (infoOf t resource).value? f = Option.some (String.ofList (readBack q v)) := by
    rw [infoOf, read]
    change ((lines (plainText content.toBytes)).foldl Info.addLine _).value? f = _
    rw [line, lines_of_no_break filled (fieldLine_unbroken quote oneLine), foldl_cons, foldl_nil]
    exact value?_addLine _ quote some unquoted
  have cut : ∀ b, q = '"' → IsQuoted '\'' v b → readBack q v = b := by
    rintro b rfl quoted
    rw [readBack, if_pos rfl, between?_eq_some_iff.mpr quoted, Option.getD_some]
  rw [value]
  refine ⟨?_, fun b double quoted => by rw [cut b double quoted]⟩
  rw [Option.some_inj, String.ofList_inj]
  constructor
  · rintro same ⟨double, b, quoted⟩
    exact quoted.ne ((cut b double quoted).symm.trans same)
  · intro plain
    unfold readBack
    split
    · next double =>
      have none : between? '\'' v = none := by
        refine Option.eq_none_iff_forall_ne_some.mpr fun b found => ?_
        exact plain ⟨double, b, between?_eq_some_iff.mp found⟩
      rw [none, Option.getD_none]
    · rfl

def manifestAt (bs : Bytes) : Tree :=
  ⟨[(["shop"], .directory), (["shop", "fxmanifest.lua"], .file (.bytes bs))]⟩

theorem apostrophe_read_back :
    (infoOf (manifestAt (bytesOfChars "author \"O'Neil\"".toList)) (.ofString "shop")).value? .author =
      some "O'Neil" := by
  have line : plainText (Content.bytes (bytesOfChars "author \"O'Neil\"".toList)).toBytes =
      fieldLine .author 1 '"' "O'Neil".toList := by decide
  refine (manifest_value_read rfl line (.inr rfl) (by decide) (by decide) (unbroken_of_all (by decide))).1.mpr ?_
  rintro ⟨-, b, quoted⟩
  exact absurd (Option.isSome_of_eq_some (between?_eq_some_iff.mpr quoted)) (by decide)

/-- The name in `name "a 'b' c"` is read as `b`. -/
theorem quoted_part_read :
    (infoOf (manifestAt (bytesOfChars "name \"a 'b' c\"".toList)) (.ofString "shop")).value? .name = some "b" := by
  decide +kernel

end LuaTune.Resources
