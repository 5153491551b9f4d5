import LuaTune.Fix.Repeated
import LuaTune.Proofs.Lua.Nesting
import Mathlib.Data.List.Infix

/-!
# The lines of nested scripts

Where the lines of nested blocks start, what they hold, how they are indented, and which of them
close a block.
-/

namespace LuaTune.Fix

open List hiding splitOn
open Lua Text

variable {c d : Char} {ls : List Line} {cs : Chars}

/-! ## Finding lines -/

theorem splitOn_append {sep : Char} {xs : Chars} (ys : Chars) (h : sep ∉ xs) :
    splitOn sep (xs ++ sep :: ys) = xs :: splitOn sep ys := by
  induction xs with
  | nil => simp [splitOn]
  | cons x xs ih =>
    rw [mem_cons, not_or] at h
    rw [cons_append, splitOn, if_neg (Ne.symm h.1), ih h.2]

def isLineChar (c : Char) : Bool := isNameChar c || [' ', '\t', '=', '(', ')'].contains c

theorem all_code (l : Line) : l.code.all isLineChar := by
  have name (n : Identifier) : n.text.all isLineChar := all_eq_true.mpr fun c h => by
    simp [isLineChar, n.isNameChar_of_mem h]
  cases l with
  | row d r =>
    cases r with
    | call x | use x =>
      show (x.text ++ _).all isLineChar
      rw [all_append, name]
      rfl
    | copy i => rfl
  | opens d | closes d => rfl

theorem isLineChar_of_mem {l : Line} (h : c ∈ l.text) : isLineChar c := by
  rcases mem_append.mp h with h | h
  · have space := all_eq_true.mp l.indent.spaces c h
    simp only [isSpace, Bool.or_eq_true, beq_iff_eq] at space
    rcases space with rfl | rfl <;> decide
  · exact all_eq_true.mp (all_code l) c h

theorem not_mem_text (l : Line) (hd : isLineChar d = false) : d ∉ l.text := fun h => by
  simp [isLineChar_of_mem h] at hd

theorem not_mem_render (hd : isLineChar d = false) (hn : d ≠ '\n') : d ∉ render ls := by
  intro h
  obtain ⟨l, -, h⟩ := mem_flatMap.mp h
  rcases mem_append.mp h with h | h
  · exact not_mem_text l hd h
  · exact hn (mem_singleton.mp h)

theorem newlineLines_render (ls : List Line) : newlineLines (render ls) = ls.map Line.text ++ [[]] := by
  induction ls with
  | nil => rfl
  | cons l ls ih =>
    rw [render_cons, newlineLines, splitOn_append _ (not_mem_text l (by decide)), map_cons,
      cons_append, ← ih]

theorem lineStart_render {n : Nat} (h : n ≤ ls.length) :
    lineStart (ls.map Line.text ++ [[]]) n = (render (ls.take n)).length := by
  induction ls generalizing n with
  | nil =>
    obtain rfl := Nat.le_zero.mp h
    rfl
  | cons l ls ih =>
    cases n with
    | zero => rfl
    | succ n =>
      have others := ih (Nat.le_of_succ_le_succ h)
      rw [lineStart] at others ⊢
      rw [map_cons, cons_append, take_succ_cons, map_cons, sumOf_cons, others,
        take_succ_cons, render_cons, length_append, length_cons]
      omega

section

variable {ls : List Line} {n : Nat} {l : Line} (h : ls[n]? = some l)

include h

theorem lineAt?_render : lineAt? (newlineLines (render ls)) ((n + 1 : Nat) : Int) = some l.text := by
  obtain ⟨inside, rfl⟩ := List.getElem?_eq_some_iff.mp h
  have number : (((n + 1 : Nat) : Int) - 1).toNat = n := by omega
  rw [lineAt?, if_pos (by omega), number, newlineLines_render, getElem?_append_left (by simpa),
    getElem?_map, h]
  rfl

theorem lineSpan_render : lineSpan (render ls) ((n + 1 : Nat) : Int) =
    some ((render (ls.take n)).length, (render (ls.take n)).length + l.text.length + 1) := by
  obtain ⟨inside, -⟩ := List.getElem?_eq_some_iff.mp h
  have number : (((n + 1 : Nat) : Int) - 1).toNat = n := by omega
  have before : ((n + 1 : Nat) : Int) < (newlineLines (render ls)).length := by
    rw [newlineLines_render, length_append, length_map, length_singleton]
    omega
  have start := lineStart_render (Nat.le_of_lt inside)
  rw [← newlineLines_render] at start
  simp only [lineSpan, lineAt?_render h, Option.map_some, number, start, if_pos before]

theorem lineText?_render : lineText? (render ls) ((n + 1 : Nat) : Int) = some (l.text ++ ['\n']) := by
  obtain ⟨inside, rfl⟩ := List.getElem?_eq_some_iff.mp h
  have text : render ls = render (ls.take n) ++ (ls[n].text ++ ['\n'] ++ render (ls.drop (n + 1))) := by
    conv => lhs; rw [← take_append_drop n ls, drop_eq_getElem_cons inside]
    rw [render_append, render_cons]
    simp
  have count : (render (ls.take n)).length + ls[n].text.length + 1 - (render (ls.take n)).length =
      (ls[n].text ++ ['\n']).length := by
    rw [length_append, length_singleton]
    omega
  rw [lineText?, lineSpan_render h, Option.map_some, slice, count]
  conv => lhs; rw [text, drop_left, take_left]

end

/-! ## Indents -/

theorem isBlank_of_isSpace (h : isSpace c) : isBlank c := by
  simp only [isSpace, Bool.or_eq_true, beq_iff_eq] at h
  rcases h with rfl | rfl <;> decide

theorem isBlank_of_mem_indent {l : Line} (h : c ∈ l.indent.chars) : isBlank c :=
  isBlank_of_isSpace (all_eq_true.mp l.indent.spaces c h)

theorem indentOf_text (l : Line) (cs : Chars) : indentOf (l.text ++ cs) = l.indent.chars := by
  obtain ⟨c, ds, code, name⟩ := l.code_starts
  rw [Line.text, append_assoc, indentOf,
    takeWhile_append_of_pos fun c => isBlank_of_mem_indent, code, cons_append,
    takeWhile_cons_of_neg (by simp [isBlank_eq_false name]), append_nil]

theorem stripLeft_text (l : Line) (cs : Chars) : stripLeft (l.text ++ cs) = l.code ++ cs := by
  obtain ⟨c, ds, code, name⟩ := l.code_starts
  rw [Line.text, append_assoc, stripLeft,
    dropWhile_append_of_pos fun c => isBlank_of_mem_indent, code, cons_append,
    dropWhile_cons_of_neg (by simp [isBlank_eq_false name])]

theorem lineIndent_render {n : Nat} {l : Line} (h : ls[n]? = some l) :
    lineIndent (render ls) ((n + 1 : Nat) : Int) = l.indent.chars := by
  have indent := indentOf_text l []
  rw [append_nil] at indent
  rw [lineIndent, lineAt?_render h]
  exact indent

/-! ## Ranges of lines -/

theorem map_lineText?_range' (a m : Nat) (h : a + m ≤ ls.length) :
    (List.range' (a + 1) m).map (fun (n : Nat) => lineText? (render ls) n) =
      ((ls.drop a).take m).map fun l => some (l.text ++ ['\n']) := by
  induction m generalizing a with
  | zero => rfl
  | succ m ih =>
    have first := lineText?_render (getElem?_eq_getElem (show a < ls.length by omega))
    rw [range'_succ, map_cons, first, ih (a + 1) (by omega),
      drop_eq_getElem_cons (show a < ls.length by omega), take_succ_cons, map_cons]

theorem map_lineText?_linesBetween (a : Nat) {b : Nat} (h : b ≤ ls.length) :
    (linesBetween (a + 1) (b + 1)).map (fun (n : Nat) => lineText? (render ls) n) =
      ((ls.drop a).take (b - a)).map fun l => some (l.text ++ ['\n']) := by
  rw [linesBetween, Nat.add_sub_add_right]
  rcases Nat.le_total a b with le | le
  · exact map_lineText?_range' a (b - a) (by omega)
  · rw [Nat.sub_eq_zero_of_le le]
    rfl

/-! ## Lines that close a block -/

theorem wordsFrom_blanks {bs : Chars} (h : ∀ c ∈ bs, isBlank c) (cs : Chars) :
    wordsFrom [] (bs ++ cs) = wordsFrom [] cs := by
  induction bs with
  | nil => rfl
  | cons b bs ih =>
    rw [cons_append, wordsFrom, if_pos (h b mem_cons_self), isEmpty_nil, if_pos rfl,
      ih fun c hc => h c (mem_cons_of_mem b hc)]

theorem wordsFrom_word {w : Chars} (h : w.any isBlank = false) {b : Char} (hb : isBlank b)
    {run : Chars} (hr : run ++ w ≠ []) (cs : Chars) :
    wordsFrom run (w ++ b :: cs) = (run.reverse ++ w) :: wordsFrom [] cs := by
  induction w generalizing run with
  | nil =>
    have some : run.isEmpty = false := by simpa using hr
    rw [nil_append, wordsFrom, if_pos hb, some, if_neg Bool.false_ne_true, append_nil]
  | cons c w ih =>
    rw [any_cons, Bool.or_eq_false_iff] at h
    rw [cons_append, wordsFrom, h.1, if_neg Bool.false_ne_true, ih h.2 (by simp),
      reverse_cons, append_assoc, singleton_append]

def firstWord : Line → Chars
  | .row _ (.call x) | .row _ (.use x) => x.text
  | .row _ (.copy _) => localWord
  | .opens _ => ['d', 'o']
  | .closes _ => ['e', 'n', 'd']

theorem words_text (l : Line) : ∃ ws, words (l.text ++ ['\n']) = firstWord l :: ws := by
  have name (n : Identifier) : n.text.any isBlank = false := any_eq_false.mpr fun c hc => by
    simp [isBlank_eq_false (n.isNameChar_of_mem hc)]
  have first {w : Chars} (hw : w.any isBlank = false) (nonempty : w ≠ []) {b : Char}
      (hb : isBlank b) {cs : Chars} (code : l.code ++ ['\n'] = w ++ b :: cs) :
      ∃ ws, words (l.text ++ ['\n']) = w :: ws := by
    refine ⟨wordsFrom [] cs, ?_⟩
    rw [words, Line.text, append_assoc, code, wordsFrom_blanks fun c => isBlank_of_mem_indent]
    exact wordsFrom_word hw hb (show [] ++ w ≠ [] from nonempty) cs
  cases l with
  | row d r =>
    cases r with
    | call x | use x =>
      exact first (name x.toIdentifier) (cons_ne_nil _ _) (b := ' ') (by decide) (append_assoc _ _ _)
    | copy i => exact first rfl (cons_ne_nil _ _) (b := ' ') (by decide) rfl
  | opens d | closes d => exact first rfl (cons_ne_nil _ _) (b := '\n') (by decide) rfl

theorem text_ne_of_ofText? (n : Identifier) {w : Chars} (h : (Keyword.ofText? w).isSome) :
    n.text ≠ w := by
  rintro rfl
  have free : Keyword.ofText? n.text = none := n.free
  simp [free] at h

theorem closesBlock_text (l : Line) (depth : Nat) :
    closesBlock (4 * depth) (l.text ++ ['\n']) = closesAt depth l := by
  let closes (w : Chars) : Bool := ["else", "elseif", "end"].any fun k => k.toList == w
  have seen : closesBlock (4 * depth) (l.text ++ ['\n']) =
      (decide (l.indent.chars.length ≤ 4 * depth) && closes (firstWord l)) := by
    obtain ⟨ws, words⟩ := words_text l
    rw [closesBlock, indentOf_text, words]
  have name (n : Identifier) : closes n.text = false := by
    simp only [closes, any_cons, any_nil, Bool.or_false, Bool.or_eq_false_iff, beq_eq_false_iff_ne]
    exact ⟨(text_ne_of_ofText? n (by decide)).symm, (text_ne_of_ofText? n (by decide)).symm,
      (text_ne_of_ofText? n (by decide)).symm⟩
  have other : closes localWord = false ∧ closes ['d', 'o'] = false := by decide
  have ends : closes ['e', 'n', 'd'] = true := by decide
  rw [seen]
  cases l with
  | row d r =>
    cases r with
    | call x | use x => rw [firstWord, name, Bool.and_false, closesAt]
    | copy i => rw [firstWord, other.1, Bool.and_false, closesAt]
  | opens d => rw [firstWord, other.2, Bool.and_false, closesAt]
  | closes d =>
    rw [firstWord, ends, Bool.and_true, Line.indent, Indent.ofDepth, length_replicate, closesAt]
    exact decide_eq_decide.mpr (by omega)

theorem blockEnds_render (depth a : Nat) {b : Nat} (h : b ≤ ls.length) :
    blockEnds (render ls) (4 * depth) (a + 1) (b + 1) =
      ((ls.drop a).take (b - a)).any (closesAt depth) := by
  have seen : blockEnds (render ls) (4 * depth) (a + 1) (b + 1) =
      ((linesBetween (a + 1) (b + 1)).map fun (n : Nat) => lineText? (render ls) n).any
        (Option.any (closesBlock (4 * depth))) := by
    rw [any_map, blockEnds]
    refine congrArg _ (funext fun n => ?_)
    rw [Function.comp_apply]
    cases lineText? (render ls) n <;> rfl
  rw [seen, map_lineText?_linesBetween a h, any_map]
  exact congrArg _ (funext fun l => closesBlock_text l depth)

/-! ## Comments, brackets and loops -/

theorem find?_eq_none {p : Chars} (h : c ∉ cs) : find? (c :: p) cs = none := by
  have := find?_append_of_not_mem (p := p) [] h
  rwa [append_nil] at this

theorem findLast?_eq_none {p : Chars} (h : c ∉ cs) : findLast? (c :: p) cs = none := by
  induction cs with
  | nil => rfl
  | cons d cs ih =>
    rw [mem_cons, not_or] at h
    rw [findLast?, ih h.2]
    simp [startsWith, stripPrefix?, h.1]

theorem endsInComment_eq_false (h : '-' ∉ cs) : endsInComment cs = false := by
  have none : findLast? "--[[".toList cs = none := findLast?_eq_none h
  rw [endsInComment, none]

theorem uncommented_eq_self (h : '-' ∉ cs) : uncommented cs = cs := by
  rw [uncommented, find?_eq_none h]

theorem unquoted_eq_self (double : '"' ∉ cs) (single : '\'' ∉ cs) (previous : Option Char) :
    unquoted previous none cs = cs := by
  induction cs generalizing previous with
  | nil => rfl
  | cons c cs ih =>
    rw [mem_cons, not_or] at double single
    have plain : ¬(c = '"' ∨ c = '\'') := by
      rintro (same | same)
      · exact double.1 same.symm
      · exact single.1 same.symm
    rw [unquoted, if_neg plain, ih double.2 single.2]

theorem excess_eq_zero {opening closing : Char} {lines : List Chars}
    (h : ∀ l ∈ lines, countChar opening (unquoted none none (uncommented l)) =
      countChar closing (unquoted none none (uncommented l))) :
    excess opening closing lines = 0 := by
  induction lines with
  | nil => rfl
  | cons l lines ih =>
    have first := h l mem_cons_self
    have others := ih fun l' hl => h l' (mem_cons_of_mem l hl)
    rw [excess] at others ⊢
    simp only [foldl_cons, first, Int.sub_self, Int.add_zero]
    exact others

theorem not_mem_line (l : Line) (hd : isLineChar d = false) (hn : d ≠ '\n') : d ∉ l.text ++ ['\n'] := by
  simp [not_mem_text l hd, hn]

theorem unquoted_uncommented (l : Line) :
    unquoted none none (uncommented (l.text ++ ['\n'])) = l.text ++ ['\n'] := by
  rw [uncommented_eq_self (not_mem_line l (by decide) (by decide)),
    unquoted_eq_self (not_mem_line l (by decide) (by decide)) (not_mem_line l (by decide) (by decide))]

theorem countChar_text (l : Line) :
    countChar '\x7b' (l.text ++ ['\n']) = countChar '\x7d' (l.text ++ ['\n']) ∧
      countChar '(' (l.text ++ ['\n']) = countChar ')' (l.text ++ ['\n']) := by
  have none {d : Char} (hd : isLineChar d = false) (hn : d ≠ '\n') :
      countChar d (l.text ++ ['\n']) = 0 := count_eq_zero_of_not_mem (not_mem_line l hd hn)
  refine ⟨(none (by decide) (by decide)).trans (none (by decide) (by decide)).symm, ?_⟩
  have indent {d : Char} (hd : isSpace d = false) : l.indent.chars.count d = 0 :=
    count_eq_zero_of_not_mem fun h => by
      simp [all_eq_true.mp l.indent.spaces d h] at hd
  have name (n : Identifier) {d : Char} (hd : isNameChar d = false) : n.text.count d = 0 :=
    count_eq_zero_of_not_mem (n.not_mem hd)
  have code : l.code.count '(' = l.code.count ')' := by
    cases l with
    | row d r =>
      cases r with
      | call x | use x =>
        show (x.text ++ _).count '(' = (x.text ++ _).count ')'
        rw [count_append, count_append, name _ (by decide), name _ (by decide)]
        rfl
      | copy i => rfl
    | opens d | closes d => rfl
  simp only [countChar, Line.text, count_append, indent (show isSpace '(' = false by decide),
    indent (show isSpace ')' = false by decide), code]
  rfl

theorem excess_lines (ls : List Line) : excess '\x7b' '\x7d' (ls.map fun l => l.text ++ ['\n']) = 0 ∧
      excess '(' ')' (ls.map fun l => l.text ++ ['\n']) = 0 := by
  have balanced {opening closing : Char} (h : ∀ l : Line,
      countChar opening (l.text ++ ['\n']) = countChar closing (l.text ++ ['\n'])) :
      excess opening closing (ls.map fun l => l.text ++ ['\n']) = 0 := by
    refine excess_eq_zero fun t ht => ?_
    obtain ⟨l, -, rfl⟩ := mem_map.mp ht
    rw [unquoted_uncommented, h]
  exact ⟨balanced fun l => (countChar_text l).1, balanced fun l => (countChar_text l).2⟩

theorem startsLoop_text {l : Line} (h : l.code = ['d', 'o'] ∨ l.code = ['e', 'n', 'd']) :
    startsLoop (l.text ++ ['\n']) = false := by
  rw [startsLoop, uncommented_eq_self (not_mem_line l (by decide) (by decide)), strip, stripLeft_text]
  rcases h with h | h <;> rw [h] <;> decide

/-! ## Declarations -/

theorem anyTail_eq_false {p : Option Char → Chars → Bool}
    (h : ∀ t, t <:+ cs → ∀ b, p b t = false) (b : Option Char) : anyTail p b cs = false := by
  induction cs generalizing b with
  | nil => exact h [] (suffix_refl _) b
  | cons c cs ih =>
    rw [anyTail, h _ (suffix_refl _) b, Bool.false_or]
    exact ih (fun t ht => h t (ht.trans (suffix_cons c cs))) (some c)

theorem suffix_append_cases {t xs ys : Chars} (h : t <:+ xs ++ ys) :
    t <:+ ys ∨ ∃ u, u ≠ [] ∧ u <:+ xs ∧ t = u ++ ys := by
  obtain ⟨s, hs⟩ := h
  rcases append_eq_append_iff.mp hs with ⟨u, rfl, rfl⟩ | ⟨u, rfl, rfl⟩
  · cases u with
    | nil => exact .inl (suffix_refl _)
    | cons c u => exact .inr ⟨c :: u, cons_ne_nil _ _, suffix_append _ _, rfl⟩
  · exact .inl (suffix_append _ _)

def declared? (t : Chars) : Option Chars := do
  let rest ← stripPrefix? localWord t
  let rest ← someBlanks? rest
  let rest ← stripPrefix? resultName.text rest
  stripPrefix? ['='] (stripLeft rest)

theorem declared?_blank {b : Char} (hb : isSpace b) (t : Chars) : declared? (b :: t) = none := by
  have other : 'l' ≠ b := by
    rintro rfl
    cases hb
  have none : stripPrefix? localWord (b :: t) = none := if_neg other
  rw [declared?, none]
  rfl

def afterTarget : Chars := ' ' :: '=' :: ' ' :: (nativeCall ++ ['\n'])

/-- A target and what comes after it are no declaration, even if `local` stands at its end. -/
theorem declared?_target {u : Chars} (hu : u.all isNameChar) :
    declared? (u ++ afterTarget) = none := by
  have found {behind : Chars} (strip : stripPrefix? localWord (u ++ afterTarget) = some behind)
      (h : (someBlanks? behind).bind (fun rest => stripPrefix? resultName.text rest) = none) :
      declared? (u ++ afterTarget) = none := by
    rw [declared?, strip]
    simp only [bind, Option.bind_some]
    rw [← Option.bind_assoc, h]
    rfl
  cases strip : stripPrefix? localWord (u ++ afterTarget) with
  | none =>
    rw [declared?, strip]
    rfl
  | some behind =>
    rcases append_eq_append_iff.mp (stripPrefix?_eq_some.mp strip) with
      ⟨a, word, tail⟩ | ⟨v, rfl, rfl⟩
    · cases a with
      | nil =>
        rw [nil_append] at tail
        exact found strip (by rw [← tail]; rfl)
      | cons c a =>
        -- the target would end inside of `local`
        obtain ⟨rfl, -⟩ := List.cons.inj tail
        have blank : ' ' ∈ localWord := by simp [word]
        exact absurd blank (by decide)
    · cases v with
      | nil => exact found strip rfl
      | cons c v =>
        have name : isNameChar c := by
          rw [all_append, all_cons] at hu
          simp only [Bool.and_eq_true] at hu
          exact hu.2.1
        refine found strip ?_
        rw [cons_append, someBlanks?, head?_cons, Option.any_some, isBlank_eq_false name]
        rfl

theorem isDeclaredIn_call {copy : ResultCopy} (hc : copy.name = resultName.text) (d : Nat) (x : Target) :
    copy.isDeclaredIn ((Line.row d (.call x)).text ++ ['\n']) = false := by
  have text : (Line.row d (.call x)).text ++ ['\n'] =
      (Indent.ofDepth d).chars ++ (x.text ++ afterTarget) := by
    simp [Line.text, Line.indent, Line.code, Row.code, afterTarget]
  have nowhere : ∀ t, t <:+ (Line.row d (.call x)).text ++ ['\n'] → declared? t = none := by
    intro t ht
    rw [text] at ht
    rcases suffix_append_cases ht with ht | ⟨u, nonempty, hu, rfl⟩
    · rcases suffix_append_cases ht with ht | ⟨u, -, hu, rfl⟩
      · have tails : (afterTarget.tails.all fun t => (declared? t).isNone) = true := by decide
        exact Option.isNone_iff_eq_none.mp (all_eq_true.mp tails t ((mem_tails t _).mpr ht))
      · exact declared?_target (all_eq_true.mpr fun c hc => x.isNameChar_of_mem (hu.subset hc))
    · obtain ⟨b, bs, rfl⟩ := exists_cons_of_ne_nil nonempty
      exact declared?_blank (all_eq_true.mp (Indent.ofDepth d).spaces b (hu.subset mem_cons_self)) _
  have silent : declares copy.name ((Line.row d (.call x)).text ++ ['\n']) = false := by
    refine anyTail_eq_false (fun t ht b => ?_) none
    have here : (do
        let rest ← stripPrefix? "local".toList t
        let rest ← someBlanks? rest
        let rest ← stripPrefix? copy.name rest
        stripPrefix? ['='] (stripLeft rest)) = declared? t := by
      rw [hc]
      rfl
    rw [here, nowhere t ht]
    exact Bool.and_false _
  rw [ResultCopy.isDeclaredIn, silent, Bool.false_and]

end LuaTune.Fix
