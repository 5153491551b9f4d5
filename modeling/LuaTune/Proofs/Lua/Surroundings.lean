import LuaTune.Proofs.Lua.Pieces

/-!
# Lexemes in front of another text

A text that is cut into lexemes in front of one text is cut the same way in front of another one, if
the two start alike enough. What looks ahead furthest is a bracket, which may open a long string
that ends anywhere.
-/

namespace LuaTune.Lua

open List hiding find?
open Text

variable {p mark : Char → Bool} {cs t u u' xs v v' : Chars} {c a x b : Char} {s : Symbol}
    {text : String}

/-! ## Runs of characters -/

def StopsAlike (u u' : Chars) (p : Char → Bool) : Prop :=
  (∀ a ∈ u.head?, p a = false) → ∀ a ∈ u'.head?, p a = false

theorem runLength_eq_zero_iff : runLength p cs = 0 ↔ ∀ a ∈ cs.head?, p a = false := by
  cases cs with
  | nil => simp [runLength]
  | cons c cs =>
    rw [runLength_cons]
    cases h : p c <;> simp [h]

theorem runLength_stays (alike : StopsAlike u u' p)
    (h : runLength p (t ++ u) ≤ t.length) : runLength p (t ++ u') = runLength p (t ++ u) := by
  induction t with
  | nil =>
    have none : runLength p u = 0 := Nat.le_zero.mp h
    rw [nil_append, nil_append, none]
    exact runLength_eq_zero_iff.mpr (alike (runLength_eq_zero_iff.mp none))
  | cons c t ih =>
    rw [cons_append, runLength_cons] at h
    rw [cons_append, cons_append, runLength_cons, runLength_cons]
    split
    · next yes =>
      rw [if_pos yes] at h
      rw [ih (Nat.le_of_succ_le_succ h)]
    · rfl

/-! ## Numerals -/

/-- The second text goes on with no numeral that the first one does not go on with. -/
structure Quiet (u u' : Chars) : Prop where
  digit : StopsAlike u u' Char.isDigit
  hexDigit : StopsAlike u u' isHexDigit
  point : StopsAlike u u' (· == '.')
  exponent (mark : Char → Bool) (letter : ∀ a, mark a → isNameChar a) :
    exponentLength mark u = 0 → exponentLength mark u' = 0
  hexMark : isHexMark u = false → isHexMark u' = false

theorem fractionLength_stays {digit : Char → Bool}
    (digits : StopsAlike u u' digit) (point : StopsAlike u u' (· == '.'))
    (h : fractionLength digit (t ++ u) ≤ t.length) :
    fractionLength digit (t ++ u') = fractionLength digit (t ++ u) := by
  cases t with
  | nil =>
    have none {cs : Chars} (h : ∀ a ∈ cs.head?, (a == '.') = false) :
        fractionLength digit cs = 0 := by
      unfold fractionLength
      split
      · cases h '.' rfl
      · rfl
    have stops : ∀ a ∈ u.head?, (a == '.') = false := by
      intro a ha
      refine Bool.eq_false_iff.mpr fun same => ?_
      cases u with
      | nil => cases ha
      | cons b u =>
        cases ha
        rw [beq_iff_eq.mp same] at h
        simp [fractionLength] at h
    rw [nil_append, nil_append, none stops, none (point stops)]
  | cons c t =>
    by_cases same : c = '.'
    · subst same
      simp only [cons_append, fractionLength, length_cons] at h ⊢
      rw [runLength_stays digits (by omega)]
    · have none (u : Chars) : fractionLength digit (c :: t ++ u) = 0 := by
        unfold fractionLength
        split
        · next found =>
          cases found
          exact absurd rfl same
        · rfl
      rw [none, none]

theorem exponentLength_stays (digits : StopsAlike u u' Char.isDigit)
    (none : exponentLength mark u = 0 → exponentLength mark u' = 0)
    (h : exponentLength mark (t ++ u) = t.length) : exponentLength mark (t ++ u') = t.length := by
  cases t with
  | nil => exact none h
  | cons c t =>
    rw [cons_append, exponentLength_cons, length_cons] at h ⊢
    split at h
    · next found =>
      have some : 0 < _ := of_decide_eq_true (Bool.and_eq_true_iff.mp found).2
      cases t with
      | nil =>
        rw [length_nil] at h
        omega
      | cons d t =>
        have sign (u : Chars) : signLength (d :: t ++ u) = signLength [d] := by
          rw [cons_append]
          unfold signLength
          split <;> simp_all
        have inside : signLength [d] ≤ (d :: t).length :=
          Nat.le_trans (signLength_solid _).inside (Nat.succ_le_succ (Nat.zero_le _))
        rw [sign, drop_append_of_le_length inside] at h found ⊢
        rw [runLength_stays digits (by rw [length_drop]; omega), if_pos found]
        exact h
    · cases h

theorem numberTail_stays {digit : Char → Bool}
    (digits : StopsAlike u u' digit) (quiet : Quiet u u') (letter : ∀ a, mark a → isNameChar a)
    (h : numberTail digit mark (t ++ u) = t.length) : numberTail digit mark (t ++ u') = t.length := by
  rw [numberTail_eq] at h ⊢
  dsimp only at h ⊢
  have run := runLength_stays digits (t := t) (by omega)
  rw [run]
  generalize runLength digit (t ++ u) = w at h
  have inside : w ≤ t.length := by omega
  rw [drop_append_of_le_length inside] at h ⊢
  have fraction := fractionLength_stays (t := t.drop w) digits quiet.point (by rw [length_drop]; omega)
  rw [fraction]
  generalize fractionLength digit (t.drop w ++ u) = f at h
  rw [drop_append_of_le_length (by omega)] at h ⊢
  have exponent := exponentLength_stays (t := t.drop (w + f)) quiet.digit (quiet.exponent mark letter)
    (by rw [length_drop]; omega)
  rw [exponent, length_drop]
  omega

theorem exponentLength_eq_zero (h : mark c = false) (cs : Chars) :
    exponentLength mark (c :: cs) = 0 := by
  simp [exponentLength_cons, h]

theorem numeralLength_stays (quiet : Quiet u u')
    (h : numeralLength (c :: (t ++ u)) = t.length + 1) : numeralLength (c :: (t ++ u')) = t.length + 1 := by
  have decimal {t : Chars} (h : decimalLength (t ++ u) = t.length) :
      decimalLength (t ++ u') = t.length :=
    numberTail_stays quiet.digit quiet (fun _ h => isNameChar_of_mark h) h
  have positive : 0 < numeralLength (c :: (t ++ u)) := by omega
  rcases numeral_cases positive with ⟨rfl, mark⟩ | ⟨digit, noMark⟩ | ⟨rfl, d, rest, same, digit⟩
  · -- the mark and a digit after it are in the numeral
    match t with
    | [] =>
      exfalso
      match u, mark with
      | x :: d :: u, mark =>
        rw [nil_append, numeralLength_of_hexMark mark, length_nil] at h
        omega
    | [x] =>
      exfalso
      cases u with
      | nil => cases mark
      | cons d u =>
        have digit : isHexDigit d := (Bool.and_eq_true_iff.mp mark).2
        have long := runLength_pos digit u
        have all : runLength isHexDigit (d :: u) ≤ hexLength (d :: u) := runLength_le_numberTail _ _ _
        rw [singleton_append, numeralLength_of_hexMark mark, length_singleton] at h
        omega
    | x :: d :: t =>
      simp only [cons_append] at mark h ⊢
      rw [numeralLength_of_hexMark mark] at h
      have marked : isHexMark (x :: d :: (t ++ u')) := mark
      rw [numeralLength_of_hexMark marked]
      have tail : hexLength (d :: t ++ u) = (d :: t).length := by
        simp only [cons_append, length_cons] at h ⊢
        omega
      have stays := numberTail_stays quiet.hexDigit quiet (fun _ h => isNameChar_of_mark h) tail
      simp only [cons_append, length_cons] at stays ⊢
      exact congrArg (2 + ·) stays |>.trans (by omega)
  · rw [numeralLength_of_digit digit noMark] at h
    have whole : decimalLength (c :: t ++ u') = (c :: t).length := decimal (t := c :: t) h
    rw [numeralLength_of_digit digit ?_]
    · exact whole
    · rintro rfl
      match t with
      | [] =>
        exact quiet.hexMark (noMark rfl)
      | [x] =>
        refine Bool.eq_false_iff.mpr fun mark => ?_
        have letter : (x == 'x' || x == 'X') = true := by
          cases u' with
          | nil => cases mark
          | cons d u' => exact (Bool.and_eq_true_iff.mp mark).1
        -- a numeral in base ten ends before the letter
        have short : decimalLength ('0' :: x :: u) = 1 := by
          have none {x : Char} (h : (x == 'e' || x == 'E') = false) :
              exponentLength (fun c => c == 'e' || c == 'E') (x :: u) = 0 := exponentLength_eq_zero h u
          rcases Bool.or_eq_true_iff.mp letter with h | h <;> rw [beq_iff_eq.mp h]
          · exact congrArg (1 + ·) (none (x := 'x') rfl)
          · exact congrArg (1 + ·) (none (x := 'X') rfl)
        have two : decimalLength ('0' :: x :: u) = 2 := h
        omega
      | x :: d :: t => exact noMark rfl
  · match t with
    | [] =>
      exfalso
      rw [nil_append] at same
      subst same
      have long := runLength_pos digit rest
      have all := pointed_le_decimalLength d rest
      rw [nil_append, numeralLength_of_point digit, length_nil] at h
      omega
    | d' :: t =>
      cases same
      rw [cons_append, numeralLength_of_point digit] at h ⊢
      exact decimal (t := '.' :: d :: t) h

/-! ## Strings and comments -/

theorem quotedLength_stays {q : Char} {s : QuoteState} {closed : Bool} (u' : Chars)
    (h : quotedLength q s (t ++ u) = (closed, t.length)) (ends : closed = false → u ≠ []) :
    quotedLength q s (t ++ u') = (closed, t.length) := by
  induction t generalizing s with
  | nil =>
    exfalso
    cases u with
    | nil =>
      have broken : closed = false := by cases s <;> exact (congrArg Prod.fst h).symm
      exact ends broken rfl
    | cons c u =>
      -- a string takes at least one character
      rcases quotedLength_step q s c with ⟨b, -, last⟩ | ⟨s', more⟩
      · cases (last u).symm.trans h
      · have length := congrArg Prod.snd ((more u).symm.trans h)
        cases length
  | cons c t ih =>
    rw [cons_append] at h ⊢
    rcases quotedLength_step q s c with ⟨b, -, last⟩ | ⟨s', more⟩
    · rw [last] at h ⊢
      exact h
    · rw [more] at h ⊢
      have inner : quotedLength q s' (t ++ u) = (closed, t.length) :=
        Prod.ext (Prod.ext_iff.mp h).1 (Nat.succ.inj (Prod.ext_iff.mp h).2)
      rw [ih inner]
      rfl

theorem find?_stays {p : Chars} (u' : Chars) (h : find? p (xs ++ p ++ u) = some xs.length) :
    find? p (xs ++ p ++ u') = some xs.length := by
  induction xs with
  | nil =>
    cases p with
    | nil => cases u' <;> rfl
    | cons c p =>
      rw [nil_append, cons_append, find?, if_pos]
      · rfl
      · exact startsWith_iff.mpr (prefix_append _ _)
  | cons c xs ih =>
    simp only [cons_append, find?] at h ⊢
    split at h
    · cases h
    · next no =>
      obtain ⟨m, found, same⟩ := Option.map_eq_some_iff.mp h
      cases same
      rw [if_neg, ih found]
      · rfl
      · -- an occurrence before this one ends in it
        intro starts
        refine no (startsWith_iff.mpr ?_)
        have inside : p <+: c :: (xs ++ p) := by
          refine prefix_of_prefix_length_le (startsWith_iff.mp starts) ⟨u', rfl⟩ ?_
          simp only [length_cons, length_append]
          omega
        exact inside.trans ⟨u, rfl⟩

theorem runLength_replicate (level : Nat) (body : Chars) :
    runLength (· == '=') (List.replicate level '=' ++ '[' :: body) = level := by
  induction level with
  | zero => rfl
  | succ level ih =>
    rw [replicate_succ, cons_append, runLength_cons, ih]
    rfl

theorem longBracket?_of_open (level : Nat) (body : Chars) :
    longBracket? ('[' :: List.replicate level '=' ++ '[' :: body) =
      (find? (closer level) body).map (· + 2 * (level + 2)) := by
  have run := runLength_replicate level body
  have rest : (List.replicate level '=' ++ '[' :: body).drop level = '[' :: body :=
    drop_left' length_replicate
  simp only [cons_append, longBracket?, run, rest]
  rfl

theorem longBracket?_stays (u' : Chars) (h : longBracket? (t ++ u) = some t.length) :
    longBracket? (t ++ u') = some t.length := by
  obtain ⟨level, body, rfl, first⟩ := longBracket?_whole h
  have shape : '[' :: List.replicate level '=' ++ '[' :: (body ++ closer level) ++ u' =
      '[' :: List.replicate level '=' ++ '[' :: (body ++ closer level ++ u') := by simp
  rw [shape, longBracket?_of_open, find?_stays u' first]
  simp only [Option.map_some, closer, length_cons, length_append, length_replicate, length_nil]
  exact congrArg some (by omega)

/-! ## Two texts that start alike -/

def isStart (c : Char) : Bool := isNameStart c || c == '#' || c == '('

def GoOnAlike (v v' : Chars) : Prop :=
  ∃ b w w', v = b :: w ∧ v' = b :: w' ∧
    (b = '+' ∨ b = '-' → w.head?.any Char.isDigit = w'.head?.any Char.isDigit)

/-- What stands in front of the first text is read the same way in front of the second one: they
start with the same characters, as far as a numeral looks, or they start with the call and with what
takes its place. -/
inductive Near : Chars → Chars → Prop where
  | same {a : Char} {v v' : Chars} (look : isNameChar a → GoOnAlike v v') : Near (a :: v) (a :: v')
  | start {a b : Char} {v v' : Chars} (ha : isNameStart a) (hb : isStart b) : Near (a :: v) (b :: v')

theorem Near.stopsAlike (h : Near u u')
    (hp : (∀ a, isNameStart a → p a) ∨ ∀ b, isStart b → p b = false) : StopsAlike u u' p := by
  intro stops a ha
  cases h with
  | same => exact stops a ha
  | @start c d v v' hc hd =>
    cases ha
    rcases hp with always | never
    · cases (always c hc).symm.trans (stops c rfl)
    · exact never _ hd

theorem line_goesOn (h : isNameStart a) : (!isEndOfLine a) = true := by
  have blank := isBlank_eq_false (isNameChar_of_isNameStart h)
  refine Bool.not_eq_eq_eq_not.mpr (Bool.eq_false_iff.mpr fun line => ?_)
  rcases Bool.or_eq_true_iff.mp line with same | same <;> rw [beq_iff_eq.mp same] at blank <;> cases blank

theorem isStart_ne (h : isStart b) (hc : isStart c = false) : (b == c) = false := by
  refine Bool.eq_false_iff.mpr fun same => ?_
  rw [beq_iff_eq.mp same, hc] at h
  cases h

theorem commentLength_of_ne (h : c ≠ '[') (cs : Chars) :
    commentLength (c :: cs) = lineLength (c :: cs) := by
  unfold commentLength
  split
  · next same => cases same; exact absurd rfl h
  · rfl

def bracketTail (cs : Chars) : Nat :=
  let level := runLength (· == '=') cs
  if (cs.drop level).head? = some '[' then level else level + lineLength (cs.drop level)

theorem commentLength_of_none (h : longBracket? ('[' :: cs) = none) :
    commentLength ('[' :: cs) = 1 + bracketTail cs := by
  simp only [commentLength, h, bracketTail]
  split
  · next found => rw [found, head?_cons, if_pos rfl]
  · next other =>
    rw [if_neg, Nat.add_assoc]
    intro first
    cases rest : cs.drop (runLength (· == '=') cs) with
    | nil => rw [rest] at first; cases first
    | cons d ds =>
      rw [rest] at first
      cases first
      exact other ds rest

theorem bracketTail_stays (near : Near u u') (h : bracketTail (t ++ u) = t.length) :
    bracketTail (t ++ u') = t.length := by
  have line : StopsAlike u u' (!isEndOfLine ·) := near.stopsAlike (.inl fun _ => line_goesOn)
  have equal : StopsAlike u u' (· == '=') := near.stopsAlike (.inr fun b hb => isStart_ne hb (by decide))
  unfold bracketTail at h ⊢
  dsimp only at h ⊢
  have inside : runLength (· == '=') (t ++ u) ≤ t.length := by
    split at h
    · exact Nat.le_of_eq h
    · exact h ▸ Nat.le_add_right _ _
  rw [runLength_stays equal inside]
  generalize runLength (· == '=') (t ++ u) = level at h inside
  rw [drop_append_of_le_length inside] at h ⊢
  cases rest : t.drop level with
  | nil =>
    rw [rest, nil_append] at h
    rw [nil_append]
    have all : level = t.length := Nat.le_antisymm inside (drop_eq_nil_iff.mp rest)
    cases near with
    | @same a v v' look =>
      rw [head?_cons] at h ⊢
      split at h
      · next bracket => rw [if_pos bracket, all]
      · next other =>
        have none : lineLength (a :: v) = 0 := by omega
        rw [if_neg other, all]
        have none' : lineLength (a :: v') = 0 := runLength_eq_zero_iff.mpr (runLength_eq_zero_iff.mp none :)
        rw [none', Nat.add_zero]
    | @start a b v v' ha hb =>
      -- a line goes on with a name
      exfalso
      have long : 0 < lineLength (a :: v) := runLength_pos (line_goesOn ha) v
      split at h
      · next bracket =>
        cases bracket
        cases ha
      · omega
  | cons d rest' =>
    have shorter : level + (d :: rest').length = t.length := by
      rw [← rest, length_drop]
      omega
    rw [rest, cons_append, head?_cons] at h
    rw [cons_append, head?_cons]
    split at h
    · simp only [length_cons] at shorter
      omega
    · next other =>
      rw [if_neg other]
      have tail : lineLength (d :: rest' ++ u) = (d :: rest').length := by
        rw [cons_append]
        omega
      have stays := runLength_stays line (t := d :: rest') (Nat.le_of_eq tail)
      rw [← shorter]
      exact congrArg (level + ·) (stays.trans tail)

theorem commentLength_pos (cs : Chars) : 0 < commentLength ('[' :: cs) := by
  cases found : longBracket? ('[' :: cs) with
  | some n =>
    obtain ⟨level, body, after, -, -, rfl⟩ := longBracket?_eq_some found
    simp only [commentLength, found]
    omega
  | none =>
    rw [commentLength_of_none found]
    omega

theorem commentLength_stays (near : Near u u')
    (opens : longBracket? (t ++ u) = none → longBracket? (t ++ u') = none)
    (h : commentLength (t ++ u) = t.length) : commentLength (t ++ u') = t.length := by
  have line : StopsAlike u u' (!isEndOfLine ·) := near.stopsAlike (.inl fun _ => line_goesOn)
  cases t with
  | nil =>
    have stops : ∀ a ∈ u.head?, a ≠ '[' ∧ (!isEndOfLine a) = false := by
      intro a ha
      cases u with
      | nil => cases ha
      | cons c u =>
        cases ha
        have other : a ≠ '[' := by
          rintro rfl
          exact Nat.ne_of_gt (commentLength_pos u) h
        rw [nil_append, commentLength_of_ne other] at h
        exact ⟨other, runLength_eq_zero_iff.mp h a rfl⟩
    cases near with
    | @same a v v' look =>
      obtain ⟨other, ends⟩ := stops a rfl
      rw [nil_append, commentLength_of_ne other]
      exact runLength_eq_zero_iff.mpr fun b hb => by
        cases hb
        exact ends
    | @start a b v v' ha hb =>
      obtain ⟨-, ends⟩ := stops a rfl
      cases (line_goesOn ha).symm.trans ends
  | cons c t =>
    by_cases bracket : c = '['
    · subst bracket
      rw [cons_append] at h ⊢
      cases found : longBracket? ('[' :: (t ++ u)) with
      | some n =>
        have length : commentLength ('[' :: (t ++ u)) = n := by simp only [commentLength, found]
        have whole : longBracket? ('[' :: t ++ u) = some ('[' :: t).length :=
          found.trans (congrArg some (length.symm.trans h))
        have stays := longBracket?_stays u' whole
        rw [cons_append] at stays
        simp only [commentLength, stays]
      | none =>
        rw [commentLength_of_none found] at h
        have none : longBracket? ('[' :: (t ++ u')) = none := opens found
        rw [commentLength_of_none none, length_cons,
          bracketTail_stays near (by rw [length_cons] at h; omega)]
        exact Nat.add_comm _ _
    · rw [cons_append, commentLength_of_ne bracket] at h ⊢
      exact (runLength_stays line (t := c :: t) (Nat.le_of_eq h)).trans h

/-! ## Symbols -/

theorem startsWith_congr {ds p : Chars} {n : Nat} (h : cs.take n = ds.take n) (hp : p.length ≤ n) :
    startsWith cs p = startsWith ds p := by
  have through (cs : Chars) : startsWith cs p ↔ p <+: cs.take n := by
    rw [startsWith_iff, prefix_take_iff]
    exact ⟨fun starts => ⟨starts, hp⟩, And.left⟩
  exact Bool.eq_iff_iff.mpr ((through cs).trans (h ▸ (through ds).symm))

theorem symbol_goesOn (listed : (s, text) ∈ Symbol.all) :
    ∀ b ∈ text.toList.tail, isStart b = false := by
  have all : (Symbol.all.all fun p => p.2.toList.tail.all fun b => !isStart b) = true := by decide +kernel
  have mine := all_eq_true.mp (all_eq_true.mp all _ listed)
  exact fun b hb => by simpa using mine b hb

theorem symbol_length (listed : (s, text) ∈ Symbol.all) :
    text.toList.length ≤ 2 ∨ text.toList = ['.', '.', '.'] := by
  have all : (Symbol.all.all fun p => decide (p.2.toList.length ≤ 2) || p.2.toList == ['.', '.', '.']) =
      true := by decide +kernel
  simpa using all_eq_true.mp all _ listed

theorem symbolLexeme_dots (rest : Chars) : 1 ≤ (symbolLexeme ('.' :: '.' :: rest)).tail := by
  by_cases third : rest.head? = some '.'
  · cases rest with
    | nil => cases third
    | cons d rest =>
      cases third
      exact (by decide : 1 ≤ 2)
  · have found : symbolAt? ('.' :: '.' :: rest) = some (.dotDot, 2) := by
      cases rest with
      | nil => rfl
      | cons d rest =>
        have other : '.' ≠ d := fun same => third (congrArg some same.symm)
        simp [symbolAt?, Symbol.all, startsWith, stripPrefix?, other]
    rewrite [symbolLexeme, found]
    exact Nat.le_refl 1

theorem startsWith_reach (listed : (s, text) ∈ Symbol.all) (length : text.toList.length = t.length + 2)
    (start : isStart a) : startsWith (c :: (t ++ a :: v)) text.toList = false := by
  refine Bool.eq_false_iff.mpr fun starts => ?_
  have whole : text.toList = c :: (t ++ [a]) := by
    rw [prefix_iff_eq_take.mp (startsWith_iff.mp starts), length, take_succ_cons,
      take_length_add_append]
    rfl
  have goesOn := symbol_goesOn listed a (by rw [whole]; simp)
  rw [start] at goesOn
  cases goesOn

theorem startsWith_stays (near : Near u u') (long : t = [] → c = '.' → u.head? ≠ some '.')
    (listed : (s, text) ∈ Symbol.all) :
    startsWith (c :: (t ++ u')) text.toList = startsWith (c :: (t ++ u)) text.toList := by
  rcases Nat.lt_trichotomy text.toList.length (t.length + 2) with short | one | longer
  · refine startsWith_congr (n := t.length + 1) ?_ (Nat.le_of_lt_succ short)
    simp
  · cases near with
    | @same a v v' =>
      refine startsWith_congr (n := t.length + 2) ?_ (Nat.le_of_eq one)
      simp only [take_succ_cons, take_length_add_append, take_zero]
    | @start a b v v' ha hb =>
      rw [startsWith_reach listed one hb, startsWith_reach listed one (by simp [isStart, ha])]
  · -- three dots after the first of them
    rcases symbol_length listed with two | dots
    · omega
    · rw [dots] at longer ⊢
      have none : t = [] :=
        eq_nil_of_length_eq_zero (Nat.lt_one_iff.mp (Nat.lt_of_add_lt_add_right longer))
      subst none
      have no {w : Chars} (h : c = '.' → w.head? ≠ some '.') :
          startsWith (c :: ([] ++ w)) ['.', '.', '.'] = false := by
        refine Bool.eq_false_iff.mpr fun starts => ?_
        obtain ⟨rest, whole⟩ := startsWith_iff.mp starts
        obtain ⟨first, whole⟩ := List.cons.inj whole
        rw [nil_append] at whole
        exact h first.symm (by rw [← whole]; rfl)
      rw [no (long rfl), no]
      intro point
      cases near with
      | same => exact long rfl point
      | start ha hb =>
        intro same
        cases same
        cases hb

theorem symbolLexeme_stays {r : Reading} (near : Near u u')
    (h : symbolLexeme (c :: (t ++ u)) = ⟨r, t.length⟩) :
    symbolLexeme (c :: (t ++ u')) = ⟨r, t.length⟩ := by
  have long : t = [] → c = '.' → u.head? ≠ some '.' := by
    rintro rfl rfl point
    cases u with
    | nil => cases point
    | cons d u =>
      cases point
      have two := symbolLexeme_dots u
      rw [nil_append] at h
      rw [h] at two
      cases two
  have same : symbolAt? (c :: (t ++ u')) = symbolAt? (c :: (t ++ u)) := by
    unfold symbolAt?
    rw [← head?_filter, ← head?_filter, filter_congr fun p listed => startsWith_stays near long listed]
  unfold symbolLexeme at h ⊢
  rw [same]
  exact h

/-! ## A lexeme -/

theorem exponentLength_eq_zero_iff : exponentLength mark (a :: v) = 0 ↔
      mark a = false ∨ (v.drop (signLength v)).head?.any Char.isDigit = false := by
  rw [exponentLength_cons, Option.any_eq_false]
  change _ ↔ _ ∨ ∀ d ∈ (v.drop (signLength v)).head?, d.isDigit = false
  rw [← runLength_eq_zero_iff]
  cases mark a with
  | false => simp
  | true =>
    simp only [Bool.true_and, decide_eq_true_eq]
    split <;> simp <;> omega

theorem Quiet.of_same (look : isNameChar a → GoOnAlike v v') : Quiet (a :: v) (a :: v') where
  digit stops b hb := stops b hb
  hexDigit stops b hb := stops b hb
  point stops b hb := stops b hb
  exponent mark letter none := by
    rw [exponentLength_eq_zero_iff] at none ⊢
    cases marked : mark a with
    | false => exact .inl rfl
    | true =>
      obtain ⟨b, w, w', rfl, rfl, digits⟩ := look (letter a marked)
      refine none.imp (marked.symm.trans ·) fun none => ?_
      by_cases plus : b = '+'
      · subst plus
        exact (digits (.inl rfl)).symm.trans none
      · by_cases minus : b = '-'
        · subst minus
          exact (digits (.inr rfl)).symm.trans none
        · have unsigned (w : Chars) : signLength (b :: w) = 0 := by simp [signLength, plus, minus]
          rw [unsigned] at none ⊢
          exact none
  hexMark none := by
    refine Bool.eq_false_iff.mpr fun found => ?_
    have letter : (a == 'x' || a == 'X') = true := by
      cases v' with
      | nil => cases found
      | cons d v' => exact (Bool.and_eq_true_iff.mp found).1
    obtain ⟨b, w, w', rfl, rfl, -⟩ := look (isNameChar_of_mark letter)
    cases found.symm.trans none

theorem Near.head_eq (near : Near u u') (t : Chars)
    (hx : isStart x = false) : ((t ++ u').head? == some x) = ((t ++ u).head? == some x) := by
  cases t with
  | cons c t => rfl
  | nil =>
    cases near with
    | same => rfl
    | @start a b v v' ha hb =>
      have first : (a == x) = false := isStart_ne (by simp [isStart, ha]) hx
      have other : (b == x) = false := isStart_ne hb hx
      exact other.trans first.symm

theorem isDigit_of_isStart (h : isStart b) : b.isDigit = false := by
  refine Bool.eq_false_iff.mpr fun digit => ?_
  simp only [Char.isDigit, Bool.and_eq_true, decide_eq_true_eq] at digit
  simp only [isStart, isNameStart, isAlpha_iff, Bool.or_eq_true, beq_iff_eq] at h
  rcases h with (((⟨low, -⟩ | ⟨low, -⟩) | rfl) | rfl) | rfl
  · exact absurd (Nat.le_trans low digit.2) (by decide)
  · exact absurd (Nat.le_trans low digit.2) (by decide)
  · exact absurd digit.2 (by decide)
  · exact absurd digit.1 (by decide)
  · exact absurd digit.1 (by decide)

theorem numeralLength_none_stays (near : Near u u')
    (h : ¬ 0 < numeralLength (c :: (t ++ u))) : ¬ 0 < numeralLength (c :: (t ++ u')) := by
  have head : (t ++ u').head?.any Char.isDigit = (t ++ u).head?.any Char.isDigit := by
    cases t with
    | cons d t => rfl
    | nil =>
      cases near with
      | same => rfl
      | @start a b v v' ha hb =>
        have first : a.isDigit = false := isDigit_of_isStart (by simp [isStart, ha])
        exact (isDigit_of_isStart hb).trans first.symm
  rwa [numeralLength_pos_iff, head, ← numeralLength_pos_iff]

/-- No bracket in the first text opens a long string that only the third text closes. -/
def OpenStays (t u u' : Chars) : Prop :=
  ∀ s, s <:+ t → longBracket? (s ++ u) = none → longBracket? (s ++ u') = none

theorem lexeme_stays {r : Reading} (near : Near u u')
    (opens : OpenStays (c :: t) u u') (number : r = .token .number → Quiet u u')
    (h : lexeme c (t ++ u) = ⟨r, t.length⟩) : lexeme c (t ++ u') = ⟨r, t.length⟩ := by
  have run {p : Char → Bool} (hp : (∀ a, isNameStart a → p a) ∨ ∀ b, isStart b → p b = false)
      (length : runLength p (t ++ u) = t.length) : runLength p (t ++ u') = t.length :=
    (runLength_stays (near.stopsAlike hp) (Nat.le_of_eq length)).trans length
  unfold lexeme at h ⊢
  by_cases blank : c == ' ' || c == '\t'
  · rw [if_pos blank] at h ⊢
    obtain ⟨rfl, length⟩ := Lexeme.mk.inj h
    rw [run (.inr fun b hb => ?_) length]
    simp [isStart_ne hb (c := ' ') (by decide), isStart_ne hb (c := '\t') (by decide)]
  rw [if_neg blank] at h ⊢
  by_cases line : isEndOfLine c || c == '\x0c'
  · rw [if_pos line] at h ⊢
    obtain ⟨rfl, length⟩ := Lexeme.mk.inj h
    rw [run (.inr fun b hb => ?_) length]
    simp [isEndOfLine, isStart_ne hb (c := '\n') (by decide), isStart_ne hb (c := '\r') (by decide),
      isStart_ne hb (c := '\x0c') (by decide)]
  rw [if_neg line] at h ⊢
  by_cases name : isNameStart c
  · rw [if_pos name] at h ⊢
    have length : runLength isNameChar (t ++ u) = t.length := by
      dsimp only at h
      split at h <;> exact (Lexeme.mk.inj h).2
    have length' := run (.inl fun a => isNameChar_of_isNameStart) length
    simp only [length, length', take_left] at h ⊢
    exact h
  rw [if_neg name] at h ⊢
  by_cases numeral : numeralLength (c :: (t ++ u)) > 0
  · rw [if_pos numeral] at h
    obtain ⟨rfl, length⟩ := Lexeme.mk.inj h
    have whole : numeralLength (c :: (t ++ u)) = t.length + 1 := by omega
    have stays := numeralLength_stays (number rfl) whole
    rw [if_pos (by omega), stays]
    rfl
  rw [if_neg numeral] at h
  rw [if_neg (numeralLength_none_stays near numeral)]
  by_cases quote : c == '"' || c == '\''
  · rw [if_pos quote] at h ⊢
    dsimp only at h ⊢
    obtain ⟨kind, length⟩ := Lexeme.mk.inj h
    have some : u ≠ [] := by cases near <;> exact cons_ne_nil _ _
    rw [quotedLength_stays u' (Prod.ext rfl length) fun _ => some, ← kind]
  rw [if_neg quote] at h ⊢
  by_cases bracket : c == '['
  · rw [if_pos bracket] at h ⊢
    cases found : longBracket? (c :: (t ++ u)) with
    | some n =>
      obtain ⟨level, body, after, -, -, positive⟩ := longBracket?_eq_some found
      simp only [found] at h
      obtain ⟨kind, length⟩ := Lexeme.mk.inj h
      have stays := longBracket?_stays (t := c :: t) u' (found.trans (congrArg some (by
        rw [length_cons]
        omega)))
      rw [cons_append] at stays
      simp only [stays, kind]
      rfl
    | none =>
      have stays : longBracket? (c :: (t ++ u')) = none := opens _ suffix_rfl found
      simp only [found] at h
      simp only [stays]
      exact h
  rw [if_neg bracket] at h ⊢
  rw [near.head_eq t (x := '-') (by decide)]
  by_cases dashes : c == '-' && (t ++ u).head? == some '-'
  · rw [if_pos dashes] at h ⊢
    obtain ⟨rfl, length⟩ := Lexeme.mk.inj h
    cases t with
    | nil =>
      rw [length_nil] at length
      omega
    | cons d t =>
      simp only [cons_append, drop_succ_cons, drop_zero, length_cons] at length ⊢
      have after : t <:+ c :: d :: t := ⟨[c, d], rfl⟩
      rw [commentLength_stays near (opens t after) (by omega), Nat.add_comm]
  rw [if_neg dashes] at h ⊢
  rw [near.head_eq t (x := '!') (by decide)]
  by_cases shebang : c == '#' && (t ++ u).head? == some '!'
  · rw [if_pos shebang] at h ⊢
    obtain ⟨rfl, length⟩ := Lexeme.mk.inj h
    have stays : lineLength (t ++ u') = t.length := run (.inl fun _ => line_goesOn) length
    rw [stays]
  rw [if_neg shebang] at h ⊢
  exact symbolLexeme_stays near h

/-! ## A text in lexemes -/

theorem lexeme_of_isNameChar (h : isNameChar c) (cs : Chars) :
    (isNameStart c → (lexeme c cs).tail = runLength isNameChar cs) ∧
      (c.isDigit → isNameStart c = false → (lexeme c cs).reading = .token .number) := by
  have other {d : Char} (hd : isNameChar d = false) : (c == d) = false :=
    beq_eq_false_iff_ne.mpr (ne_of_isNameChar h hd)
  unfold lexeme isEndOfLine
  simp only [other (d := ' ') (by decide), other (d := '\t') (by decide), other (d := '\n') (by decide),
    other (d := '\r') (by decide), other (d := '\x0c') (by decide), Bool.or_self, Bool.false_eq_true, if_false]
  constructor
  · intro start
    rw [if_pos start]
    split <;> rfl
  · intro digit noName
    rw [noName, if_neg Bool.false_ne_true, if_pos (numeralLength_pos_iff.mpr (.inl digit))]

theorem Scans.not_isNameChar {p q : Cursor} {ts : List Token}
    (h : Scans p [x] (a :: v) ts q) (ha : isNameStart a)
    (number : ∀ front t, ts = front ++ [t] → t.kind ≠ .number) : isNameChar x = false := by
  generalize one : [x] = xs at h
  cases h with
  | nil => cases one
  | @cons p q c cs xs ys r ts found more =>
    obtain ⟨rfl, none⟩ := List.cons.inj one
    obtain ⟨rfl, rfl⟩ := append_eq_nil_iff.mp none.symm
    cases more
    refine Bool.eq_false_iff.mpr fun letter => ?_
    obtain ⟨asName, asNumber⟩ := lexeme_of_isNameChar letter ([] ++ ([] ++ a :: v))
    rw [found] at asName asNumber
    cases start : isNameStart x with
    | true =>
      -- the name would go on
      have long := runLength_pos (isNameChar_of_isNameStart ha) v
      exact Nat.ne_of_gt long (asName start).symm
    | false =>
      have digit : x.isDigit := by
        simp only [isNameChar, Char.isAlphanum, isNameStart, Bool.or_eq_true, Bool.or_eq_false_iff] at letter start
        simpa [start] using letter
      have reading : r = .token .number := asNumber digit start
      subst reading
      exact number [] (p.token .number [x]) rfl rfl

theorem goOnAlike_append (ha : isNameStart a) (hb : isStart b) (one : xs = [] → isNameChar x = false)
    (letter : isNameChar x) : GoOnAlike (xs ++ a :: v) (xs ++ b :: v') := by
  match xs with
  | [] =>
    rw [one rfl] at letter
    cases letter
  | [y] =>
    have first : a.isDigit = false := isDigit_of_isStart (by simp [isStart, ha])
    exact ⟨y, a :: v, b :: v', rfl, rfl, fun _ => first.trans (isDigit_of_isStart hb).symm⟩
  | y :: z :: xs => exact ⟨y, _, _, rfl, rfl, fun _ => rfl⟩

theorem Scans.stays {p q : Cursor} {ts : List Token}
    (h : Scans p xs (a :: v) ts q) (ha : isNameStart a) (hb : isStart b)
    (opens : OpenStays xs (a :: v) (b :: v'))
    (number : ∀ front t, ts = front ++ [t] → t.kind ≠ .number) : Scans p xs (b :: v') ts q := by
  generalize following : a :: v = ys at h opens
  induction h with
  | nil => exact .nil
  | @cons p q c cs xs ys r ts h more ih =>
    subst following
    have number' : ∀ front t, ts = front ++ [t] → t.kind ≠ .number := by
      intro front t whole
      exact number (p.tokens r (c :: cs) ++ front) t (by rw [whole, append_assoc])
    have opens' : OpenStays (c :: cs) (xs ++ a :: v) (xs ++ b :: v') := by
      intro s after none
      rw [← append_assoc] at none ⊢
      refine opens _ ?_ none
      obtain ⟨front, whole⟩ := after
      exact ⟨front, by rw [← append_assoc, whole, cons_append]⟩
    obtain ⟨near, quiet⟩ : Near (xs ++ a :: v) (xs ++ b :: v') ∧
        (r = .token .number → Quiet (xs ++ a :: v) (xs ++ b :: v')) := by
      cases xs with
      | nil =>
        refine ⟨.start ha hb, ?_⟩
        rintro rfl
        cases more
        exact absurd rfl (number [] _ rfl)
      | cons x xs =>
        have one : xs = [] → isNameChar x = false := by
          rintro rfl
          exact more.not_isNameChar ha number'
        exact ⟨.same (goOnAlike_append ha hb one), fun _ => .of_same (goOnAlike_append ha hb one)⟩
    refine .cons (lexeme_stays near opens' quiet h) (ih number' rfl ?_)
    exact fun s after => opens s (after.trans ⟨c :: cs, rfl⟩)

end LuaTune.Lua
