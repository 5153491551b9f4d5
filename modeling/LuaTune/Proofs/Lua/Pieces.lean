import LuaTune.Proofs.Lua.Scan

/-!
# Texts cut into lexemes

`Scans p xs ys ts q` says that `xs` in front of `ys` is cut into whole lexemes, whose tokens are
`ts`. Every token of a script starts where such a cut ends.
-/

namespace LuaTune.Lua

open List hiding find?
open Text

/-! ## One lexeme -/

def Cursor.tokens (p : Cursor) : Reading → Chars → List Token
  | .token k, text => [p.token k text]
  | _, _ => []

def Cursor.after (p : Cursor) : Reading → Chars → Cursor
  | .token _, text => { p.pass text with index := p.index + 1, afterBreak := false }
  | .lineBreak, text => { p.pass text with index := p.index + 1, afterBreak := true }
  | .hidden, text => { p.pass text with index := p.index + 1 }
  | .dropped, text => p.pass text

theorem Cursor.offset_after (p : Cursor) (r : Reading) (text : Chars) :
    (p.after r text).offset = p.offset + text.length := by
  cases r <;> rfl

theorem runLength_le (p : Char → Bool) (cs : Chars) : runLength p cs ≤ cs.length :=
  (takeWhile_sublist p).length_le

theorem take_runLength (p : Char → Bool) (cs : Chars) :
    cs.take (runLength p cs) = cs.takeWhile p := by
  rw [runLength]
  exact (prefix_iff_eq_take.mp ( takeWhile_prefix p)).symm

def closer (level : Nat) : Chars := ']' :: List.replicate level '=' ++ [']']

theorem longBracket?_eq_some {cs : Chars} {n : Nat} (h : longBracket? cs = some n) :
    ∃ level body after, cs = '[' :: List.replicate level '=' ++ '[' :: (body ++ closer level ++ after) ∧
      find? (closer level) (body ++ closer level ++ after) = some body.length ∧
      n = body.length + 2 * (level + 2) := by
  unfold longBracket? at h
  split at h
  · next cs =>
    dsimp only at h
    split at h
    · next inside rest =>
      obtain ⟨m, found, rfl⟩ := Option.map_eq_some_iff.mp h
      obtain ⟨body, after, rfl, rfl⟩ := Text.find?_eq_some found
      refine ⟨runLength (· == '=') cs, body, after, ?_, found, rfl⟩
      have equals : cs.take (runLength (· == '=') cs) =
          List.replicate (runLength (· == '=') cs) '=' := by
        rw [take_runLength, runLength]
        refine eq_replicate_iff.mpr ⟨rfl, fun c hc => ?_⟩
        simpa using all_eq_true.mp all_takeWhile c hc
      have inside : '[' :: (body ++ closer (runLength (· == '=') cs) ++ after) =
          cs.drop (runLength (· == '=') cs) := rest.symm
      rw [cons_append, inside, ← equals, take_append_drop]
    · cases h
  · cases h

theorem longBracket?_le {cs : Chars} {n : Nat} (h : longBracket? cs = some n) : n ≤ cs.length := by
  obtain ⟨level, body, after, rfl, -, rfl⟩ := longBracket?_eq_some h
  simp only [closer, length_append, length_cons, length_replicate, length_nil]
  omega

theorem longBracket?_whole {t u : Chars} (h : longBracket? (t ++ u) = some t.length) :
    ∃ level body, t = '[' :: List.replicate level '=' ++ '[' :: (body ++ closer level) ∧
      find? (closer level) (body ++ closer level ++ u) = some body.length := by
  obtain ⟨level, body, after, whole, first, length⟩ := longBracket?_eq_some h
  have parts : t ++ u = ('[' :: List.replicate level '=' ++ '[' :: (body ++ closer level)) ++ after := by
    rw [whole]
    simp
  obtain ⟨text, rfl⟩ := append_inj parts (by
    simp only [length, closer, length_cons, length_append, length_replicate, length_nil]
    omega)
  exact ⟨level, body, text, first⟩

theorem commentLength_le (cs : Chars) : commentLength cs ≤ cs.length := by
  unfold commentLength
  split
  · next cs =>
    split
    · next n found => exact longBracket?_le found
    · dsimp only
      have run := runLength_le (· == '=') cs
      split
      · simp only [length_cons]
        omega
      · next rest =>
        have line := runLength_le (!isEndOfLine ·) (cs.drop (runLength (· == '=') cs))
        simp only [length_drop, length_cons, lineLength] at line ⊢
        omega
  · exact runLength_le _ _

theorem quotedLength_step (q : Char) (s : QuoteState) (c : Char) :
    (∃ closed, (closed = true → c = q) ∧ ∀ cs, quotedLength q s (c :: cs) = (closed, 1)) ∨
      ∃ s', ∀ cs, quotedLength q s (c :: cs) = (quotedLength q s' cs).map id (· + 1) := by
  cases s with
  | plain =>
    by_cases quote : c = q
    · exact .inl ⟨true, fun _ => quote, fun cs => by rw [quotedLength, if_pos quote]⟩
    · by_cases line : isEndOfLine c
      · exact .inl ⟨false, nofun, fun cs => by rw [quotedLength, if_neg quote, if_pos line]⟩
      · exact .inr ⟨_, fun cs => by rw [quotedLength, if_neg quote, if_neg line]⟩
  | escape =>
    by_cases hex : c = 'x'
    · exact .inr ⟨_, fun cs => by rw [quotedLength, if_pos hex]⟩
    · by_cases known : c.isDigit || isEndOfLine c || "abfnrtvz\"'\\".toList.contains c
      · exact .inr ⟨_, fun cs => by rw [quotedLength, if_neg hex, if_pos known]⟩
      · exact .inl ⟨false, nofun, fun cs => by rw [quotedLength, if_neg hex, if_neg known]⟩
  | hex n =>
    by_cases digit : isHexDigit c
    · cases n with
      | zero => exact .inr ⟨.plain, fun cs => if_pos digit⟩
      | succ k => exact .inr ⟨.hex k, fun cs => if_pos digit⟩
    · exact .inl ⟨false, nofun, fun cs => if_neg digit⟩

theorem quotedLength_le (q : Char) (s : QuoteState) (cs : Chars) :
    (quotedLength q s cs).2 ≤ cs.length := by
  induction cs generalizing s with
  | nil => cases s <;> exact Nat.le_refl 0
  | cons c cs ih =>
    rcases quotedLength_step q s c with ⟨closed, -, last⟩ | ⟨s', more⟩
    · rw [last]
      exact Nat.succ_le_succ (Nat.zero_le _)
    · rw [more]
      exact Nat.succ_le_succ (ih s')

/-! ## Numerals -/

/-- There are so many characters, and none of them is blank. -/
structure Solid (n : Nat) (cs : Chars) : Prop where
  inside : n ≤ cs.length
  plain : ∀ c ∈ cs.take n, isBlank c = false

section

variable {c a x : Char} {cs : Chars} {p : Char → Bool} {n : Nat}

theorem runLength_cons (p : Char → Bool) (c : Char) (cs : Chars) :
    runLength p (c :: cs) = if p c then runLength p cs + 1 else 0 := by
  unfold runLength
  rw [takeWhile_cons]
  split <;> simp

theorem runLength_pos (h : p c) (cs : Chars) : 0 < runLength p (c :: cs) := by
  rw [runLength_cons, if_pos h]
  exact Nat.succ_pos _

theorem Solid.zero : Solid 0 cs := ⟨Nat.zero_le _, nofun⟩

theorem Solid.cons (hc : isBlank c = false) (h : Solid n cs) : Solid (n + 1) (c :: cs) :=
  ⟨Nat.succ_le_succ h.inside, forall_mem_cons.mpr ⟨hc, h.plain⟩⟩

theorem Solid.add {m : Nat} (h : Solid m cs) (h' : Solid n (cs.drop m)) : Solid (m + n) cs := by
  have first := h.inside
  have rest := h'.inside
  rw [length_drop] at rest
  refine ⟨by omega, ?_⟩
  rw [take_add]
  exact forall_mem_append.mpr ⟨h.plain, h'.plain⟩

theorem Solid.run (hp : ∀ c, p c → isBlank c = false) (cs : Chars) : Solid (runLength p cs) cs := by
  refine ⟨runLength_le p cs, fun c hc => ?_⟩
  rw [take_runLength] at hc
  exact hp c (all_eq_true.mp all_takeWhile c hc)

theorem isBlank_of_isDigit (h : c.isDigit) : isBlank c = false :=
  isBlank_eq_false (by simp [isNameChar, Char.isAlphanum, h])

theorem isAlpha_iff : c.isAlpha ↔ ('A' ≤ c ∧ c ≤ 'Z') ∨ ('a' ≤ c ∧ c ≤ 'z') := by
  have ranges : c.isAlpha =
      (decide ('A' ≤ c ∧ c ≤ 'Z') || (decide ('a' ≤ c) && decide (c ≤ 'z'))) := rfl
  simp only [ranges, Bool.or_eq_true, Bool.and_eq_true, decide_eq_true_eq]

theorem isNameChar_of_isHexDigit (h : isHexDigit c) : isNameChar c := by
  simp only [isHexDigit, Bool.or_eq_true, Bool.and_eq_true, decide_eq_true_eq] at h
  simp only [isNameChar, Char.isAlphanum, isAlpha_iff, Bool.or_eq_true]
  rcases h with (digit | ⟨low, high⟩) | ⟨low, high⟩
  · exact .inl (.inr digit)
  · exact .inl (.inl (.inr ⟨low, Nat.le_trans high (by decide)⟩))
  · exact .inl (.inl (.inl ⟨low, Nat.le_trans high (by decide)⟩))

theorem isBlank_of_isHexDigit (h : isHexDigit c) : isBlank c = false :=
  isBlank_eq_false (isNameChar_of_isHexDigit h)

theorem isNameChar_of_mark {l u : Char} (h : (a == l || a == u) = true)
    (letters : isNameChar l ∧ isNameChar u := by decide) : isNameChar a := by
  rcases Bool.or_eq_true_iff.mp h with h | h <;> rw [beq_iff_eq.mp h]
  exacts [letters.1, letters.2]

def signLength : Chars → Nat
  | '+' :: _ | '-' :: _ => 1
  | _ => 0

theorem signLength_solid (cs : Chars) : Solid (signLength cs) cs := by
  unfold signLength
  split
  · exact .cons (by decide) .zero
  · exact .cons (by decide) .zero
  · exact .zero

theorem exponentLength_cons (mark : Char → Bool) (c : Char) (cs : Chars) :
    exponentLength mark (c :: cs) =
      if mark c && runLength Char.isDigit (cs.drop (signLength cs)) > 0 then
        1 + signLength cs + runLength Char.isDigit (cs.drop (signLength cs))
      else 0 := by
  unfold exponentLength
  split
  · next same => cases same; rfl
  · next same => cases same; rfl
  · next noPlus noMinus same =>
    cases same
    have none : signLength cs = 0 := by
      unfold signLength
      split
      · exact absurd rfl (noPlus _)
      · exact absurd rfl (noMinus _)
      · rfl
    rw [none]
    rfl
  · next same => cases same

theorem exponentLength_solid {mark : Char → Bool} (hm : ∀ c, mark c → isBlank c = false)
    (cs : Chars) : Solid (exponentLength mark cs) cs := by
  cases cs with
  | nil => exact .zero
  | cons c cs =>
    rw [exponentLength_cons]
    split
    · next found =>
      rw [Nat.add_assoc, Nat.add_comm]
      exact .cons (hm c (Bool.and_eq_true_iff.mp found).1)
        ((signLength_solid cs).add (.run (fun _ => isBlank_of_isDigit) _))
    · exact .zero

def fractionLength (digit : Char → Bool) : Chars → Nat
  | '.' :: rest => 1 + runLength digit rest
  | _ => 0

theorem numberTail_eq (digit mark : Char → Bool) (cs : Chars) : numberTail digit mark cs =
      let whole := runLength digit cs
      let fraction := fractionLength digit (cs.drop whole)
      whole + fraction + exponentLength mark (cs.drop (whole + fraction)) :=
  rfl

theorem numberTail_solid {digit mark : Char → Bool} (hd : ∀ c, digit c → isBlank c = false)
    (hm : ∀ c, mark c → isNameChar c) (cs : Chars) : Solid (numberTail digit mark cs) cs := by
  have fraction (cs : Chars) : Solid (fractionLength digit cs) cs := by
    unfold fractionLength
    split
    · rw [Nat.add_comm]
      exact .cons (by decide) (.run hd _)
    · exact .zero
  rw [numberTail_eq]
  exact ((Solid.run hd cs).add (fraction _)).add
    (exponentLength_solid (fun c hc => isBlank_eq_false (hm c hc)) _)

def isHexMark : Chars → Bool
  | x :: d :: _ => (x == 'x' || x == 'X') && isHexDigit d
  | _ => false

abbrev decimalLength (cs : Chars) : Nat :=
  numberTail Char.isDigit (fun c => c == 'e' || c == 'E') cs

abbrev hexLength (cs : Chars) : Nat := numberTail isHexDigit (fun c => c == 'p' || c == 'P') cs

theorem runLength_le_numberTail (digit mark : Char → Bool) (cs : Chars) :
    runLength digit cs ≤ numberTail digit mark cs := by
  rw [numberTail_eq]
  dsimp only
  omega

theorem pointed_le_decimalLength (d : Char) (rest : Chars) :
    runLength Char.isDigit (d :: rest) + 1 ≤ decimalLength ('.' :: d :: rest) := by
  have point : fractionLength Char.isDigit ('.' :: d :: rest) = runLength Char.isDigit (d :: rest) + 1 :=
    Nat.add_comm _ _
  rw [decimalLength, numberTail_eq]
  refine Nat.le_trans ?_ (Nat.le_add_right _ _)
  exact Nat.le_of_eq (point.symm.trans (Nat.zero_add _).symm)

theorem numeralLength_of_hexMark {d : Char} {rest : Chars} (h : isHexMark (x :: d :: rest)) :
    numeralLength ('0' :: x :: d :: rest) = 2 + hexLength (d :: rest) := by
  simp only [numeralLength]
  exact if_pos h

theorem numeralLength_of_digit (h : c.isDigit)
    (mark : c = '0' → isHexMark cs = false) : numeralLength (c :: cs) = decimalLength (c :: cs) := by
  unfold numeralLength
  dsimp only
  split
  · next x d rest same =>
    cases same
    exact if_neg (Bool.eq_false_iff.mp (mark rfl))
  · next same => cases same; cases h
  · next same =>
    cases same
    exact if_pos h
  · next same => cases same

theorem numeralLength_of_point {d : Char} {rest : Chars} (h : d.isDigit) :
    numeralLength ('.' :: d :: rest) = decimalLength ('.' :: d :: rest) := by
  simp only [numeralLength]
  exact if_pos h

theorem numeral_cases (h : 0 < numeralLength (c :: cs)) :
    (c = '0' ∧ isHexMark cs) ∨ (c.isDigit ∧ (c = '0' → isHexMark cs = false)) ∨
      (c = '.' ∧ ∃ d rest, cs = d :: rest ∧ d.isDigit) := by
  unfold numeralLength at h
  dsimp only at h
  split at h
  · next x d rest same =>
    cases same
    split at h
    · next mark => exact .inl ⟨rfl, mark⟩
    · next mark => exact .inr (.inl ⟨by decide, fun _ => Bool.eq_false_iff.mpr mark⟩)
  · next d rest same =>
    cases same
    split at h
    · next digit => exact .inr (.inr ⟨rfl, d, rest, rfl, digit⟩)
    · cases h
  · next c' cs' noMark noPoint same =>
    cases same
    split at h
    · next digit =>
      refine .inr (.inl ⟨digit, fun zero => ?_⟩)
      subst zero
      match cs with
      | [] => rfl
      | [_] => rfl
      | x :: d :: rest => exact (noMark x d rest rfl rfl).elim
    · cases h
  · cases h

theorem numeralLength_pos_iff :
    0 < numeralLength (c :: cs) ↔ c.isDigit ∨ c = '.' ∧ cs.head?.any Char.isDigit := by
  constructor
  · intro h
    rcases numeral_cases h with ⟨rfl, -⟩ | ⟨digit, -⟩ | ⟨rfl, d, rest, rfl, digit⟩
    · exact .inl rfl
    · exact .inl digit
    · exact .inr ⟨rfl, digit⟩
  · rintro (digit | ⟨rfl, digit⟩)
    · by_cases mark : c = '0' ∧ isHexMark cs
      · obtain ⟨rfl, mark⟩ := mark
        match cs, mark with
        | x :: d :: rest, mark =>
          rw [numeralLength_of_hexMark mark]
          omega
      · have noMark (zero : c = '0') : isHexMark cs = false :=
          Bool.eq_false_iff.mpr fun more => mark ⟨zero, more⟩
        rw [numeralLength_of_digit digit noMark]
        exact Nat.lt_of_lt_of_le (runLength_pos digit cs) (runLength_le_numberTail _ _ _)
    · cases cs with
      | nil => cases digit
      | cons d rest =>
        have digit : d.isDigit := digit
        rw [numeralLength_of_point digit]
        exact Nat.lt_of_lt_of_le (Nat.succ_pos _) (pointed_le_decimalLength d rest)

theorem numeral_solid (cs : Chars) : Solid (numeralLength cs) cs := by
  have decimal (cs : Chars) : Solid (decimalLength cs) cs :=
    numberTail_solid (fun _ => isBlank_of_isDigit) (fun _ => isNameChar_of_mark) cs
  cases cs with
  | nil => exact .zero
  | cons c cs =>
    rcases Nat.eq_zero_or_pos (numeralLength (c :: cs)) with none | some
    · rw [none]
      exact .zero
    rcases numeral_cases some with ⟨rfl, mark⟩ | ⟨digit, noMark⟩ | ⟨rfl, d, rest, rfl, digit⟩
    · match cs, mark with
      | x :: d :: rest, mark =>
        have letter := isNameChar_of_mark (Bool.and_eq_true_iff.mp mark).1
        rw [numeralLength_of_hexMark mark, Nat.add_comm]
        exact .cons (by decide) (.cons (isBlank_eq_false letter)
          (numberTail_solid (fun _ => isBlank_of_isHexDigit) (fun _ => isNameChar_of_mark) _))
    · rw [numeralLength_of_digit digit noMark]
      exact decimal _
    · rw [numeralLength_of_point digit]
      exact decimal _

end

/-! ## The end of a lexeme -/

theorem symbolLexeme_tail_le (c : Char) (cs : Chars) : (symbolLexeme (c :: cs)).tail ≤ cs.length := by
  unfold symbolLexeme
  split
  · next s n found =>
    unfold symbolAt? at found
    obtain ⟨p, first, same⟩ := Option.map_eq_some_iff.mp found
    have starts := find?_some first
    have inside := (startsWith_iff.mp starts).length_le
    cases same
    simp only [length_cons] at inside
    change p.2.toList.length - 1 ≤ cs.length
    omega
  · exact Nat.zero_le _

theorem lexeme_tail_le (c : Char) (cs : Chars) : (lexeme c cs).tail ≤ cs.length := by
  unfold lexeme
  split
  · exact runLength_le _ _
  · split
    · exact runLength_le _ _
    · split
      · dsimp only
        split <;> exact runLength_le _ _
      · split
        · have := (numeral_solid (c :: cs)).inside
          simp only [length_cons] at this
          change numeralLength (c :: cs) - 1 ≤ cs.length
          omega
        · split
          · exact quotedLength_le _ _ _
          · split
            · split
              · next n found =>
                have := longBracket?_le found
                simp only [length_cons] at this
                change n - 1 ≤ cs.length
                omega
              · exact Nat.zero_le _
            · split
              · next dashes =>
                cases cs with
                | nil => simp at dashes
                | cons d cs =>
                  have := commentLength_le cs
                  simp only [drop_succ_cons, drop_zero, length_cons]
                  omega
              · split
                · exact runLength_le _ _
                · exact symbolLexeme_tail_le c cs

theorem scanFrom_cons (p : Cursor) {c : Char} {cs rest : Chars} {r : Reading}
    (h : lexeme c (cs ++ rest) = ⟨r, cs.length⟩) :
    scanFrom 0 p (c :: (cs ++ rest)) =
      p.tokens r (c :: cs) ++ scanFrom 0 (p.after r (c :: cs)) rest := by
  rw [scanFrom, h]
  simp only [take_left, scanFrom_append]
  cases r <;> rfl

theorem exists_lexeme (c : Char) (text : Chars) :
    ∃ cs rest r, text = cs ++ rest ∧ lexeme c (cs ++ rest) = ⟨r, cs.length⟩ := by
  let l := lexeme c text
  have inside : l.tail ≤ text.length := lexeme_tail_le c text
  refine ⟨text.take l.tail, text.drop l.tail, l.reading, (take_append_drop _ _).symm, ?_⟩
  rw [take_append_drop, length_take, Nat.min_eq_left inside]

theorem lexeme_induction {motive : Chars → Prop} (nil : motive [])
    (cons : ∀ (c : Char) (cs rest : Chars) (r : Reading),
      lexeme c (cs ++ rest) = ⟨r, cs.length⟩ → motive rest → motive (c :: (cs ++ rest)))
    (text : Chars) : motive text := by
  induction length : text.length using Nat.strongRecOn generalizing text with
  | ind n ih =>
    subst length
    cases text with
    | nil => exact nil
    | cons c text =>
      obtain ⟨cs, rest, r, rfl, found⟩ := exists_lexeme c text
      refine cons c cs rest r found (ih _ ?_ rest rfl)
      simp only [length_cons, length_append]
      omega

/-! ## Many lexemes -/

/-- The first text, in front of the second, is cut into whole lexemes with these tokens. -/
inductive Scans : Cursor → Chars → Chars → List Token → Cursor → Prop where
  | nil {p : Cursor} {ys : Chars} : Scans p [] ys [] p
  | cons {p q : Cursor} {c : Char} {cs xs ys : Chars} {r : Reading} {ts : List Token}
    (h : lexeme c (cs ++ (xs ++ ys)) = ⟨r, cs.length⟩)
    (more : Scans (p.after r (c :: cs)) xs ys ts q) :
    Scans p (c :: (cs ++ xs)) ys (p.tokens r (c :: cs) ++ ts) q

namespace Scans

variable {p q r : Cursor} {xs ys zs : Chars} {ts us : List Token}

theorem scanFrom (h : Scans p xs ys ts q) :
    Lua.scanFrom 0 p (xs ++ ys) = ts ++ Lua.scanFrom 0 q ys := by
  induction h with
  | nil => rfl
  | cons h _ ih => rw [cons_append, append_assoc, scanFrom_cons _ h, ih, append_assoc]

theorem append (h : Scans p xs (ys ++ zs) ts q) (h' : Scans q ys zs us r) :
    Scans p (xs ++ ys) zs (ts ++ us) r := by
  generalize following : ys ++ zs = ws at h
  induction h with
  | nil => exact h'
  | cons h _ ih =>
    subst following
    rw [cons_append, append_assoc, append_assoc]
    exact .cons (by rwa [append_assoc]) (ih h' rfl)

theorem offset (h : Scans p xs ys ts q) : q.offset = p.offset + xs.length := by
  induction h with
  | nil => rfl
  | cons _ _ ih =>
    rw [ih, Cursor.offset_after]
    simp only [length_cons, length_append]
    omega

end Scans

variable {p : Cursor} {text cs rest : Chars} {us : List Token} {t : Token} {c : Char} {k : Kind}

theorem scanFrom_cut {ts : List Token} (h : scanFrom 0 p text = ts ++ t :: us) :
    ∃ xs c cs rest q, text = xs ++ c :: (cs ++ rest) ∧ Scans p xs (c :: (cs ++ rest)) ts q ∧
      lexeme c (cs ++ rest) = ⟨.token t.kind, cs.length⟩ ∧ t = q.token t.kind (c :: cs) ∧
      us = scanFrom 0 (q.after (.token t.kind) (c :: cs)) rest := by
  induction text using lexeme_induction generalizing p ts with
  | nil => simp [scanFrom] at h
  | cons c cs rest r found ih =>
    rw [scanFrom_cons p found] at h
    -- a token in the rest of the text
    have later {ts' : List Token} (h : scanFrom 0 (p.after r (c :: cs)) rest = ts' ++ t :: us)
        (tokens : ts = p.tokens r (c :: cs) ++ ts') :
        ∃ xs d ds rest' q, c :: (cs ++ rest) = xs ++ d :: (ds ++ rest') ∧
          Scans p xs (d :: (ds ++ rest')) ts q ∧
          lexeme d (ds ++ rest') = ⟨.token t.kind, ds.length⟩ ∧ t = q.token t.kind (d :: ds) ∧
          us = scanFrom 0 (q.after (.token t.kind) (d :: ds)) rest' := by
      obtain ⟨xs, d, ds, rest', q, rfl, cut, rest⟩ := ih h
      refine ⟨c :: (cs ++ xs), d, ds, rest', q, by simp, ?_, rest⟩
      rw [tokens]
      exact .cons found cut
    cases r with
    | token k =>
      cases ts with
      | nil =>
        obtain ⟨rfl, rfl⟩ := List.cons.inj h
        exact ⟨[], c, cs, rest, p, rfl, .nil, found, rfl, rfl⟩
      | cons u ts =>
        obtain ⟨rfl, others⟩ := List.cons.inj h
        exact later others rfl
    | lineBreak => exact later h rfl
    | hidden => exact later h rfl
    | dropped => exact later h rfl

theorem start_of_mem_scanFrom (h : t ∈ scanFrom 0 p cs) : p.offset ≤ t.start := by
  obtain ⟨front, back, tokens⟩ := append_of_mem h
  obtain ⟨xs, c, cs, rest, q, -, cut, -, same, -⟩ := scanFrom_cut tokens
  have place := cut.offset
  rw [same]
  change p.offset ≤ q.offset
  omega

theorem scanFrom_next (h : scanFrom 0 p text = t :: us) :
    ∃ gap c cs rest q, text = gap ++ c :: (cs ++ rest) ∧ Scans p gap (c :: (cs ++ rest)) [] q ∧
      lexeme c (cs ++ rest) = ⟨.token t.kind, cs.length⟩ ∧ t = q.token t.kind (c :: cs) ∧
      us = scanFrom 0 (q.after (.token t.kind) (c :: cs)) rest :=
  scanFrom_cut (h.trans (nil_append _).symm)

theorem Scans.single {q : Cursor} {r : Reading} (h : lexeme c (cs ++ rest) = ⟨r, cs.length⟩) :
    Scans q (c :: cs) rest (q.tokens r (c :: cs)) (q.after r (c :: cs)) := by
  have one : Scans q (c :: (cs ++ [])) rest (q.tokens r (c :: cs) ++ []) (q.after r (c :: cs)) :=
    .cons (by simpa using h) .nil
  simpa using one

/-! ## Kinds of tokens -/

inductive TokenForm (c : Char) (cs rest : Chars) : Kind → Prop where
  | name (start : isNameStart c) (goesOn : cs.all isNameChar)
    (free : Keyword.ofText? (c :: cs) = none) : TokenForm c cs rest .name
  | keyword {k : Keyword} (start : isNameStart c) (goesOn : cs.all isNameChar)
    (text : Keyword.ofText? (c :: cs) = some k) : TokenForm c cs rest (.keyword k)
  | number (length : numeralLength (c :: (cs ++ rest)) = cs.length + 1) : TokenForm c cs rest .number
  | quoted (quote : c = '"' ∨ c = '\'') (closed : quotedLength c .plain (cs ++ rest) = (true, cs.length)) :
    TokenForm c cs rest .string
  | long (bracket : c = '[') (closed : longBracket? (c :: (cs ++ rest)) = some (cs.length + 1)) :
    TokenForm c cs rest .string
  | symbol {s : Symbol} {text : String} (listed : (s, text) ∈ Symbol.all)
    (spelled : text.toList = c :: cs) : TokenForm c cs rest (.symbol s)

theorem symbolLexeme_form
    (h : symbolLexeme (c :: (cs ++ rest)) = ⟨.token k, cs.length⟩) : TokenForm c cs rest k := by
  unfold symbolLexeme at h
  split at h
  · next s m found =>
    obtain ⟨⟨s', text⟩, first, same⟩ := Option.map_eq_some_iff.mp found
    cases same
    obtain ⟨kind, tail⟩ := Lexeme.mk.inj h
    cases kind
    have listed := mem_of_find?_eq_some first
    have starts : startsWith (c :: (cs ++ rest)) text.toList :=
      find?_some (p := fun p : Symbol × String => startsWith (c :: (cs ++ rest)) p.2.toList) first
    obtain ⟨others, whole⟩ := startsWith_iff.mp starts
    refine .symbol listed ?_
    cases spelled : text.toList with
    | nil =>
      have none : (Symbol.all.all fun p => p.2.toList != []) = true := by decide +kernel
      have := all_eq_true.mp none _ listed
      simp [spelled] at this
    | cons d ds =>
      rw [spelled] at whole tail
      obtain ⟨rfl, same⟩ := List.cons.inj whole
      have length : ds.length = cs.length := by simpa using tail
      rw [(append_inj same length).1]
  · cases h

theorem tokenForm (h : lexeme c (cs ++ rest) = ⟨.token k, cs.length⟩) : TokenForm c cs rest k := by
  unfold lexeme at h
  split at h
  · cases h
  · split at h
    · cases h
    · split at h
      · next start =>
        dsimp only at h
        have run {k : Kind} (h : (⟨.token k, runLength isNameChar (cs ++ rest)⟩ : Lexeme) =
            ⟨.token k, cs.length⟩) : cs.all isNameChar ∧
              (cs ++ rest).take (runLength isNameChar (cs ++ rest)) = cs := by
          have length := (Lexeme.mk.inj h).2
          have text := take_runLength isNameChar (cs ++ rest)
          rw [length, take_left] at text
          refine ⟨?_, by rw [length, take_left]⟩
          rw [text]
          exact all_takeWhile
        split at h
        · next kw found =>
          obtain ⟨kind, length⟩ := Lexeme.mk.inj h
          cases kind
          obtain ⟨goesOn, text⟩ := run h
          exact .keyword start goesOn (by rwa [text] at found)
        · next found =>
          obtain ⟨kind, length⟩ := Lexeme.mk.inj h
          cases kind
          obtain ⟨goesOn, text⟩ := run h
          exact .name start goesOn (by rwa [text] at found)
      · split at h
        · next positive =>
          obtain ⟨kind, length⟩ := Lexeme.mk.inj h
          cases kind
          exact .number (by omega)
        · split at h
          · next quote =>
            dsimp only at h
            obtain ⟨kind, length⟩ := Lexeme.mk.inj h
            split at kind
            · next closed =>
              cases kind
              exact .quoted (by simpa using quote) (Prod.ext closed length)
            · cases kind
          · split at h
            · next bracket =>
              split at h
              · next n found =>
                obtain ⟨kind, length⟩ := Lexeme.mk.inj h
                cases kind
                refine .long (by simpa using bracket) ?_
                obtain ⟨level, body, after, -, -, rfl⟩ := longBracket?_eq_some found
                rw [found]
                exact congrArg some (by omega)
              · obtain ⟨kind, length⟩ := Lexeme.mk.inj h
                cases kind
                have none : cs = [] := eq_nil_of_length_eq_zero length.symm
                subst none
                have same : c = '[' := by simpa using bracket
                subst same
                have listed : (Symbol.openBracket, "[") ∈ Symbol.all := by decide
                exact .symbol listed rfl
            · split at h
              · cases h
              · split at h
                · cases h
                · exact symbolLexeme_form h

/-! ## The ends of tokens -/

theorem quotedLength_last {q : Char} {s : QuoteState} {n : Nat}
    (h : quotedLength q s cs = (true, n)) : (cs.take n).getLast? = some q := by
  induction cs generalizing s n with
  | nil => cases s <;> cases h
  | cons c cs ih =>
    rcases quotedLength_step q s c with ⟨closed, quote, last⟩ | ⟨s', more⟩
    · rw [last] at h
      cases h
      simp [quote rfl]
    · rw [more] at h
      obtain ⟨closed, length⟩ := Prod.ext_iff.mp h
      have last := ih (s := s') (n := (quotedLength q s' cs).2) (Prod.ext closed rfl)
      have length : n = (quotedLength q s' cs).2 + 1 := length.symm
      rw [length, take_succ_cons, getLast?_cons, last]
      rfl

theorem TokenForm.ends (h : TokenForm c cs rest k) :
    isBlank c = false ∧ ∀ d ∈ (c :: cs).getLast?, isBlank d = false := by
  have solid (h : ∀ d ∈ c :: cs, isBlank d = false) : isBlank c = false ∧ ∀ d ∈ (c :: cs).getLast?, isBlank d = false :=
    ⟨h c mem_cons_self, fun d hd => h d (mem_of_getLast? hd)⟩
  cases h with
  | name start goesOn | keyword start goesOn =>
    refine solid (forall_mem_cons.mpr ⟨?_, fun d hd => ?_⟩)
    · exact isBlank_eq_false (isNameChar_of_isNameStart start)
    · exact isBlank_eq_false (all_eq_true.mp goesOn d hd)
  | number length =>
    have plain := (numeral_solid (c :: (cs ++ rest))).plain
    rw [length, take_succ_cons, take_left] at plain
    exact solid plain
  | quoted quote closed =>
    have blank : isBlank c = false := by rcases quote with rfl | rfl <;> decide
    refine ⟨blank, fun d hd => ?_⟩
    have last := quotedLength_last closed
    rw [take_left] at last
    rw [getLast?_cons, last] at hd
    cases hd
    exact blank
  | long bracket closed =>
    subst bracket
    obtain ⟨level, body, text, -⟩ := longBracket?_whole (t := '[' :: cs) closed
    refine ⟨by decide, fun d hd => ?_⟩
    have last : '[' :: cs = '[' :: List.replicate level '=' ++
        '[' :: (body ++ ']' :: List.replicate level '=') ++ [']'] := by simp [text, closer]
    rw [last, getLast?_concat] at hd
    cases hd
    decide
  | @symbol s text listed spelled =>
    have all : (Symbol.all.all fun p => p.2.toList.all fun c => !isBlank c) = true := by decide +kernel
    have mine := all_eq_true.mp all _ listed
    rw [spelled] at mine
    exact solid fun d hd => by simpa using all_eq_true.mp mine d hd

/-! ## Blanks -/

theorem numeralLength_eq_zero (hd : c.isDigit = false) (hp : c ≠ '.') (cs : Chars) :
    numeralLength (c :: cs) = 0 := by
  refine Nat.eq_zero_of_not_pos fun h => ?_
  rcases numeralLength_pos_iff.mp h with digit | ⟨point, -⟩
  · rw [hd] at digit
    cases digit
  · exact hp point

theorem symbolLexeme_eq_dropped (h : isBlank c) (cs : Chars) :
    symbolLexeme (c :: cs) = ⟨.dropped, 0⟩ := by
  have none : symbolAt? (c :: cs) = none := by
    unfold symbolAt?
    rw [Option.map_eq_none_iff, find?_eq_none]
    intro p listed starts
    have all : (Symbol.all.all fun p => p.2.toList.head?.any fun c => !isBlank c) = true := by
      decide +kernel
    have first := all_eq_true.mp all p listed
    obtain ⟨rest, whole⟩ := startsWith_iff.mp starts
    cases spelled : p.2.toList with
    | nil => simp [spelled] at first
    | cons d ds =>
      rw [spelled] at whole first
      obtain ⟨rfl, -⟩ := List.cons.inj whole
      simp [h] at first
  unfold symbolLexeme
  rw [none]

theorem lexeme_eq_dropped (h : isBlank c) (space : (c == ' ' || c == '\t') = false)
    (line : (isEndOfLine c || c == '\x0c') = false) (text : Chars) :
    lexeme c text = ⟨.dropped, 0⟩ := by
  have name : isNameStart c = false := by
    refine Bool.eq_false_iff.mpr fun start => ?_
    rw [isBlank_eq_false (isNameChar_of_isNameStart start)] at h
    cases h
  have digit : c.isDigit = false := by
    refine Bool.eq_false_iff.mpr fun digit => ?_
    rw [isBlank_of_isDigit digit] at h
    cases h
  have other {d : Char} (hd : isBlank d = false) : c ≠ d := by
    rintro rfl
    rw [hd] at h
    cases h
  have quote : (c == '"' || c == '\'') = false := by
    simp [other (d := '"') (by decide), other (d := '\'') (by decide)]
  have bracket : (c == '[') = false := by simp [other (d := '[') (by decide)]
  have dash : (c == '-') = false := by simp [other (d := '-') (by decide)]
  have hash : (c == '#') = false := by simp [other (d := '#') (by decide)]
  unfold lexeme
  simp only [space, line, name, numeralLength_eq_zero digit (other (by decide)), quote, bracket, dash, hash,
    symbolLexeme_eq_dropped h, Bool.false_and, Bool.false_eq_true, if_false, Nat.lt_irrefl,
    gt_iff_lt]

theorem lexeme_of_isBlank (h : isBlank c) (text : Chars) :
    (∀ k, (lexeme c text).reading ≠ .token k) ∧ ∀ d ∈ text.take (lexeme c text).tail, isBlank d := by
  have run {p : Char → Bool} (hp : ∀ d, p d → isBlank d) :
      ∀ d ∈ text.take (runLength p text), isBlank d := by
    intro d hd
    rw [take_runLength] at hd
    exact hp d (all_eq_true.mp all_takeWhile d hd)
  by_cases space : c == ' ' || c == '\t'
  · rw [lexeme, if_pos space]
    refine ⟨fun _ h => (by cases h), run fun d hd => ?_⟩
    rcases Bool.or_eq_true_iff.mp hd with h | h <;> rw [beq_iff_eq.mp h] <;> decide
  · by_cases line : isEndOfLine c || c == '\x0c'
    · rw [lexeme, if_neg space, if_pos line]
      refine ⟨fun _ h => (by cases h), run fun d hd => ?_⟩
      simp only [isEndOfLine, Bool.or_eq_true, beq_iff_eq] at hd
      rcases hd with (rfl | rfl) | rfl <;> decide
    · rw [lexeme_eq_dropped h (Bool.eq_false_iff.mpr space) (Bool.eq_false_iff.mpr line)]
      exact ⟨fun _ h => (by cases h), forall_mem_nil _⟩

theorem Scans.closeParen_in_gap {q : Cursor} {gap ys xs zs : Chars} (h : Scans p gap ys [] q)
    (found : gap = xs ++ ')' :: zs) : ∃ c ∈ xs, isBlank c = false := by
  generalize none : ([] : List Token) = ts at h
  induction h generalizing xs with
  | nil => simp at found
  | @cons p q c cs rest ys r ts h _ ih =>
    obtain ⟨noToken, rfl⟩ := append_eq_nil_iff.mp none.symm
    cases xs with
    | nil =>
      obtain ⟨rfl, -⟩ := List.cons.inj found
      have token : ∃ n, lexeme ')' (cs ++ (rest ++ ys)) = ⟨.token (.symbol .closeParen), n⟩ := ⟨_, rfl⟩
      obtain ⟨n, token⟩ := token
      rw [token] at h
      cases h
      cases noToken
    | cons d xs =>
      obtain ⟨rfl, whole⟩ := List.cons.inj found
      cases blank : isBlank c with
      | false => exact ⟨c, mem_cons_self, blank⟩
      | true =>
        have blanks := (lexeme_of_isBlank blank (cs ++ (rest ++ ys))).2
        rw [h, take_left] at blanks
        rcases append_eq_append_iff.mp whole with ⟨us, rfl, more⟩ | ⟨us, rfl, more⟩
        · obtain ⟨d, hd, solid⟩ := ih more rfl
          exact ⟨d, mem_cons_of_mem _ (mem_append_right _ hd), solid⟩
        · cases us with
          | nil =>
            obtain ⟨d, hd, -⟩ := ih (more.symm.trans (nil_append _).symm) rfl
            cases hd
          | cons u us =>
            obtain ⟨rfl, -⟩ := List.cons.inj more
            have := blanks ')' (by simp)
            cases this

/-! ## Runs of tokens -/

structure Trimmed (cs : Chars) : Prop where
  first : ∃ c rest, cs = c :: rest ∧ isBlank c = false
  last : ∃ front d, cs = front ++ [d] ∧ isBlank d = false

theorem TokenForm.trimmed (h : TokenForm c cs rest k) : Trimmed (c :: cs) := by
  refine ⟨⟨c, cs, rfl, h.ends.1⟩, ?_⟩
  have last := dropLast_concat_getLast (cons_ne_nil c cs)
  exact ⟨_, _, last.symm, h.ends.2 _ (getLast?_eq_some_getLast _)⟩

theorem Trimmed.around {xs ys : Chars} (hx : Trimmed xs) (hy : Trimmed ys) (gap : Chars) :
    Trimmed (xs ++ (gap ++ ys)) := by
  obtain ⟨c, rest, rfl, first⟩ := hx.first
  obtain ⟨front, d, rfl, last⟩ := hy.last
  exact ⟨⟨c, _, rfl, first⟩, ⟨c :: rest ++ (gap ++ front), d, by simp, last⟩⟩

theorem Cursor.stop_token (p : Cursor) (k : Kind) (c : Char) (cs : Chars) :
    (p.token k (c :: cs)).stop + 1 = p.offset + (c :: cs).length := by
  simp [Cursor.token, Nat.add_assoc]

theorem scanFrom_run {ts : List Token} (h : scanFrom 0 p text = t :: ts ++ us) :
    ∃ gap piece rest q q', text = gap ++ (piece ++ rest) ∧ Scans p gap (piece ++ rest) [] q ∧
      Scans q piece rest (t :: ts) q' ∧ us = scanFrom 0 q' rest ∧ Trimmed piece ∧
      t.start = q.offset ∧ ((t :: ts).getLast (cons_ne_nil t ts)).stop + 1 = q'.offset := by
  induction ts generalizing p text t with
  | nil =>
    obtain ⟨gap, c, cs, rest, q, rfl, cut, found, same, others⟩ := scanFrom_next h
    refine ⟨gap, c :: cs, rest, q, q.after (.token t.kind) (c :: cs), rfl, cut, ?_, others,
      (tokenForm found).trimmed, congrArg Token.start same, ?_⟩
    · have one := Scans.single (q := q) found
      simpa [Cursor.tokens, ← same] using one
    · rw [Cursor.offset_after, ← Cursor.stop_token q t.kind, ← same]
      rfl
  | cons u ts ih =>
    obtain ⟨gap, c, cs, rest, q, rfl, cut, found, same, others⟩ := scanFrom_next h
    obtain ⟨gap', piece, rest, q₁, q', rfl, cut', more, left, trimmed, -, stop⟩ := ih others.symm
    refine ⟨gap, c :: (cs ++ (gap' ++ piece)), rest, q, q', by simp, by simpa using cut, ?_, left,
      (tokenForm found).trimmed.around trimmed gap', congrArg Token.start same, ?_⟩
    · have next := cut'.append more
      have all := Scans.cons (p := q) (by simpa using found) next
      simpa [Cursor.tokens, ← same] using all
    · rw [getLast_cons (cons_ne_nil u ts)]
      exact stop

end LuaTune.Lua
