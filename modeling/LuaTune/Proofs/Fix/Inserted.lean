import LuaTune.Proofs.Finding.Kinds
import LuaTune.Proofs.Fix.CallTexts
import LuaTune.Proofs.Text.LineTables

/-!
# The value that is appended

`table.insert(t, v)` becomes `t[#t+1] = v`, with `v` cut out of the text of the call: from its first
comma to the parenthesis that closes its first one. That is the second argument exactly if no comma
comes before the one that separates the arguments, the parenthesis found is the last one, and
nothing but blanks stands around the argument.
-/

namespace LuaTune.Text

open List hiding find?
open Lua

/-! ## Stripping -/

theorem stripLeft_eq_nil {cs : Chars} : stripLeft cs = [] ↔ ∀ c ∈ cs, isBlank c :=
  dropWhile_eq_nil_iff

theorem stripLeft_append_cons (xs : Chars) {d : Char} (h : isBlank d = false) (ys : Chars) :
    stripLeft (xs ++ d :: ys) = stripLeft xs ++ d :: ys := by
  unfold stripLeft
  induction xs with
  | nil => simp [h]
  | cons x xs ih =>
    rw [cons_append, dropWhile_cons, dropWhile_cons, ih]
    split <;> rfl

theorem strip_around {s : Chars} (h : Trimmed s) (u w : Chars) :
    strip (u ++ (s ++ w)) = stripLeft u ++ (s ++ stripRight w) := by
  obtain ⟨c, rest, first, solid⟩ := h.first
  obtain ⟨front, d, last, solid'⟩ := h.last
  have left : stripLeft (u ++ (s ++ w)) = stripLeft u ++ (s ++ w) := by
    rw [first, cons_append, stripLeft_append_cons u solid]
  rw [strip, left, last, append_assoc, append_assoc, ← append_assoc,
    singleton_append, stripRight_append_cons _ solid']
  simp

theorem strip_around_eq_iff {s : Chars} (h : Trimmed s) (u w : Chars) :
    strip (u ++ (s ++ w)) = s ↔ (∀ c ∈ u, isBlank c) ∧ ∀ c ∈ w, isBlank c := by
  rw [strip_around h, ← stripLeft_eq_nil, ← stripRight_eq_nil]
  constructor
  · intro same
    have length := congrArg List.length same
    simp only [length_append] at length
    exact ⟨eq_nil_of_length_eq_zero (by omega), eq_nil_of_length_eq_zero (by omega)⟩
  · rintro ⟨left, right⟩
    simp [left, right]

theorem length_strip_le (cs : Chars) : (strip cs).length ≤ cs.length := by
  unfold strip stripRight dropEndWhile stripLeft
  rw [length_reverse]
  refine Nat.le_trans (dropWhile_sublist _).length_le ?_
  rw [length_reverse]
  exact (dropWhile_sublist _).length_le

theorem strip_append_of_blank {u : Chars} (h : ∀ c ∈ u, isBlank c) (cs : Chars) :
    strip (u ++ cs) = strip cs := by
  unfold strip stripLeft
  rw [dropWhile_append_of_pos h]

end LuaTune.Text

namespace LuaTune.Fix

open List hiding find?
open Lua Text

/-! ## What is cut out of a call -/

/-- No comma follows the first parenthesis of the text. -/
def CommaFree (front : Chars) : Prop := ',' ∉ front.dropWhile (· != '(')

/-- The parenthesis that is found to close the first one of a call is its last character. -/
def ClosesAtEnd (call : Chars) : Prop := ∃ paren close, findChar? '(' call = some paren ∧
    closingParen? '(' none 0 (call.drop (paren + 1)) = some close ∧ paren + close + 2 = call.length

theorem closingParen?_get {previous : Char} {quote : Option Char} {depth : Nat} {cs : Chars} {k : Nat}
    (h : closingParen? previous quote depth cs = some k) : ∃ xs ys, cs = xs ++ ')' :: ys ∧ k = xs.length := by
  induction cs generalizing previous quote depth k with
  | nil => cases h
  | cons c cs ih =>
    have more {previous : Char} {quote : Option Char} {depth : Nat}
        (h : (closingParen? previous quote depth cs).map (· + 1) = some k) :
        ∃ xs ys, c :: cs = xs ++ ')' :: ys ∧ k = xs.length := by
      obtain ⟨j, found, rfl⟩ := Option.map_eq_some_iff.mp h
      obtain ⟨xs, ys, rfl, rfl⟩ := ih found
      exact ⟨c :: xs, ys, rfl, rfl⟩
    unfold closingParen? at h
    split at h
    · exact more h
    · split at h
      · exact more h
      · split at h
        · exact more h
        · split at h
          · next close =>
            split at h
            · cases h
              exact ⟨[], cs, by rw [close]; rfl, rfl⟩
            · exact more h
          · exact more h

section

variable {pre x y : Chars}

theorem insertedValue?_eq (hp : '(' ∉ pre) (hx : ',' ∉ x) :
    insertedValue? (pre ++ '(' :: (x ++ ',' :: y)) =
      (closingParen? '(' none 0 (x ++ ',' :: y)).map fun k => strip (y.take (k - (x.length + 1))) := by
  have comma : findFrom? [','] pre.length (pre ++ '(' :: (x ++ ',' :: y)) =
      some (pre.length + 1 + x.length) := by
    have later : ',' ∉ '(' :: x := by simpa using hx
    have found : find? [','] ('(' :: x ++ ',' :: y) = some (x.length + 1) := by
      rw [find?_append_of_not_mem _ later]
      simp [find?, startsWith, stripPrefix?]
    unfold findFrom?
    rw [if_pos (by simp), drop_left, ← cons_append, found, Option.map_some]
    exact congrArg some (by omega)
  have inner : (pre ++ '(' :: (x ++ ',' :: y)).drop (pre.length + 1) = x ++ ',' :: y := by
    rw [← drop_drop, drop_left]
    rfl
  have after : (pre ++ '(' :: (x ++ ',' :: y)).drop (pre.length + 1 + x.length + 1) = y := by
    rw [Nat.add_assoc, ← drop_drop, inner, ← drop_drop, drop_left]
    rfl
  unfold insertedValue?
  simp only [findChar?_append hp, comma, inner, Option.bind_eq_bind, Option.bind_some]
  cases closingParen? '(' none 0 (x ++ ',' :: y) with
  | none => rfl
  | some k =>
    have width : pre.length + 1 + k - (pre.length + 1 + x.length + 1) = k - (x.length + 1) := by omega
    simp [slice, after, width]

theorem closesAtEnd_iff (hp : '(' ∉ pre) {k : Nat} (found : closingParen? '(' none 0 y = some k) :
    ClosesAtEnd (pre ++ '(' :: y) ↔ k + 1 = y.length := by
  have inner : (pre ++ '(' :: y).drop (pre.length + 1) = y := by
    rw [← drop_drop, drop_left]
    rfl
  constructor
  · rintro ⟨paren, close, first, closing, whole⟩
    rw [findChar?_append hp] at first
    cases first
    rw [inner, found] at closing
    cases closing
    simp only [length_append, length_cons] at whole
    omega
  · intro last
    refine ⟨pre.length, k, findChar?_append hp _, by rw [inner, found], ?_⟩
    simp only [length_append, length_cons]
    omega

end

/-- What is cut out is the second argument exactly if it is started where the argument starts and
ended where it ends, provided that one of the two is so. -/
theorem insertedValue?_eq_iff {front left value right v : Chars} (opens : '(' ∈ front)
    (trimmed : Trimmed value)
    (gap : ∀ xs zs, right = xs ++ ')' :: zs → ∃ c ∈ xs, isBlank c = false)
    (taken : insertedValue? (front ++ ',' :: (left ++ (value ++ (right ++ [')'])))) = some v)
    (half : ClosesAtEnd (front ++ ',' :: (left ++ (value ++ (right ++ [')'])))) ∨
      CommaFree front ∧ ∀ c ∈ left, isBlank c) :
    v = value ↔ (CommaFree front ∧ ∀ c ∈ left, isBlank c) ∧
      ClosesAtEnd (front ++ ',' :: (left ++ (value ++ (right ++ [')'])))) ∧ ∀ c ∈ right, isBlank c := by
  obtain ⟨pre, post, rfl, hp⟩ := eq_append_cons_of_mem opens
  have commaFree : CommaFree (pre ++ '(' :: post) ↔ ',' ∉ post := by
    unfold CommaFree
    have others : ∀ c ∈ pre, (c != '(') = true := fun c hc => bne_iff_ne.mpr fun same => hp (same ▸ hc)
    rw [dropWhile_append_of_pos others]
    simp
  -- `u` is what is taken in front of the argument
  obtain ⟨x, u, hx, first, started⟩ : ∃ x u, ',' ∉ x ∧ post ++ ',' :: left = x ++ ',' :: u ∧
      ((∀ c ∈ u, isBlank c) ↔ CommaFree (pre ++ '(' :: post) ∧ ∀ c ∈ left, isBlank c) := by
    by_cases found : ',' ∈ post
    · obtain ⟨x, z, rfl, hx⟩ := eq_append_cons_of_mem found
      refine ⟨x, z ++ ',' :: left, hx, by simp, ?_⟩
      constructor
      · intro blank
        have := blank ',' (by simp)
        cases this
      · exact fun h => absurd found (commaFree.mp h.1)
    · exact ⟨post, left, found, rfl, by simp [commaFree, found]⟩
  have text : pre ++ '(' :: post ++ ',' :: (left ++ (value ++ (right ++ [')']))) =
      pre ++ '(' :: (x ++ ',' :: (u ++ (value ++ (right ++ [')'])))) := by
    have := congrArg (fun cs => pre ++ '(' :: (cs ++ (value ++ (right ++ [')'])))) first
    simpa using this
  rw [text] at taken half ⊢
  rw [insertedValue?_eq hp hx] at taken
  obtain ⟨k, closing, rfl⟩ := Option.map_eq_some_iff.mp taken
  rw [closesAtEnd_iff hp closing] at half ⊢
  rw [← started] at half ⊢
  simp only [length_append, length_cons, length_nil] at half ⊢
  by_cases ends : k + 1 = x.length + (u.length + (value.length + (right.length + (0 + 1))) + 1)
  · have piece : (u ++ (value ++ (right ++ [')']))).take (k - (x.length + 1)) = u ++ (value ++ right) := by
      have width : k - (x.length + 1) = (u ++ (value ++ right)).length := by
        simp only [length_append]
        omega
      have whole : u ++ (value ++ (right ++ [')'])) = u ++ (value ++ right) ++ [')'] := by simp
      rw [whole, width, take_left]
    rw [piece, strip_around_eq_iff trimmed]
    exact ⟨fun h => ⟨h.1, ends, h.2⟩, fun h => ⟨h.1, h.2.2⟩⟩
  · -- the parenthesis that is found stands in the argument or in a comment after it
    have blank : ∀ c ∈ u, isBlank c := half.resolve_left ends
    refine ⟨fun same => absurd same ?_, fun h => absurd h.2.1 ends⟩
    obtain ⟨xs, ys, parts, rfl⟩ := closingParen?_get closing
    have lengths := congrArg List.length parts
    simp only [length_append, length_cons, length_nil] at lengths
    rw [take_append, strip_append_of_blank fun c hc => blank c (mem_of_mem_take hc)]
    obtain ⟨_, _, nonempty, -⟩ := trimmed.first
    have positive : 0 < value.length := by rw [nonempty]; exact Nat.succ_pos _
    by_cases inside : xs.length - (x.length + 1) - u.length < value.length
    · intro same
      have bound := length_strip_le
        ((value ++ (right ++ [')'])).take (xs.length - (x.length + 1) - u.length))
      rw [same, length_take] at bound
      omega
    · have behind := congrArg (List.drop ((x ++ ',' :: (u ++ value)).length)) parts
      have whole : x ++ ',' :: (u ++ (value ++ (right ++ [')']))) =
          x ++ ',' :: (u ++ value) ++ (right ++ [')']) := by simp
      rw [whole, drop_left, drop_append_of_le_length (by simp; omega)] at behind
      generalize width : xs.drop (x ++ ',' :: (u ++ value)).length = w at behind
      have length := congrArg List.length width
      simp only [length_drop, length_append, length_cons] at length
      -- what stands between the argument and the parenthesis
      obtain ⟨z, zs, rfl⟩ : ∃ z zs, right = w ++ z :: zs := by
        rcases append_eq_append_iff.mp behind with ⟨us, rfl, -⟩ | ⟨us, rfl, -⟩
        · simp only [length_append] at length lengths
          omega
        · cases us with
          | nil =>
            simp only [append_nil] at ends inside
            omega
          | cons z zs => exact ⟨z, zs, rfl⟩
      have found : z = ')' := by
        rw [append_assoc, append_cancel_left_eq] at behind
        exact (List.cons.inj behind).1
      obtain ⟨c, hc, solid⟩ := gap w zs (by rw [found])
      have piece : (value ++ (w ++ z :: zs ++ [')'])).take (xs.length - (x.length + 1) - u.length) =
          value ++ w := by
        have split : value ++ (w ++ z :: zs ++ [')']) = (value ++ w) ++ (z :: zs ++ [')']) := by simp
        rw [split, take_append_of_le_length (by simp; omega), take_of_length_le (by simp; omega)]
      rw [piece]
      intro same
      have blanks := ((strip_around_eq_iff trimmed [] w).mp same).2
      rw [blanks c hc] at solid
      cases solid

/-! ## Where the arguments stand -/

open Grammar

/-- The tokens of a call with two arguments: those of the second one are `head` and `more`. -/
structure TwoArguments (source : Chars) (first second : Expr) (close : Token) where
  before : List Token
  opening : Token
  left : List Token
  comma : Token
  head : Token
  more : List Token
  after : List Token
  tokens : scan source = before ++ opening :: (left ++ comma :: (head :: more ++ close :: after))
  opens : opening.kind = .symbol .openParen
  separates : comma.kind = .symbol .comma
  closes : close.kind = .symbol .closeParen
  reads_first : Reads (.chain .or) (left ++ comma :: (head :: more ++ close :: after)) (.expr first)
    (comma :: (head :: more ++ close :: after))
  reads_second : Reads (.chain .or) (head :: more ++ close :: after) (.expr second) (close :: after)

variable {source : Chars}

theorem exists_twoArguments {callee a b : Expr} {close : Token}
    (h : Encloses (scan source) callee [a, b] close) :
    ∃ w : TwoArguments source a b close, callee.NamedIn w.before := by
  obtain ⟨before, opening, inner, after, tokens, opens, reads, named⟩ := h
  generalize inside : inner ++ close :: after = ts at tokens reads
  cases reads with
  | argumentsSome _ args closes =>
    cases args with
    | exprsMore first separates others =>
      cases others with
      | exprsOne second _ =>
        obtain ⟨left, rfl, -⟩ := first.takes
        obtain ⟨right, rfl, positive⟩ := second.takes
        cases right with
        | nil => cases positive
        | cons head more =>
          exact ⟨⟨before, opening, left, _, head, more, after, tokens, opens, separates, closes, first,
            second⟩, named⟩
      | exprsMore _ _ others => cases others

namespace TwoArguments

variable {source : Chars} {first second : Expr} {close : Token}
  (w : TwoArguments source first second close)

def last : Token := (w.head :: w.more).getLast (cons_ne_nil _ _)

def secondText : Chars := slice source w.head.start (w.last.stop + 1)

def leftGap : Chars := slice source (w.comma.stop + 1) w.head.start

def rightGap : Chars := slice source (w.last.stop + 1) close.start

end TwoArguments

theorem single_of_form {c : Char} {cs rest : Chars} {k : Kind} {s : Symbol}
    (h : TokenForm c cs rest k) (kind : k = .symbol s) (d : Char)
    (spelled : ∀ text, (s, text) ∈ Symbol.all → text.toList = [d]) : c = d ∧ cs = [] := by
  subst kind
  obtain ⟨text, listed, whole⟩ := spelling_of_form h
  exact List.cons.inj (whole.symm.trans (spelled text listed))

theorem slice_between {a b : Nat} (front text rest : Chars)
    (h : source = front ++ (text ++ rest)) (ha : a = front.length) (hb : b = front.length + text.length) : slice source a b = text := by
  subst h ha hb
  rw [slice, drop_left, Nat.add_sub_cancel_left, take_left]

theorem TwoArguments.callText {first second : Expr} {close : Token}
    (w : TwoArguments source first second close) {m : Token} (hm : m ∈ w.before) :
    slice source m.start (close.stop + 1) = slice source m.start w.comma.start ++
        ',' :: (w.leftGap ++ (w.secondText ++ (w.rightGap ++ [')']))) ∧
      '(' ∈ slice source m.start w.comma.start ∧ Trimmed w.secondText ∧
      ∀ xs zs, w.rightGap = xs ++ ')' :: zs → ∃ c ∈ xs, isBlank c = false := by
  obtain ⟨front, between, whole⟩ := append_of_mem hm
  have tokens := w.tokens
  rw [whole, append_assoc, cons_append] at tokens
  -- the texts are cut off one after the other
  obtain ⟨x₀, c₀, cs₀, r₀, q₀, source_eq, cut₀, found₀, m_eq, tokens₀⟩ := scanFrom_cut tokens
  obtain ⟨x₁, c₁, cs₁, r₁, q₁, rfl, cut₁, found₁, opening_eq, tokens₁⟩ := scanFrom_cut tokens₀.symm
  obtain ⟨x₂, c₂, cs₂, r₂, q₂, rfl, cut₂, found₂, comma_eq, tokens₂⟩ := scanFrom_cut tokens₁.symm
  obtain ⟨left, text, r₃, q₃, q₄, rfl, cut₃, run, tokens₃, trimmed, start, stop⟩ :=
    scanFrom_run tokens₂.symm
  obtain ⟨right, c₄, cs₄, r₄, q₅, rfl, cut₄, found₄, close_eq, -⟩ := scanFrom_next tokens₃.symm
  obtain ⟨rfl, rfl⟩ := single_of_form (tokenForm found₁) w.opens '(' (by simp [Symbol.all])
  obtain ⟨rfl, rfl⟩ := single_of_form (tokenForm found₂) w.separates ',' (by simp [Symbol.all])
  obtain ⟨rfl, rfl⟩ := single_of_form (tokenForm found₄) w.closes ')' (by simp [Symbol.all])
  have offset₀ : q₀.offset = x₀.length := by rw [cut₀.offset]; exact Nat.zero_add _
  have offset₁ := cut₁.offset
  have offset₂ := cut₂.offset
  have offset₃ := cut₃.offset
  have offset₄ := run.offset
  have offset₅ := cut₄.offset
  simp only [Cursor.offset_after, length_cons, length_nil] at offset₁ offset₂ offset₃
  have m_start : m.start = x₀.length := (congrArg Token.start m_eq).trans offset₀
  have comma_start : w.comma.start = q₂.offset := congrArg Token.start comma_eq
  have comma_stop : w.comma.stop = q₂.offset := congrArg Token.stop comma_eq
  have close_start : close.start = q₅.offset := congrArg Token.start close_eq
  have close_stop : close.stop = q₅.offset := congrArg Token.stop close_eq
  have text_eq : w.secondText = text := by
    refine slice_between (x₀ ++ c₀ :: (cs₀ ++ (x₁ ++ '(' :: (x₂ ++ ',' :: left)))) text
      (right ++ ')' :: r₄) (by simp [source_eq]) ?_ ?_
    · simp only [length_append, length_cons]
      omega
    · simp only [TwoArguments.last, length_append, length_cons]
      omega
  have left_eq : w.leftGap = left := by
    refine slice_between (x₀ ++ c₀ :: (cs₀ ++ (x₁ ++ '(' :: (x₂ ++ [','])))) left
      (text ++ (right ++ ')' :: r₄)) (by simp [source_eq]) ?_ ?_
    · simp only [length_append, length_cons, length_nil]
      omega
    · simp only [length_append, length_cons, length_nil]
      omega
  have right_eq : w.rightGap = right := by
    refine slice_between (x₀ ++ c₀ :: (cs₀ ++ (x₁ ++ '(' :: (x₂ ++ ',' :: (left ++ text))))) right
      (')' :: r₄) (by simp [source_eq]) ?_ ?_
    · simp only [TwoArguments.last, length_append, length_cons]
      omega
    · simp only [length_append, length_cons]
      omega
  have front_eq : slice source m.start w.comma.start = c₀ :: (cs₀ ++ (x₁ ++ '(' :: x₂)) := by
    refine slice_between x₀ _ (',' :: (left ++ (text ++ (right ++ ')' :: r₄)))) (by simp [source_eq])
      m_start ?_
    simp only [length_append, length_cons]
    omega
  have call_eq : slice source m.start (close.stop + 1) =
      c₀ :: (cs₀ ++ (x₁ ++ '(' :: x₂)) ++ ',' :: (left ++ (text ++ (right ++ [')']))) := by
    refine slice_between x₀ _ r₄ (by simp [source_eq]) m_start ?_
    simp only [length_append, length_cons, length_nil]
    omega
  rw [call_eq, front_eq, text_eq, left_eq, right_eq]
  exact ⟨rfl, by simp, trimmed, fun xs zs => cut₄.closeParen_in_gap⟩

/-! ## The value that is assigned -/

open Analysis Rules

theorem mem_appendEdits {f : Finding} {e : Edit} (h : e ∈ appendEdits source f) :
    ∃ n start stop table v, f.details.node? "node" = some n ∧ nodeSpan source n = (some start, stop) ∧
      nonEmpty? f "table" = some table ∧ insertedValue? (sourceFrom source start stop) = some v ∧
      e = editAt start stop (table ++ "[#".toList ++ table ++ "+1] = ".toList ++ v) := by
  obtain ⟨⟨start, stop⟩, span, made⟩ := Option.bind_eq_some_iff.mp (Option.mem_toList.mp h)
  obtain ⟨table, named, made⟩ := Option.bind_eq_some_iff.mp made
  obtain ⟨v, taken, made⟩ := Option.bind_eq_some_iff.mp made
  obtain ⟨n, node, span⟩ := Option.bind_eq_some_iff.mp span
  obtain ⟨first, known, span⟩ := Option.bind_eq_some_iff.mp span
  cases span
  split at made
  · cases made
  · cases made
    exact ⟨n, start, _, table, v, node, Prod.ext known rfl, named, taken, rfl⟩

theorem nonEmpty?_eq_some {f : Finding} {key text : String} {cs : Chars}
    (h : nonEmpty? f key = some cs) (kept : f.details.text? key = some text) : cs = text.toList := by
  rw [nonEmpty?, kept, Option.bind_some] at h
  split at h
  · cases h
  · exact (Option.some.inj h).symm

/-- A call of `table.insert` that is turned into an assignment assigns what stands in its text between
the first comma and the parenthesis that closes the first one. This is the second argument if the
comma and the parenthesis are those of the call and only blanks are around the argument; if one of
the two is right, only then. -/
theorem appended_value_iff {settings : Settings} {source : Chars} {findings : List Finding}
    {f : Finding} {tree : Chunk} {e : Edit} (parsed : Chunk.parse? source = some tree)
    (found : analyzeSource settings source = .ok findings) (hf : f ∈ findings)
    (pattern : f.pattern = "table_insert_append") (he : e ∈ appendEdits source f) :
    ∃ callee table value close,
      f.details.node? "node" = some (.expr (.call callee [table, value] (some close))) ∧
      ∃ (w : TwoArguments source table value close) (m : Token) (v : Chars),
        m ∈ w.before ∧ m.text = "table".toList ∧
        e = editAt m.start (some (close.stop + 1))
          (table.text.toList ++ "[#".toList ++ table.text.toList ++ "+1] = ".toList ++ v) ∧
        insertedValue? (slice source m.start (close.stop + 1)) = some v ∧
        (ClosesAtEnd (slice source m.start (close.stop + 1)) ∨
            CommaFree (slice source m.start w.comma.start) ∧ (∀ c ∈ w.leftGap, isBlank c) →
          (v = w.secondText ↔
            (CommaFree (slice source m.start w.comma.start) ∧ ∀ c ∈ w.leftGap, isBlank c) ∧
              ClosesAtEnd (slice source m.start (close.stop + 1)) ∧ ∀ c ∈ w.rightGap, isBlank c)) := by
  obtain ⟨t, visited, rfl⟩ := exists_visit parsed found
  have listed : f.pattern ∈ formPatterns := by rw [pattern]; simp [formPatterns]
  obtain ⟨call, hc, rule⟩ := Finding.exists_form hf listed
  have rule : appendFinding? t.lines call = some f := by
    rcases rule with append | length | power
    · exact append
    · obtain ⟨-, -, ⟨about, -⟩ | ⟨about, -⟩⟩ := of_lengthFinding? length <;>
        exact absurd (pattern.symm.trans about.pattern) (by decide)
    · exact absurd (pattern.symm.trans (of_powerFinding? power).1.pattern) (by decide)
  obtain ⟨about, fullName, table, value, args, text⟩ := of_appendFinding? rule
  have node := about.node
  obtain ⟨callee, last, isCall, name, place⟩ :=
    node_of_dottedName parsed visited hc (by rw [fullName]; decide)
  rw [args] at isCall place
  rw [isCall] at node
  obtain ⟨close, rfl, encloses⟩ | ⟨single, -⟩ := place
  swap
  · cases single
  obtain ⟨w, named⟩ := exists_twoArguments encloses
  have sub : w.before ⊆ scan source := by
    rw [w.tokens]
    exact subset_append_left _ _
  rw [fullName] at name
  obtain ⟨form, m, fn, rfl, hm, mkind, mtext, -⟩ :=
    callee_of_fullName "table" "insert" sub named name (by decide)
  obtain ⟨n, start, stop, shown, v, node', span, kept, taken, made⟩ := mem_appendEdits he
  cases node.symm.trans node'
  rw [nodeSpan, exprSpan_dotted (sub hm) mkind] at span
  cases span
  cases nonEmpty?_eq_some kept text
  obtain ⟨whole, opens, trimmed, gap⟩ := w.callText hm
  refine ⟨_, table, value, close, node, w, m, v, hm, mtext, made, taken, fun half => ?_⟩
  rw [sourceFrom, whole] at taken
  rw [whole] at half ⊢
  exact insertedValue?_eq_iff opens trimmed gap taken half

/-! ## A parenthesis in quotes and a comma in the first argument -/

def anyAppend (source : Chars) (test : Expr → Token → Edit → Bool) : Bool :=
  match Chunk.parse? source, analyzeSource {} source with
  | some _, .ok findings => findings.any fun f =>
    f.pattern == "table_insert_append" &&
      match f.details.node? "node" with
      | some (.expr (.call _ [_, value] (some close))) => (appendEdits source f).any (test value close)
      | _ => false
  | _, _ => false

theorem of_anyAppend {test : Expr → Token → Edit → Bool}
    (h : anyAppend source test) : ∃ tree findings f e callee table value close,
      Chunk.parse? source = some tree ∧ analyzeSource {} source = .ok findings ∧ f ∈ findings ∧
      f.pattern = "table_insert_append" ∧ e ∈ appendEdits source f ∧
      f.details.node? "node" = some (.expr (.call callee [table, value] (some close))) ∧
      test value close e = true := by
  unfold anyAppend at h
  split at h
  · next tree findings parsed found =>
    obtain ⟨f, hf, passed⟩ := any_eq_true.mp h
    obtain ⟨pattern, passed⟩ := Bool.and_eq_true_iff.mp passed
    split at passed
    · next node =>
      obtain ⟨e, he, passed⟩ := any_eq_true.mp passed
      exact ⟨tree, findings, f, e, _, _, _, _, parsed, found, hf, eq_of_beq pattern, he, node, passed⟩
    · cases passed
  · cases h

def neighbours (ts : List Token) : List (Token × Token) := ts.zip ts.tail

theorem mem_neighbours (front rest : List Token) (t u : Token) :
    (t, u) ∈ neighbours (front ++ t :: u :: rest) := by
  induction front with
  | nil => exact mem_cons_self
  | cons s front ih =>
    cases front with
    | nil => exact mem_cons_of_mem _ ih
    | cons _ _ => exact mem_cons_of_mem _ ih

theorem TwoArguments.neighbours {first second : Expr} {close : Token}
    (w : TwoArguments source first second close) :
    (w.comma, w.head) ∈ neighbours (scan source) ∧ (w.last, close) ∈ neighbours (scan source) := by
  rw [w.tokens]
  constructor
  · have := mem_neighbours (w.before ++ w.opening :: w.left) (w.more ++ close :: w.after) w.comma w.head
    simpa using this
  · have := mem_neighbours (w.before ++ w.opening :: (w.left ++ w.comma :: (w.head :: w.more).dropLast))
      w.after w.last close
    have parts : (w.head :: w.more).dropLast ++ [w.last] = w.head :: w.more := dropLast_concat_getLast _
    rw [← parts]
    simpa using this

def quotedParen : Chars := "table.insert(t, \"(\" .. x)\n".toList

theorem quotedParen_appended : ∃ tree findings f e callee table value close,
    ∃ w : TwoArguments quotedParen table value close,
    Chunk.parse? quotedParen = some tree ∧ analyzeSource {} quotedParen = .ok findings ∧ f ∈ findings ∧
    f.pattern = "table_insert_append" ∧ e ∈ appendEdits quotedParen f ∧
    f.details.node? "node" = some (.expr (.call callee [table, value] (some close))) ∧
    e.text = "t[#t+1] = \"(\" .. x".toList ∧
    e.text = table.text.toList ++ "[#".toList ++ table.text.toList ++ "+1] = ".toList ++ w.secondText := by
  have checked : anyAppend quotedParen fun _ close e =>
      close.stop == 24 && e.text == "t[#t+1] = \"(\" .. x".toList := by
    decide +kernel
  have starts : (scan quotedParen).all fun t =>
      (t.kind != .symbol .comma || t.start == 14 && t.stop == 14) &&
      (t.text != "table".toList || t.start == 0) := by
    decide +kernel
  have pairs : (neighbours (scan quotedParen)).all fun p =>
      (p.1.kind != .symbol .comma || p.2.start == 16) &&
      (p.2.kind != .symbol .closeParen || p.1.stop + 1 == p.2.start) := by
    decide +kernel
  obtain ⟨tree, findings, f, e, callee, table, value, close, parsed, found, hf, pattern, he, node,
    passed⟩ := of_anyAppend checked
  obtain ⟨_, _, _, _, node', w, m, v, hm, mtext, made, -, iff⟩ :=
    appended_value_iff parsed found hf pattern he
  cases node.symm.trans node'
  obtain ⟨atEnd, text⟩ := Bool.and_eq_true_iff.mp passed
  have sub : w.before ⊆ scan quotedParen := by
    rw [w.tokens]
    exact subset_append_left _ _
  have comma : w.comma.start = 14 ∧ w.comma.stop = 14 := by
    have := all_eq_true.mp starts w.comma (by rw [w.tokens]; simp)
    simpa [w.separates] using (Bool.and_eq_true_iff.mp this).1
  have first : m.start = 0 := by
    have := all_eq_true.mp starts m (sub hm)
    simpa [mtext] using (Bool.and_eq_true_iff.mp this).2
  have head : w.head.start = 16 := by
    have := all_eq_true.mp pairs _ w.neighbours.1
    simpa [w.separates] using (Bool.and_eq_true_iff.mp this).1
  have last : w.last.stop + 1 = close.start := by
    have := all_eq_true.mp pairs _ w.neighbours.2
    simpa [w.closes] using (Bool.and_eq_true_iff.mp this).2
  have left : ∀ c ∈ w.leftGap, isBlank c := by
    have blank : (slice quotedParen (14 + 1) 16).all isBlank := by decide +kernel
    rw [TwoArguments.leftGap, comma.2, head]
    exact all_eq_true.mp blank
  have right : ∀ c ∈ w.rightGap, isBlank c := by
    rw [TwoArguments.rightGap, last, slice, Nat.sub_self]
    exact forall_mem_nil _
  have closes : ClosesAtEnd (slice quotedParen m.start (close.stop + 1)) := by
    rw [first, eq_of_beq atEnd]
    exact ⟨12, 11, by decide +kernel, by decide +kernel, by decide +kernel⟩
  have free : CommaFree (slice quotedParen m.start w.comma.start) := by
    rw [first, comma.1]
    unfold CommaFree
    decide +kernel
  have same : v = w.secondText := (iff (.inl closes)).mpr ⟨⟨free, left⟩, closes, right⟩
  refine ⟨tree, findings, f, e, _, table, value, close, w, parsed, found, hf, pattern, he, node,
    eq_of_beq text, ?_⟩
  rw [← same, made]
  rfl

def commaInCall : Chars := "table.insert(f(a, b), c)\n".toList

def isNameWritten (source text : Chars) : Expr → Bool
  | .name id => slice source id.token.start (id.token.stop + 1) == text
  | _ => false

/-- The second argument is `c`, and `b), c` is assigned. -/
theorem commaInCall_splits : ∃ tree findings f e callee table id close,
    Chunk.parse? commaInCall = some tree ∧ analyzeSource {} commaInCall = .ok findings ∧
    f ∈ findings ∧ f.pattern = "table_insert_append" ∧ e ∈ appendEdits commaInCall f ∧
    f.details.node? "node" = some (.expr (.call callee [table, .name id] (some close))) ∧
    slice commaInCall id.token.start (id.token.stop + 1) = "c".toList ∧
    e.text = "f(a, b)[#f(a, b)+1] = b), c".toList := by
  have checked : anyAppend commaInCall fun value _ e =>
      isNameWritten commaInCall "c".toList value && e.text == "f(a, b)[#f(a, b)+1] = b), c".toList := by
    decide +kernel
  obtain ⟨tree, findings, f, e, callee, table, value, close, parsed, found, hf, pattern, he, node,
    passed⟩ := of_anyAppend checked
  obtain ⟨isName, text⟩ := Bool.and_eq_true_iff.mp passed
  cases value with
  | name id =>
    exact ⟨tree, findings, f, e, callee, table, id, close, parsed, found, hf, pattern, he, node,
      eq_of_beq isName, eq_of_beq text⟩
  | _ => cases isName

end LuaTune.Fix
