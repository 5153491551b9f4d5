import LuaTune.Proofs.Lua.Continued
import LuaTune.Proofs.Lua.Replaced
import LuaTune.Proofs.Lua.Surroundings

/-!
# An operator in place of a call

The text of an expression is written where a call stood, with an operator in front of it or behind
it.
-/

namespace LuaTune.Lua

open Text Grammar List

/-! ## Operators -/

/-- What takes the place of a call: a length, a square root, or a product with further factors. -/
inductive Operator where
  | length
  | root
  | product (more : Nat)
deriving DecidableEq

namespace Operator

def fit : Operator → Fit
  | .length => .unary
  | .root => .power
  | .product _ => .product

def goal : Operator → Goal
  | .length => .power
  | .root | .product _ => .atom

def half : Numeral := .ofDecimalText ['0', '.', '5']

def times (arg : Expr) : Nat → Expr → Expr
  | 0, left => left
  | n + 1, left => times arg n (.binary .multiply left arg)

def expr (arg : Expr) : Operator → Expr
  | .length => .unary .length default arg
  | .root => .binary .power arg (.number half none)
  | .product more => times arg more arg

def factors (text : Chars) : Nat → Chars
  | 0 => []
  | n + 1 => '*' :: (text ++ factors text n)

def text (arg : Chars) : Operator → Chars
  | .length => '#' :: arg
  | .root => arg ++ ['^', '0', '.', '5']
  | .product more => arg ++ factors arg more

end Operator

/-! ## Texts that are read as an expression -/

abbrev EndsName (u : Chars) : Prop := ∀ a ∈ u.head?, isNameChar a = false

/-- Wherever it stands, in front of anything that does not go on with a name, the text is read as the
expression. -/
def ReadsAs (g : Goal) (text : Chars) (e : Expr) : Prop :=
  ∀ (p : Cursor) (u : Chars), EndsName u → ∃ ts q e', Scans p text u ts q ∧
    q.afterBreak = false ∧ Reads g ts (.expr e') [] ∧ e'.bare = e.bare

namespace Grammar

structure Fit.Stops (fit : Fit) (after : List Token) : Prop where
  suffix : ∀ t ∈ after.head?, isSuffix t.kind = false
  power : fit ≠ .power → nextSymbol .caret after = false
  bits : fit = .product → ∀ t ∈ after.head?, Level.bits.operator? t.kind = none

structure Filler (fit : Fit) (new : Expr) (ts : List Token) : Prop where
  starts : startsExpr ts
  noUnary : fit ≠ .unary → ∀ t ∈ ts.head?, unaryOp? t.kind = none
  noField (after : List Token) : (nextIs .name ts && nextSymbol .equal ((ts ++ after).drop 1)) = false
  fills {after : List Token} (stops : fit.Stops after) :
    ∃ read, read.bare = new.bare ∧ fit.Fills (ts ++ after) after read

section

variable {ts us rest : List Token} {e arg : Expr} {t : Token}

theorem Reads.atom_head {x : Item} (h : Reads .atom (t :: ts) x rest) :
    startsExpr [t] ∧ unaryOp? t.kind = none := by
  cases h with
  | atomSuffixed ht =>
    rcases Bool.or_eq_true_iff.mp ht with name | paren
    · simp [startsExpr, unaryOp?, eq_of_beq name]
    · simp [startsExpr, unaryOp?, eq_of_beq paren]
  | atomFunction ht | atomTable ht => simp [startsExpr, unaryOp?, ht]
  | atomLiteral ht =>
    unfold literal? at ht
    split at ht
    all_goals first
      | cases ht; done
      | next kind => simp [startsExpr, unaryOp?, kind]

theorem Reads.cons_of_atom {x : Item} (h : Reads .atom ts x rest) : ∃ t us, ts = t :: us := by
  obtain ⟨taken, rfl, positive⟩ := h.takes
  cases taken with
  | nil => cases positive
  | cons t taken => exact ⟨t, _, rfl⟩

theorem Reads.atom_noField (h : Reads .atom ts (.expr e) []) (more : List Token)
    (other : nextSymbol .equal more = false) :
    (nextIs .name ts && nextSymbol .equal ((ts ++ more).drop 1)) = false := by
  refine Bool.eq_false_iff.mpr fun both => ?_
  obtain ⟨name, equal⟩ := Bool.and_eq_true_iff.mp both
  obtain ⟨t, us, rfl, kind⟩ := nextIs_iff.mp name
  cases us with
  | nil => exact Bool.false_ne_true (other.symm.trans equal)
  | cons u us =>
    have sign : u.kind = .symbol .equal := eq_of_beq equal
    cases h with
    | atomSuffixed _ h =>
      cases h with
      | suffixedParen ht => cases ht.symm.trans kind
      | suffixedName _ tail =>
        cases tail with
        | indexDot ht | indexBracket ht | invokeArguments ht | invokeTable ht | invokeString ht
        | callArguments ht | callTable ht | callString ht => cases ht.symm.trans sign
    | atomFunction ht | atomTable ht => cases ht.symm.trans kind

theorem Reads.factor {after : List Token} (h : Reads .atom ts (.expr e) [])
    (stops : Fit.product.Stops after) : Reads (.operand .product) (ts ++ after) (.expr e) after := by
  obtain ⟨t, us, rfl⟩ := h.cons_of_atom
  have atom : Reads .atom (t :: us ++ after) (.expr e) after := h.append fun _ => stops.suffix
  exact .operandChain rfl (.chain (.operandUnary rfl (.unaryNone h.atom_head.2
    (.power atom (.powerEnd (stops.power (by decide)))))) (.chainEnd (stops.bits rfl)))

end

/-! ## Lengths, roots and products -/

section

variable {ts us : List Token} {e arg left r : Expr} {n : Nat}

theorem Filler.length {hash : Token} (kind : hash.kind = .symbol .hash)
    (h : Reads .power us (.expr e) []) (same : e.bare = arg.bare) :
    Filler .unary (Operator.expr arg .length) (hash :: us) where
  starts := by simp [startsExpr, kind]
  noUnary other := absurd rfl other
  noField after := by simp [nextIs, kind]
  fills {after} stops := by
    refine ⟨.unary .length hash e, by simp [Operator.expr, Expr.bare, same], ?_⟩
    exact .unaryLength (by rw [kind]; rfl) (h.append fun _ => ⟨stops.suffix, stops.power (by decide)⟩)

theorem Filler.of_atom {fit : Fit} {new : Expr} (h : Reads .atom us (.expr e) [])
    (other : ∀ after, nextSymbol .equal (ts ++ after) = false)
    (fills : ∀ {after}, fit.Stops after →
      ∃ read, read.bare = new.bare ∧ fit.Fills (us ++ (ts ++ after)) after read) :
    Filler fit new (us ++ ts) where
  starts := by
    obtain ⟨t, us, rfl⟩ := h.cons_of_atom
    exact h.atom_head.1
  noUnary _ t first := by
    obtain ⟨u, us, rfl⟩ := h.cons_of_atom
    cases first
    exact h.atom_head.2
  noField after := by
    have plain := h.atom_noField (ts ++ after) (other after)
    obtain ⟨t, us, rfl⟩ := h.cons_of_atom
    rw [append_assoc]
    exact plain
  fills stops := by
    rw [append_assoc]
    exact fills stops

theorem Filler.root {caret half : Token} (hc : caret.kind = .symbol .caret) (hk : half.kind = .number)
    (ht : half.text = ['0', '.', '5']) (h : Reads .atom us (.expr e) []) (same : e.bare = arg.bare) :
    Filler .power (Operator.expr arg .root) (us ++ [caret, half]) := by
  refine .of_atom h (fun after => by simp [nextIs, hc]) fun {after} stops => ?_
  refine ⟨.binary .power e (.number Operator.half half), by simp [Operator.expr, Expr.bare, same], ?_⟩
  intro x rest tail
  have first : Reads .atom (us ++ ([caret, half] ++ after)) (.expr e) ([caret, half] ++ after) := by
    refine h.append fun _ t next => ?_
    cases next
    simp [isSuffix, hc]
  have value : literal? half = some (.number Operator.half half) := by
    simp only [literal?, hk, ht]
    rfl
  obtain ⟨r, rfl⟩ : ∃ r, x = .expr r := by cases tail <;> exact ⟨_, rfl⟩
  exact .power first (.powerMore hc (.atomLiteral value) tail)

inductive Factors (arg : Expr) : Nat → Expr → List Token → Expr → Prop where
  | nil {left : Expr} : Factors arg 0 left [] left
  | cons {n : Nat} {star : Token} {us ts : List Token} {left e r : Expr}
    (kind : star.kind = .symbol .star) (h : Reads .atom us (.expr e) []) (same : e.bare = arg.bare)
    (more : Factors arg n (.binary .multiply left e) ts r) :
    Factors arg (n + 1) left (star :: (us ++ ts)) r

theorem times_bare (n : Nat) {left' : Expr} (h : left.bare = left'.bare) :
    (Operator.times arg n left).bare = (Operator.times arg n left').bare := by
  induction n generalizing left left' with
  | zero => exact h
  | succ n ih => exact ih (by simp [Expr.bare, h])

theorem Factors.bare (h : Factors arg n left ts r) : r.bare = (Operator.times arg n left).bare := by
  induction h with
  | nil => rfl
  | cons _ _ same _ ih => exact ih.trans (times_bare _ (by simp [Expr.bare, same]))

theorem Factors.stops {after : List Token} (h : Factors arg n left ts r)
    (stops : Fit.product.Stops after) : Fit.product.Stops (ts ++ after) := by
  cases h with
  | nil => exact stops
  | cons kind =>
    refine ⟨fun t next => ?_, fun _ => by simp [nextIs, kind], fun _ t next => ?_⟩
    · cases next
      simp [isSuffix, kind]
    · cases next
      rw [kind]
      rfl

theorem Factors.reads {after rest : List Token} {x : Expr} (h : Factors arg n left ts r)
    (stops : Fit.product.Stops after) (tail : Reads (.chainTail .product r) after (.expr x) rest) :
    Reads (.chainTail .product left) (ts ++ after) (.expr x) rest := by
  induction h with
  | nil => exact tail
  | cons kind h _ more ih =>
    rw [cons_append, append_assoc]
    exact .chainMore (by decide) (by rw [kind]; rfl) (h.factor (more.stops stops)) (ih tail)

theorem Filler.product (h : Reads .atom us (.expr e) []) (same : e.bare = arg.bare)
    (more : Factors arg (n + 1) e ts r) :
    Filler .product (Operator.expr arg (.product (n + 1))) (us ++ ts) := by
  have other (after : List Token) : nextSymbol .equal (ts ++ after) = false := by
    cases more with
    | cons kind => simp [nextIs, kind]
  refine .of_atom h other fun stops => ⟨r, more.bare.trans (times_bare _ same), fun x rest tail => ?_⟩
  obtain ⟨x, rfl⟩ : ∃ y, x = .expr y := by cases tail <;> exact ⟨_, rfl⟩
  exact .chain (h.factor (more.stops stops)) (more.reads stops tail)

end

end Grammar

/-! ## The text of an operator -/

section

variable {text : Chars} {arg : Expr}

theorem ReadsAs.ne_nil {g : Goal} (positive : 0 < g.least) (h : ReadsAs g text arg) : text ≠ [] := by
  rintro rfl
  obtain ⟨ts, q, e, scans, -, reads, -⟩ := h .start [] nofun
  cases scans
  obtain ⟨taken, none, long⟩ := reads.takes
  rw [append_nil] at none
  rw [← none] at long
  exact Nat.not_lt_of_le long positive

theorem Scans.char (q : Cursor) {c : Char} {rest : Chars} {k : Kind}
    (h : lexeme c rest = ⟨.token k, 0⟩) :
    Scans q [c] rest [q.token k [c]] (q.after (.token k) [c]) :=
  .single (r := .token k) h

theorem lexeme_half {u : Chars} (h : EndsName u) :
    lexeme '0' (['.', '5'] ++ u) = ⟨.token .number, 2⟩ := by
  have digit : runLength Char.isDigit u = 0 := runLength_eq_zero_iff.mpr fun a ha => by
    have other := h a ha
    simp only [isNameChar, Char.isAlphanum, Bool.or_eq_false_iff] at other
    exact other.1.2
  have exponent : exponentLength (fun c => c == 'e' || c == 'E') u = 0 := by
    cases u with
    | nil => rfl
    | cons a u =>
      refine exponentLength_eq_zero (Bool.eq_false_iff.mpr fun mark => ?_) u
      exact Bool.eq_false_iff.mp (h a rfl) (isNameChar_of_mark mark)
  have length : numeralLength ('0' :: (['.', '5'] ++ u)) = 3 := by
    have fraction : fractionLength Char.isDigit ('.' :: '5' :: u) = 2 := by
      rw [fractionLength, runLength_cons, digit]
      rfl
    have whole : runLength Char.isDigit ('0' :: (['.', '5'] ++ u)) = 1 := rfl
    have rest : ('0' :: (['.', '5'] ++ u)).drop 1 = '.' :: '5' :: u := rfl
    rw [numeralLength_of_digit (by decide) (by intro; rfl), decimalLength, numberTail_eq]
    simp only [whole, rest, fraction]
    exact congrArg (3 + ·) exponent
  unfold lexeme
  rw [if_neg (by decide), if_neg (by decide), if_neg (by decide), if_pos (by omega), length]

theorem ReadsAs.factors (h : ReadsAs .atom text arg) (n : Nat) :
    ∀ (p : Cursor) (u : Chars) (left : Expr), EndsName u → p.afterBreak = false →
      ∃ ts q r, Scans p (Operator.factors text n) u ts q ∧ q.afterBreak = false ∧
        Factors arg n left ts r := by
  induction n with
  | zero => exact fun p u left _ fresh => ⟨[], p, left, .nil, fresh, .nil⟩
  | succ n ih =>
    intro p u left ends _
    have next : EndsName (Operator.factors text n ++ u) := by
      cases n with
      | zero => exact ends
      | succ n =>
        intro a ha
        cases ha
        rfl
    obtain ⟨us, q, e, scans, fresh, reads, same⟩ :=
      h (p.after (.token (.symbol .star)) ['*']) (Operator.factors text n ++ u) next
    obtain ⟨ts, q', r, more, fresh', read⟩ := ih q u (.binary .multiply left e) ends fresh
    have star : Scans p ['*'] (text ++ Operator.factors text n ++ u) [p.token (.symbol .star) ['*']]
        (p.after (.token (.symbol .star)) ['*']) := .char p rfl
    have product : Factors arg (n + 1) left (p.token (.symbol .star) ['*'] :: (us ++ ts)) r :=
      .cons rfl reads same read
    exact ⟨_, q', r, star.append (scans.append more), fresh', product⟩

theorem Operator.reads {op : Operator} (several : ∀ n, op = .product n → 0 < n)
    (back : ReadsAs op.goal text arg) (plain : ∀ c ∈ text.head?, c ≠ '!') (p : Cursor) {u : Chars}
    (ends : EndsName u) : ∃ ts q, Scans p (op.text text) u ts q ∧ q.afterBreak = false ∧
      Filler op.fit (op.expr arg) ts := by
  cases op with
  | length =>
    obtain ⟨us, q, e, scans, fresh, reads, same⟩ := back (p.after (.token (.symbol .hash)) ['#']) u ends
    have hash : Scans p ['#'] (text ++ u) [p.token (.symbol .hash) ['#']]
        (p.after (.token (.symbol .hash)) ['#']) := by
      cases first : text with
      | nil => exact absurd first (back.ne_nil (by decide))
      | cons c cs => exact .char p (lexeme_hash (plain c (by rw [first]; rfl)) _)
    exact ⟨_, q, hash.append scans, fresh, .length rfl reads same⟩
  | root =>
    obtain ⟨us, q, e, scans, fresh, reads, same⟩ := back p (['^', '0', '.', '5'] ++ u) (by
      intro a ha
      cases ha
      rfl)
    let q₁ := q.after (.token (.symbol .caret)) ['^']
    have caret : Scans q ['^'] (['0', '.', '5'] ++ u) [q.token (.symbol .caret) ['^']] q₁ := .char q rfl
    have half : Scans q₁ ['0', '.', '5'] u [q₁.token .number ['0', '.', '5']]
        (q₁.after (.token .number) ['0', '.', '5']) := .single (lexeme_half ends)
    exact ⟨_, _, scans.append (caret.append half), rfl, .root rfl rfl rfl reads same⟩
  | product n =>
    cases n with
    | zero => exact absurd (several 0 rfl) (Nat.lt_irrefl 0)
    | succ n =>
      obtain ⟨us, q, e, scans, fresh, reads, same⟩ := back p (Operator.factors text (n + 1) ++ u) (by
        intro a ha
        cases ha
        rfl)
      obtain ⟨ts, q', r, more, fresh', read⟩ := ReadsAs.factors back (n + 1) q u e ends fresh
      exact ⟨_, q', scans.append more, fresh', .product reads same read⟩

end

theorem Operator.exists_start {op : Operator} {text : Chars} {arg : Expr}
    (back : ReadsAs op.goal text arg) (starts : ∀ c ∈ text.head?, op ≠ .length → isStart c) :
    ∃ b v, op.text text = b :: v ∧ isStart b := by
  have some : text ≠ [] := back.ne_nil (by cases op <;> exact Nat.one_pos)
  cases text with
  | nil => exact absurd rfl some
  | cons c text =>
    cases op with
    | length => exact ⟨'#', c :: text, rfl, rfl⟩
    | root | product => exact ⟨c, _, rfl, starts c rfl (by simp)⟩

/-! ## Places of tokens -/

theorem Cursor.afterBreak_after {p p' : Cursor} (h : p'.afterBreak = p.afterBreak) (r : Reading)
    (text : Chars) : (p'.after r text).afterBreak = (p.after r text).afterBreak := by
  cases r with
  | token | lineBreak => rfl
  | hidden | dropped => exact h

structure Token.Like (t t' : Token) : Prop where
  kind : t'.kind = t.kind
  text : t'.text = t.text
  afterBreak : t'.afterBreak = t.afterBreak

theorem scanFrom_like {p p' : Cursor} (cs : Chars) (fresh : p'.afterBreak = p.afterBreak) :
    List.Forall₂ Token.Like (scanFrom 0 p cs) (scanFrom 0 p' cs) := by
  induction cs using lexeme_induction generalizing p p' with
  | nil => exact .nil
  | cons c cs rest r found ih =>
    rw [scanFrom_cons p found, scanFrom_cons p' found]
    have more := ih (Cursor.afterBreak_after fresh r (c :: cs))
    cases r with
    | token k =>
      have like : (p.token k (c :: cs)).Like (p'.token k (c :: cs)) := ⟨rfl, rfl, fresh⟩
      exact .cons like more
    | lineBreak | hidden | dropped => exact more

section

variable {ts ts' : List Token}

theorem Grammar.Hole.rel_of_like {H : Hole} (like : List.Forall₂ Token.Like ts ts')
    (other : ∀ t ∈ ts, t ≠ H.close) : H.Rel false ts ts' := by
  induction like with
  | nil => exact .nil
  | cons like _ ih =>
    have alike := Hole.Alike.mk like.kind like.text like.afterBreak (other _ mem_cons_self)
    exact .cons (b := false) alike (fun flag => absurd flag Bool.false_ne_true)
      (ih fun t ht => other t (mem_cons_of_mem _ ht))

theorem Grammar.Fit.Stops.of_like {fit : Fit} (like : List.Forall₂ Token.Like ts ts')
    (stops : fit.Stops ts) : fit.Stops ts' := by
  cases like with
  | nil => exact stops
  | cons like =>
    refine ⟨fun t ht => ?_, fun other => ?_, fun product t ht => ?_⟩
    · cases ht
      rw [like.kind]
      exact stops.suffix _ rfl
    · have none := stops.power other
      simpa [nextIs, like.kind] using none
    · cases ht
      rw [like.kind]
      exact stops.bits product _ rfl

end

theorem Scans.start_lt {p q : Cursor} {xs ys : Chars} {ts : List Token} (h : Scans p xs ys ts q) :
    ∀ t ∈ ts, t.start < q.offset := by
  induction h with
  | nil => exact nofun
  | @cons p q c cs xs ys r ts h more ih =>
    intro t ht
    rcases mem_append.mp ht with first | later
    · have place := more.offset
      rw [Cursor.offset_after, length_cons] at place
      cases r with
      | token k =>
        cases mem_singleton.mp first
        change p.offset < q.offset
        omega
      | lineBreak | hidden | dropped => cases first
    · exact ih t later

/-! ## A call in a script -/

structure DottedCall (source : Chars) where
  before : List Token
  head : Token
  dot : Token
  key : Token
  opening : Token
  inner : List Token
  close : Token
  after : List Token
  args : List Expr
  tokens : scan source = before ++ head :: dot :: key :: opening :: (inner ++ close :: after)
  isName : head.kind = .name
  isDot : dot.kind = .symbol .dot
  isKey : key.kind = .name
  opens : opening.kind = .symbol .openParen
  sameLine : opening.afterBreak = false
  reads : Reads .arguments (inner ++ close :: after) (.arguments args close) after

namespace DottedCall

variable {source : Chars} (w : DottedCall source)

def callee : Expr := .index .dot (.name (identAt w.head)) (.name (identAt w.key))

def call : Expr := .call w.callee w.args (some w.close)

/-- The operator may stand in place of the call, and its text is not read together with what stands
around it. -/
structure Fits (tree : Chunk) (op : Operator) (text : Chars) : Prop where
  before : ∃ t ∈ w.before.getLast?, op.fit.follows t.kind
  after : op.fit.Stops w.after
  nodes : ∀ n ∈ tree.walk, op.fit.Leaves w.call n
  starts : ∀ c ∈ text.head?, c ≠ '!' ∧ (op ≠ .length → isStart c)
  ends : EndsName (source.drop (w.close.stop + 1))
  opens : OpenStays (source.take w.head.start) (source.drop w.head.start)
    (op.text text ++ source.drop (w.close.stop + 1))

theorem reads_suffixed (stops : ∀ t ∈ w.after.head?, isSuffix t.kind = false) :
    Reads .suffixed (w.head :: w.dot :: (w.key :: w.opening :: (w.inner ++ [w.close]) ++ w.after))
      (.expr w.call) w.after := by
  have arguments : Reads .arguments (w.inner ++ [w.close] ++ w.after) (.arguments w.args w.close) w.after := by
    rw [append_assoc]
    exact w.reads
  exact .suffixedName w.isName (.indexDot w.isDot w.isKey
    (.callArguments w.opens w.sameLine arguments (.suffixesEnd stops)))

theorem cut : ∃ pre c cs post q q', source = pre ++ c :: (cs ++ post) ∧ isNameStart c ∧
    Scans .start pre (c :: (cs ++ post)) w.before q ∧ w.head.start = pre.length ∧
    w.close.stop + 1 = (pre ++ c :: cs).length ∧ q'.afterBreak = false ∧ w.after = scanFrom 0 q' post ∧
    (∀ t ∈ w.before, t ≠ w.close) ∧ ∀ t ∈ w.after, t ≠ w.close := by
  obtain ⟨pre, c, cs, r, q, whole, cut, found, head, others⟩ := scanFrom_cut w.tokens
  have others : scanFrom 0 (q.after (.token w.head.kind) (c :: cs)) r =
      w.dot :: w.key :: w.opening :: w.inner ++ w.close :: w.after := others.symm
  obtain ⟨x, d, ds, post, q₁, rfl, cut₁, -, close, after⟩ := scanFrom_cut others
  have start : isNameStart c := by
    have form := tokenForm found
    rw [w.isName] at form
    cases form with
    | name start => exact start
  have offset : q.offset = pre.length := by rw [cut.offset]; exact Nat.zero_add _
  have offset₁ := cut₁.offset
  rw [Cursor.offset_after, length_cons] at offset₁
  have stop := q₁.stop_token w.close.kind d ds
  rw [← close, length_cons] at stop
  have place : w.close.start = q₁.offset := congrArg Token.start close
  refine ⟨pre, c, cs ++ (x ++ d :: ds), post, q, q₁.after (.token w.close.kind) (d :: ds), ?_, start, ?_,
    (congrArg Token.start head).trans offset, ?_, rfl, after, fun t ht same => ?_, fun t ht same => ?_⟩
  · simp [whole]
  · simpa using cut
  · simp only [length_append, length_cons]
    omega
  · have early := cut.start_lt t ht
    rw [same] at early
    omega
  · rw [after] at ht
    have late := start_of_mem_scanFrom ht
    rw [Cursor.offset_after, length_cons, same] at late
    omega

def hole {op : Operator} {arg : Expr} {head' : Token} {inner' after' : List Token} {read : Expr}
    (stops : op.fit.Stops w.after) (filler : Filler op.fit (op.expr arg) (head' :: inner'))
    (fills : op.fit.Fills (head' :: inner' ++ after') after' read)
    (same : read.bare = (op.expr arg).bare) : Hole where
  fit := op.fit
  head := w.head
  dot := w.dot
  inner := w.key :: w.opening :: (w.inner ++ [w.close])
  after := w.after
  head' := head'
  inner' := inner'
  after' := after'
  callee := w.callee
  args := w.args
  close := w.close
  new := op.expr arg
  read := read
  isName := w.isName
  isDot := w.isDot
  reads := w.reads_suffixed stops.suffix
  noPower := stops.power
  noBits := stops.bits
  starts := filler.starts
  noUnary other := filler.noUnary other head' rfl
  noField := filler.noField after'
  fills := fills
  same := same

theorem rel_before {H : Hole} {before ts ts' : List Token} (other : ∀ t ∈ before, t ≠ H.close)
    (last : ∃ t ∈ before.getLast?, H.fit.follows t.kind) (rel : H.Rel true ts ts') :
    H.Rel false (before ++ ts) (before ++ ts') := by
  induction before with
  | nil =>
    obtain ⟨t, none, -⟩ := last
    cases none
  | cons t before ih =>
    have alike : H.Alike t t := ⟨rfl, rfl, rfl, other t mem_cons_self⟩
    have others : ∀ u ∈ before, u ≠ H.close := fun u hu => other u (mem_cons_of_mem _ hu)
    cases before with
    | nil =>
      obtain ⟨u, ends, follows⟩ := last
      cases ends
      exact .cons alike (fun _ => follows) rel
    | cons u before =>
      refine .cons (b := false) alike (fun flag => absurd flag Bool.false_ne_true) (ih others ?_)
      rwa [List.getLast?_cons_cons] at last

theorem replaced {tree : Chunk} {op : Operator} {arg : Expr} {text : Chars}
    (parsed : Chunk.parse? source = some tree) (several : ∀ n, op = .product n → 0 < n)
    (back : ReadsAs op.goal text arg) (fits : w.Fits tree op text) :
    ∃ tree', Chunk.parse? (source.take w.head.start ++ op.text text ++ source.drop (w.close.stop + 1)) =
        some tree' ∧ tree'.bare = (Chunk.replace w.close (op.expr arg) tree).bare := by
  obtain ⟨pre, c, cs, post, q, q', whole, start, cut, place, stop, fresh, after, early, late⟩ := w.cut
  have opens := fits.opens
  have ends := fits.ends
  have front : source.take w.head.start = pre := by rw [place, whole, take_left]
  have behind : source.drop w.head.start = c :: (cs ++ post) := by rw [place, whole, drop_left]
  have rest : source.drop (w.close.stop + 1) = post := by
    rw [stop, whole, ← cons_append, ← append_assoc, drop_left]
  rw [front, behind, rest] at opens
  rw [rest] at ends
  rw [front, rest]
  -- the tokens of the new script
  obtain ⟨ts, q₁, scans, fresh₁, filler⟩ :=
    Operator.reads several back (fun c hc => (fits.starts c hc).1) q ends
  obtain ⟨b, v, first, isStart⟩ := Operator.exists_start back fun c hc => (fits.starts c hc).2
  have stays : Scans .start pre (op.text text ++ post) w.before q := by
    rw [first] at opens ⊢
    refine cut.stays start isStart opens fun front t last number => ?_
    obtain ⟨u, ends, follows⟩ := fits.before
    rw [last, List.getLast?_concat] at ends
    cases ends
    rw [number] at follows
    cases follows
  have tokens : scan (pre ++ op.text text ++ post) = w.before ++ ts ++ scanFrom 0 q₁ post :=
    (stays.append scans).scanFrom
  have like : List.Forall₂ Token.Like w.after (scanFrom 0 q₁ post) := by
    rw [after]
    exact scanFrom_like post (fresh₁.trans fresh.symm)
  obtain ⟨read, same, fills⟩ := filler.fills (fits.after.of_like like)
  cases ts with
  | nil => cases filler.starts
  | cons head' inner' =>
    let H := w.hole fits.after filler fills same
    have rel : H.Rel true H.tokens (head' :: (inner' ++ scanFrom 0 q₁ post)) :=
      .hole (Hole.rel_of_like (H := H) like late)
    have rel : H.Rel false (scan source) (scan (pre ++ op.text text ++ post)) := by
      rw [tokens, append_assoc, w.tokens]
      have shape : w.head :: w.dot :: w.key :: w.opening :: (w.inner ++ w.close :: w.after) = H.tokens := by
        simp [H, hole, Hole.tokens]
      rw [shape]
      exact rel_before (H := H) early fits.before rel
    exact Chunk.ofTokens?_replaced parsed rel fits.nodes

end DottedCall

end LuaTune.Lua
