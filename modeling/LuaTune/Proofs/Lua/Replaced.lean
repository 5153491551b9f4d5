import LuaTune.Proofs.Lua.Bare
import LuaTune.Proofs.Lua.Parsing

/-!
# A call replaced in a script

Where a call stands among the tokens of a script other tokens may be put that are read as another
expression, if an expression as loose as the new one may stand there.
-/

namespace LuaTune.Lua

open List

/-! ## Trees -/

section

variable (close : Token) (new : Expr)

mutual

def Expr.replace : Expr → Expr
  | .call callee args last =>
    if last = some close then new else .call callee.replace (replaceExprs args) last
  | .index form base key => .index form base.replace key.replace
  | .invoke source method args => .invoke source.replace method (replaceExprs args)
  | .function first last params body => .function first last params (replaceStats body)
  | .table first fields => .table first (replaceFields fields)
  | .binary op left right => .binary op left.replace right.replace
  | .unary op token operand => .unary op token operand.replace
  | e => e

def replaceExprs : List Expr → List Expr
  | [] => []
  | e :: es => e.replace :: replaceExprs es

def Field.replace : Field → Field
  | .mk key value => .mk key.replace value.replace

def replaceFields : List Field → List Field
  | [] => []
  | f :: fs => f.replace :: replaceFields fs

def Stat.replace : Stat → Stat
  | .assign first last targets values =>
    .assign first last (replaceExprs targets) (replaceExprs values)
  | .localAssign first targets values => .localAssign first targets (replaceExprs values)
  | .expr e => .expr e.replace
  | .whileLoop test body => .whileLoop test.replace (replaceStats body)
  | .repeatLoop body test => .repeatLoop (replaceStats body) test.replace
  | .ifThen test body orelse => .ifThen test.replace (replaceStats body) orelse.replace
  | .numericFor target bounds body => .numericFor target (replaceExprs bounds) (replaceStats body)
  | .genericFor targets iterators body =>
    .genericFor targets (replaceExprs iterators) (replaceStats body)
  | .function first last base path params body =>
    .function first last base path params (replaceStats body)
  | .method first last base path name params body =>
    .method first last base path name params (replaceStats body)
  | .localFunction first last name params body =>
    .localFunction first last name params (replaceStats body)
  | .block body => .block (replaceStats body)
  | .returnValues first last values => .returnValues first last (replaceExprs values)
  | s => s

def replaceStats : List Stat → List Stat
  | [] => []
  | s :: ss => s.replace :: replaceStats ss

def Orelse.replace : Orelse → Orelse
  | .none => .none
  | .elseif test body orelse => .elseif test.replace (replaceStats body) orelse.replace
  | .block body => .block (replaceStats body)

end

end

abbrev Chunk.replace (close : Token) (new : Expr) (c : Chunk) : Chunk := replaceStats close new c

namespace Grammar

/-! ## Nodes of what is read -/

def Item.nodes : Item → List Node
  | .expr e => e.walk
  | .exprs es | .arguments es _ => walkExprs es
  | .fields fs => walkFields fs
  | .field f _ => f.walk
  | .funcBody _ body _ => walkStats body
  | .block ss => walkStats ss
  | .stat s => s.walk
  | .orelse o => o.walk

def Goal.nodes : Goal → List Node
  | .chainTail _ e | .powerTail e | .suffixes e => e.walk
  | _ => []

def Goal.Left (P : Expr → Prop) : Goal → Prop
  | .chainTail _ e | .powerTail e | .suffixes e => P e
  | _ => True

def Goal.setLeft (e : Expr) : Goal → Goal
  | .chainTail l _ => .chainTail l e
  | .powerTail _ => .powerTail e
  | .suffixes _ => .suffixes e
  | g => g

variable {ts rest : List Token}

theorem Reads.contains {g : Goal} {x : Item} (h : Reads g ts x rest) :
    g.nodes ⊆ x.nodes := by
  induction h with
  | chainEnd | powerEnd | suffixesEnd => exact List.Subset.refl _
  | chainOne => simp [Goal.nodes, Item.nodes, Expr.walk]
  | chainMore _ _ _ _ _ ih | powerMore _ _ _ _ ih | indexBracket _ _ _ _ _ ih
  | invokeArguments _ _ _ _ _ _ ih | invokeTable _ _ _ _ _ _ ih | callArguments _ _ _ _ _ ih
  | callTable _ _ _ _ ih | indexDot _ _ _ ih | invokeString _ _ _ _ ih | callString _ _ ih =>
    intro n hn
    exact ih (by simp [Goal.nodes, Expr.walk] at hn ⊢; simp [hn])
  | _ => exact nil_subset _

theorem Reads.sub {g : Goal} {x : Item} {ns : List Node} (h : Reads g ts x rest)
    (sub : ns ⊆ g.nodes := by
      intro n hn
      simp only [Item.nodes] at hn
      simp [Goal.nodes, Expr.walk, walkExprs, hn]) : ns ⊆ x.nodes :=
  List.Subset.trans sub h.contains

theorem NamesAfter.stops {sep : Symbol} {ids : List Ident}
    (h : NamesAfter sep ts ids rest) : nextSymbol sep rest = false := by
  induction h with
  | stop h => exact h
  | more _ _ _ ih => exact ih

/-! ## Places -/

/-- How loose the new expression is: one operator in front of an operand, a power, or a product. -/
inductive Fit where
  | unary
  | power
  | product
deriving DecidableEq

/-- Is an expression as loose as that read after a token? The semicolon is left out, since a statement
may follow it as well. -/
def Fit.follows (fit : Fit) : Kind → Bool
  | .symbol s =>
    [.equal, .openParen, .comma, .openBrace, .openBracket, .less, .greater, .lessEqual,
      .greaterEqual, .tildeEqual, .equalEqual, .dotDot, .plus, .minus].contains s ||
    (fit != .product && [.star, .slash, .percent, .slashSlash, .ampersand, .bar, .tilde,
      .shiftRight, .shiftLeft].contains s) ||
    (fit == .power && s == .hash)
  | .keyword k =>
    [.or_, .and_, .return_, .if_, .elseif_, .while_, .until_, .in_].contains k ||
    (fit != .product && k == .not_)
  | _ => false

def Fit.Allows (fit : Fit) : Goal → Prop
  | .exprs | .arguments | .fields _ | .field _ | .bounds => True
  | .chain l => fit = .product → l ≠ .bits
  | .operand l => fit = .product → l ≠ .product ∧ l ≠ .bits
  | .unary => fit ≠ .product
  | .power => fit = .power
  | _ => False

def Fit.Fills (ts after : List Token) (read : Expr) : Fit → Prop
  | .unary => Reads .unary ts (.expr read) after
  | .power => ∀ x rest, Reads (.powerTail read) after x rest → Reads .power ts x rest
  | .product =>
    ∀ x rest, Reads (.chainTail .product read) after x rest → Reads (.chain .product) ts x rest

/-- Nothing is assigned to the call, and an operator with one operand is not applied to it where a
product is put in its place. -/
def Fit.Leaves (fit : Fit) (call : Expr) : Node → Prop
  | .stat (.assign _ _ targets _) => ∀ e ∈ targets, e ≠ call
  | .expr (.unary _ _ operand) => fit = .product → operand ≠ call
  | _ => True

/-- A call of a field, in front of other tokens, and what is put in its place. -/
structure Hole where
  fit : Fit
  head : Token
  dot : Token
  inner : List Token
  after : List Token
  head' : Token
  inner' : List Token
  after' : List Token
  callee : Expr
  args : List Expr
  close : Token
  new : Expr
  read : Expr
  isName : head.kind = .name
  isDot : dot.kind = .symbol .dot
  reads : Reads .suffixed (head :: dot :: (inner ++ after)) (.expr (.call callee args (some close))) after
  noPower : fit ≠ .power → nextSymbol .caret after = false
  noBits : fit = .product → ∀ t ∈ after.head?, Level.bits.operator? t.kind = none
  starts : startsExpr [head']
  noUnary : fit ≠ .unary → unaryOp? head'.kind = none
  noField : (nextIs .name [head'] && nextSymbol .equal (inner' ++ after')) = false
  fills : Fit.Fills (head' :: (inner' ++ after')) after' read fit
  same : read.bare = new.bare

namespace Hole

variable (H : Hole)

abbrev call : Expr := .call H.callee H.args (some H.close)

abbrev tokens : List Token := H.head :: H.dot :: (H.inner ++ H.after)

theorem reads_atom : Reads .atom H.tokens (.expr H.call) H.after :=
  .atomSuffixed (by simp [startsSuffixed, H.isName]) H.reads

theorem reads_power (h : H.fit ≠ .power) : Reads .power H.tokens (.expr H.call) H.after :=
  .power H.reads_atom (.powerEnd (H.noPower h))

theorem reads_unary (h : H.fit ≠ .power) : Reads .unary H.tokens (.expr H.call) H.after :=
  .unaryNone (by rw [H.isName]; rfl) (H.reads_power h)

theorem reads_operand (h : H.fit = .product) :
    Reads (.operand .product) H.tokens (.expr H.call) H.after :=
  .operandChain rfl (.chain (.operandUnary rfl (H.reads_unary (by simp [h]))) (.chainEnd (H.noBits h)))

structure Alike (t t' : Token) : Prop where
  kind : t'.kind = t.kind
  text : t'.text = t.text
  afterBreak : t'.afterBreak = t.afterBreak
  other : t ≠ H.close

/-- The same tokens, but for the call. The flag says that it comes next. -/
inductive Rel : Bool → List Token → List Token → Prop where
  | nil : Rel false [] []
  | cons {b : Bool} {t t' : Token} {ts ts' : List Token} (alike : H.Alike t t')
    (guard : b = true → H.fit.follows t.kind) (rest : Rel b ts ts') : Rel false (t :: ts) (t' :: ts')
  | hole (rest : Rel false H.after H.after') : Rel true H.tokens (H.head' :: (H.inner' ++ H.after'))

abbrev GoodNode (n : Node) : Prop := H.fit.Leaves H.call n

structure Good (g : Goal) (x : Item) : Prop where
  nodes : ∀ n ∈ x.nodes, H.GoodNode n
  targets : g = .targets → ∀ es, x = .exprs es → ∀ e ∈ es, e ≠ H.call

/-- What is read turns into the same with the call replaced, but for places. -/
def Turns (g : Goal) (ts : List Token) (x : Item) (rest : List Token) : Prop :=
  match x with
  | .expr e => ∃ e' rest', Reads g ts (.expr e') rest' ∧
    e'.bare = (Expr.replace H.close H.new e).bare ∧ H.Rel false rest rest'
  | .exprs es => ∃ es' rest', Reads g ts (.exprs es') rest' ∧
    bareExprs es' = bareExprs (replaceExprs H.close H.new es) ∧ H.Rel false rest rest'
  | .arguments es t => ∃ es' t' rest', Reads g ts (.arguments es' t') rest' ∧
    bareExprs es' = bareExprs (replaceExprs H.close H.new es) ∧ t ≠ H.close ∧ H.Rel false rest rest'
  | .fields fs => ∃ fs' rest', Reads g ts (.fields fs') rest' ∧
    bareFields fs' = bareFields (replaceFields H.close H.new fs) ∧ H.Rel false rest rest'
  | .field f k => ∃ f' rest', Reads g ts (.field f' k) rest' ∧
    f'.bare = (Field.replace H.close H.new f).bare ∧ H.Rel false rest rest'
  | .funcBody ps body _ => ∃ ps' body' t' rest', Reads g ts (.funcBody ps' body' t') rest' ∧
    ps'.map Param.bare = ps.map Param.bare ∧
    bareStats body' = bareStats (replaceStats H.close H.new body) ∧ H.Rel false rest rest'
  | .block ss => ∃ ss' rest', Reads g ts (.block ss') rest' ∧
    bareStats ss' = bareStats (replaceStats H.close H.new ss) ∧ H.Rel false rest rest'
  | .stat s => ∃ s' rest', Reads g ts (.stat s') rest' ∧
    s'.bare = (Stat.replace H.close H.new s).bare ∧ H.Rel false rest rest'
  | .orelse o => ∃ o' rest', Reads g ts (.orelse o') rest' ∧
    o'.bare = (Orelse.replace H.close H.new o).bare ∧ H.Rel false rest rest'

/-- Whatever stands for the tokens and for what was read before them, what is read is turned. -/
def Ready (g : Goal) (ts : List Token) (x : Item) (rest : List Token) : Prop :=
  ∀ b ts' e', g.Left (fun e => e'.bare = (Expr.replace H.close H.new e).bare) → H.Rel b ts ts' →
    (b = true → H.fit.Allows g) → H.Good g x → (g = .stat → nextSymbol .dot rest = false) →
    H.Turns (g.setLeft e') ts' x rest

variable {H}

/-! ## Tokens of the two scripts -/

section

variable {b : Bool} {k : Kind} {s t t' : Token} {ts us rest : List Token} {ps : List Param}

theorem Rel.uncons (h : H.Rel false (t :: ts) us) (kind : t.kind = k) :
    ∃ t' us' b, us = t' :: us' ∧ t'.kind = k ∧ H.Alike t t' ∧ (b = true → H.fit.follows k) ∧
      H.Rel b ts us' := by
  cases h with
  | cons alike guard rest => exact ⟨_, _, _, rfl, alike.kind.trans kind, alike, kind ▸ guard, rest⟩

theorem Rel.take (h : H.Rel false (t :: ts) us) (kind : t.kind = k)
    (ends : H.fit.follows k = false := by simp [Fit.follows]) :
    ∃ t' us', us = t' :: us' ∧ t'.kind = k ∧ H.Alike t t' ∧ H.Rel false ts us' := by
  obtain ⟨t', us', b, rfl, kind', alike, guard, rest⟩ := h.uncons kind
  cases b with
  | false => exact ⟨t', us', rfl, kind', alike, rest⟩
  | true => exact absurd (guard rfl) (by simp [ends])

theorem Rel.atHole (h : H.Rel true ts us) :
    ts = H.tokens ∧ us = H.head' :: (H.inner' ++ H.after') ∧ H.Rel false H.after H.after' := by
  cases h with
  | hole rest => exact ⟨rfl, rfl, rest⟩

theorem Rel.notHole (h : H.Rel b (t :: ts) us) (kind : t.kind = k)
    (other : k ≠ .name := by simp) : b = false := by
  cases h with
  | cons => rfl
  | hole => exact absurd (kind.symm.trans H.isName) other

/-- The call does not come after a token that is not followed by a name and a point. -/
theorem Rel.takeName (h : H.Rel false (s :: ts) us) (kind : s.kind = k)
    (next : nextIs .name ts = true → nextSymbol .dot (ts.drop 1) = false) :
    ∃ s' us', us = s' :: us' ∧ s'.kind = k ∧ H.Alike s s' ∧ H.Rel false ts us' := by
  obtain ⟨s', us', b, rfl, kind', alike, -, rest⟩ := h.uncons kind
  cases b with
  | false => exact ⟨s', us', rfl, kind', alike, rest⟩
  | true =>
    obtain ⟨rfl, -, -⟩ := rest.atHole
    simp [tokens, nextIs, H.isName, H.isDot] at next

theorem Rel.forall_head {P : Kind → Prop} (h : H.Rel false ts us) (all : ∀ t ∈ ts.head?, P t.kind) :
    ∀ t ∈ us.head?, P t.kind := by
  cases h with
  | nil => exact all
  | cons alike =>
    intro t' ht
    cases ht
    rw [alike.kind]
    exact all _ rfl

theorem Rel.nextIs_eq (h : H.Rel false ts us) (k : Kind) : nextIs k us = nextIs k ts := by
  cases h with
  | nil => rfl
  | cons alike => simp [nextIs, alike.kind]

theorem Rel.startsExpr_eq (h : H.Rel b ts us) : startsExpr us = startsExpr ts := by
  cases h with
  | nil => rfl
  | cons alike => simp [startsExpr, alike.kind]
  | hole =>
    have new : startsExpr (H.head' :: (H.inner' ++ H.after')) = true := H.starts
    rw [new]
    simp [startsExpr, H.isName]

theorem Rel.of_not_startsExpr (h : H.Rel b ts us) (none : startsExpr ts = false) : b = false := by
  cases b with
  | false => rfl
  | true =>
    obtain ⟨rfl, -, -⟩ := h.atHole
    simp [startsExpr, H.isName] at none

theorem Rel.nextSymbol_eq (h : H.Rel b ts us) (s : Symbol)
    (ends : [.minus, .hash, .tilde, .openParen, .openBrace, .dots].contains s = false := by rfl) :
    nextSymbol s us = nextSymbol s ts := by
  cases h with
  | nil => rfl
  | cons alike => simp [nextIs, alike.kind]
  | hole =>
    have starts := H.starts
    have other : H.head'.kind ≠ .symbol s := by
      intro same
      simp only [startsExpr, same] at starts
      exact Bool.false_ne_true (ends.symm.trans starts)
    simp [nextIs, tokens, H.isName, other]

theorem Rel.noField (h : H.Rel b ts us)
    (hm : (nextIs .name ts && nextSymbol .equal (ts.drop 1)) = false) :
    (nextIs .name us && nextSymbol .equal (us.drop 1)) = false := by
  cases h with
  | nil => rfl
  | hole => exact H.noField
  | @cons b t t' ts us alike guard rest =>
    by_cases name : t.kind = .name
    · have next : b = false := by
        cases b with
        | false => rfl
        | true => simpa [name, Fit.follows] using guard rfl
      subst next
      have first : nextIs .name (t' :: us) = nextIs .name (t :: ts) := by simp [nextIs, alike.kind]
      have second : nextSymbol .equal us = nextSymbol .equal ts := rest.nextIs_eq _
      rw [first, drop_succ_cons, drop_zero, second]
      exact hm
    · simp [nextIs, alike.kind, name]

theorem bare_identAt (h : H.Alike t t') : (identAt t').bare = (identAt t).bare := by
  simp [identAt, Ident.bare, Token.name, h.text]

theorem Rel.takeNamed (h : H.Rel false (s :: t :: ts) us) (ks : s.kind = k) (kt : t.kind = .name)
    (ends : H.fit.follows k = false := by simp [Fit.follows]) :
    ∃ s' t' us', us = s' :: t' :: us' ∧ s'.kind = k ∧ t'.kind = .name ∧
      (identAt t').bare = (identAt t).bare ∧ H.Rel false ts us' := by
  obtain ⟨s', us, rfl, ks, -, rel⟩ := h.take ks ends
  obtain ⟨t', us, rfl, kt, alike, rel⟩ := rel.take kt
  exact ⟨s', t', us, rfl, ks, kt, bare_identAt alike, rel⟩

theorem literal_becomes {e : Expr} (alike : H.Alike t t') (h : literal? t = some e) :
    ∃ e', literal? t' = some e' ∧ e'.bare = (Expr.replace H.close H.new e).bare := by
  unfold literal? at h ⊢
  rw [alike.kind, alike.text]
  split at h
  · cases h; exact ⟨_, rfl, rfl⟩
  · obtain ⟨v, number, rfl⟩ := Option.map_eq_some_iff.mp h
    exact ⟨.number v t', by rw [number]; rfl, rfl⟩
  · cases h; exact ⟨_, rfl, rfl⟩
  · cases h; exact ⟨_, rfl, rfl⟩
  · cases h; exact ⟨_, rfl, rfl⟩
  · cases h; exact ⟨_, rfl, rfl⟩
  · cases h

theorem follows_literal {fit : Fit} {e : Expr} (h : literal? t = some e) :
    fit.follows t.kind = false := by
  unfold literal? at h
  split at h <;> simp_all [Fit.follows]

theorem semicolon_becomes (h : Semicolon ts rest) (rel : H.Rel false ts us) :
    ∃ rest', Semicolon us rest' ∧ H.Rel false rest rest' := by
  cases h with
  | none h => exact ⟨us, .none ((rel.nextIs_eq _).trans h), rel⟩
  | some ht =>
    obtain ⟨t', us', rfl, kt, -, rel⟩ := rel.take ht
    exact ⟨us', .some kt, rel⟩

theorem namesAfter_becomes {sep : Symbol} {ids : List Ident} (h : NamesAfter sep ts ids rest)
    (free : nextSymbol .dot rest = false) :
    ∀ {us}, H.Rel false ts us → ∃ ids' rest', NamesAfter sep us ids' rest' ∧
      ids'.map Ident.bare = ids.map Ident.bare ∧ H.Rel false rest rest' := by
  induction h with
  | stop h => exact fun rel => ⟨[], _, .stop ((rel.nextIs_eq _).trans h), rfl, rel⟩
  | @more ts ids rest s t hs ht h ih =>
    intro us rel
    obtain ⟨s', us, rfl, ks, -, rel⟩ :
        ∃ s' us', us = s' :: us' ∧ s'.kind = .symbol sep ∧ H.Alike s s' ∧ H.Rel false (t :: ts) us' := by
      by_cases dot : sep = .dot
      · exact rel.take hs (by simp [dot, Fit.follows])
      · have plain : nextSymbol .dot ts = false := by
          cases h with
          | stop => exact free
          | more next => simp [nextIs, next, dot]
        exact rel.takeName hs fun _ => plain
    obtain ⟨t', us, rfl, kt, alike, rel⟩ := rel.take ht
    obtain ⟨ids', rest', names, same, rel⟩ := ih free rel
    exact ⟨_, rest', .more ks kt names, by simp [same, bare_identAt alike], rel⟩

theorem ParamsAfter.noDot (h : ParamsAfter ts ps rest) (free : nextSymbol .dot rest = false) :
    nextSymbol .dot ts = false := by
  cases h with
  | stop => exact free
  | dots next | more next => simp [nextIs, next]

theorem paramsAfter_becomes (h : ParamsAfter ts ps rest) (free : nextSymbol .dot rest = false) :
    ∀ {us}, H.Rel false ts us → ∃ ps' rest', ParamsAfter us ps' rest' ∧
      ps'.map Param.bare = ps.map Param.bare ∧ H.Rel false rest rest' := by
  induction h with
  | stop h => exact fun rel => ⟨[], _, .stop ((rel.nextIs_eq _).trans h), rfl, rel⟩
  | dots hs ht =>
    intro us rel
    obtain ⟨s', us, rfl, ks, -, rel⟩ := rel.takeName hs (by simp [nextIs, ht])
    obtain ⟨t', us, rfl, kt, -, rel⟩ := rel.take ht
    exact ⟨_, us, .dots ks kt, rfl, rel⟩
  | more hs ht h ih =>
    intro us rel
    obtain ⟨s', us, rfl, ks, -, rel⟩ := rel.takeName hs fun _ => ParamsAfter.noDot h free
    obtain ⟨t', us, rfl, kt, alike, rel⟩ := rel.take ht
    obtain ⟨ps', rest', params, same, rel⟩ := ih free rel
    exact ⟨_, rest', .more ks kt params, by simp [same, Param.bare, bare_identAt alike], rel⟩

theorem params_becomes (h : Params ts ps rest) (rel : H.Rel false ts us) :
    ∃ ps' rest', Params us ps' rest' ∧ ps'.map Param.bare = ps.map Param.bare ∧
      H.Rel false rest rest' := by
  cases h with
  | none ho hc =>
    obtain ⟨o', us, rfl, ko, -, rel⟩ := rel.takeName ho (by simp [nextIs, hc])
    obtain ⟨c', us, rfl, kc, -, rel⟩ := rel.take hc
    exact ⟨_, us, .none ko kc, rfl, rel⟩
  | dots ho hd hc =>
    obtain ⟨o', us, rfl, ko, -, rel⟩ := rel.takeName ho (by simp [nextIs, hd])
    obtain ⟨d', us, rfl, kd, -, rel⟩ := rel.take hd
    obtain ⟨c', us, rfl, kc, -, rel⟩ := rel.take hc
    exact ⟨_, us, .dots ko kd kc, rfl, rel⟩
  | names ho ht more hc =>
    obtain ⟨o', us, rfl, ko, -, rel⟩ :=
      rel.takeName ho fun _ => ParamsAfter.noDot more (by simp [nextIs, hc])
    obtain ⟨t', us, rfl, kt, alike, rel⟩ := rel.take ht
    obtain ⟨ps', rest', params, same, rel⟩ := paramsAfter_becomes more (by simp [nextIs, hc]) rel
    obtain ⟨c', rest', rfl, kc, -, rel⟩ := rel.take hc
    exact ⟨_, rest', .names ko kt params kc, by simp [same, Param.bare, bare_identAt alike], rel⟩

end

/-! ## What is turned -/

section

variable {b : Bool} {g g₀ : Goal} {x y : Item} {ts ts' rest : List Token}

theorem Ready.at (h : H.Ready g ts x rest) (rel : H.Rel b ts ts') (good : H.Good g₀ y)
    (sub : x.nodes ⊆ y.nodes := by
      intro n hn
      simp only [Item.nodes] at hn
      simp [Item.nodes, Expr.walk, Field.walk, Stat.walk, Orelse.walk, walkExprs, walkFields,
        walkStats, hn])
    (allow : b = true → H.fit.Allows g := by simp [Fit.Allows])
    (plain : (∀ P, g.Left P) ∧ g ≠ .stat ∧ g ≠ .targets := by simp [Goal.Left]) :
    H.Turns (g.setLeft .varargs) ts' x rest :=
  h _ _ _ (plain.1 _) rel allow ⟨fun n hn => good.nodes n (sub hn), fun same => absurd same plain.2.2⟩
    fun same => absurd same plain.2.1

theorem Ready.on (h : H.Ready g ts x rest) (e' : Expr)
    (left : g.Left fun e => e'.bare = (Expr.replace H.close H.new e).bare)
    (rel : H.Rel false ts ts') (good : H.Good g₀ x)
    (plain : g ≠ .stat ∧ g ≠ .targets := by simp) : H.Turns (g.setLeft e') ts' x rest :=
  h _ _ _ left rel (by simp) ⟨good.nodes, fun same => absurd same plain.2⟩ fun same => absurd same plain.1

theorem Good.not_assigned {first last : Token} {targets values : List Expr}
    (h : H.Good .stat (.stat (.assign first last targets values))) : ∀ e ∈ targets, e ≠ H.call :=
  h.nodes (.stat (.assign first last targets values)) (by simp [Item.nodes, Stat.walk])

end

theorem fills_at {fit : Fit} (h : H.fit = fit) :
    fit.Fills (H.head' :: (H.inner' ++ H.after')) H.after' H.read := h ▸ H.fills

theorem same_call : H.read.bare = (Expr.replace H.close H.new H.call).bare := by
  simp [Expr.replace, H.same]

theorem allows_operand {l : Level} {op : BinaryOp} {k : Kind} (ht : l.operator? k = some op)
    (follows : H.fit.follows k) : H.fit.Allows (.operand l) := by
  intro product
  unfold Level.operator? at ht
  split at ht
  case h_21 => cases ht
  all_goals simp [Fit.follows, product] at follows ⊢

theorem allows_chain {fit : Fit} {l l' : Level} (hl : l.next? = some l')
    (h : fit.Allows (.operand l)) : fit.Allows (.chain l') := by
  intro product
  have loose := h product
  cases l <;> cases hl <;> simp at loose ⊢

theorem allows_unary {fit : Fit} {l : Level} (hl : l.next? = none) (h : fit.Allows (.operand l)) :
    fit.Allows .unary := by
  intro product
  have loose := h product
  cases l <;> simp [Level.next?] at hl loose

theorem block_noDot {x : Item} (h : Reads .block ts x rest) :
    nextSymbol .dot ts = false := by
  rw [Bool.eq_false_iff]
  intro dot
  obtain ⟨t, us, rfl, kind⟩ := nextIs_iff.mp dot
  cases h with
  | blockEnd hn => simpa [kind, endsBlock] using hn t rfl
  | returnValues ht => simp [kind] at ht
  | returnNothing ht => simp [kind] at ht
  | blockMore _ _ h =>
    cases h with
    | assign ht | expr ht => simp [kind, startsSuffixed] at ht
    | whileLoop ht | repeatLoop ht | localFunction ht | localAssign ht | localNames ht | goto ht
    | ifThen ht | numericFor ht | genericFor ht | method ht | function ht | label ht | block ht
    | breakLoop ht | semicolon ht => simp [kind] at ht

end Hole

open Hole

/-! ## The script as a whole -/

attribute [local simp] Goal.Left Item.nodes Expr.walk Expr.replace replaceExprs Field.replace
  replaceFields Stat.replace replaceStats Orelse.replace Expr.bare bareExprs Field.bare bareFields
  Stat.bare bareStats Orelse.bare

theorem Reads.ready {H : Hole} {g : Goal} {x : Item} (h : Reads g ts x rest) :
    H.Ready g ts x rest := by
  induction h with
    (intro b ts' left' same rel allow good noDot
     try
       have shut := allow
       simp only [Fit.Allows, imp_false, Bool.not_eq_true] at shut
       subst shut)
  | @chain l ts left us r rest first tail ih ih' =>
    by_cases special : b = true ∧ H.fit = .product ∧ l = .product
    · obtain ⟨rfl, product, rfl⟩ := special
      obtain ⟨rfl, rfl, after⟩ := rel.atHole
      obtain ⟨same, rfl⟩ := first.unique (H.reads_operand product)
      cases same
      obtain ⟨x', rest', read, becomes, rel⟩ := ih'.on H.read same_call after good
      exact ⟨x', rest', fills_at product _ _ read, becomes, rel⟩
    · have allowed : b = true → H.fit.Allows (.operand l) := fun hole product =>
        ⟨fun same => special ⟨hole, product, same⟩, allow hole product⟩
      obtain ⟨left', us', read, same, rel⟩ := ih.at rel good tail.contains allowed
      obtain ⟨r', rest', read', same, rel⟩ := ih'.on left' same rel good
      exact ⟨_, rest', .chain read read', same, rel⟩
  | operandChain hl _ ih =>
    obtain ⟨r', rest', read, same, rel⟩ :=
      ih.at rel good (List.Subset.refl _) fun hole => allows_chain hl (allow hole)
    exact ⟨_, rest', .operandChain hl read, same, rel⟩
  | operandUnary hl _ ih =>
    obtain ⟨r', rest', read, same, rel⟩ :=
      ih.at rel good (List.Subset.refl _) fun hole => allows_unary hl (allow hole)
    exact ⟨_, rest', .operandUnary hl read, same, rel⟩
  | @chainEnd left l ts hn =>
    have ends := rel.forall_head (P := fun k => l.operator? k = none) hn
    exact ⟨_, _, .chainEnd ends, same, rel⟩
  | chainOne ht _ ih =>
    obtain ⟨t', us, b, rfl, kt, -, guard, rel⟩ := rel.uncons rfl
    obtain ⟨right', rest', read, same', rel⟩ := ih.at rel good
      (by simp) fun hole => allows_operand ht (guard hole)
    exact ⟨_, rest', .chainOne (by rw [kt, ht]) read, by simp_all, rel⟩
  | @chainMore op ts right us left r rest l t hl ht _ tail ih ih' =>
    obtain ⟨t', us', b, rfl, kt, -, guard, rel⟩ := rel.uncons rfl
    obtain ⟨right', vs', read, same', rel⟩ :=
      ih.at rel good tail.sub fun hole => allows_operand ht (guard hole)
    obtain ⟨r', rest', read', same, rel⟩ := ih'.on (.binary op left' right')
      (by simp_all) rel good
    exact ⟨_, rest', .chainMore hl (by rw [kt, ht]) read read', same, rel⟩
  | unaryNone ht h ih =>
    cases rel with
    | cons alike guard rel =>
      obtain ⟨r', rest', read, same, rel⟩ := ih.at (.cons alike guard rel) good
      exact ⟨_, rest', .unaryNone (by rw [alike.kind, ht]) read, same, rel⟩
    | hole after =>
      cases fit : H.fit with
      | product => exact absurd fit (allow rfl)
      | unary =>
        obtain ⟨same, rfl⟩ := h.unique (H.reads_power (by simp [fit]))
        cases same
        exact ⟨_, _, fills_at fit, same_call, after⟩
      | power =>
        obtain ⟨r', rest', read, same, rel⟩ :=
          ih.at (.hole after) good (List.Subset.refl _) fun _ => fit
        exact ⟨_, rest', .unaryNone (H.noUnary (by simp [fit])) read, same, rel⟩
  | @unaryLength ts e rest t ht _ ih =>
    have hash : t.kind = .symbol .hash := by
      unfold unaryOp? at ht
      split at ht <;> simp_all
    obtain rfl := rel.notHole hash
    obtain ⟨t', us, b, rfl, kt, -, guard, rel⟩ := rel.uncons hash
    obtain ⟨e', rest', read, same, rel⟩ := ih.at rel good (by simp)
      fun hole => by simpa [Fit.follows, Fit.Allows] using guard hole
    exact ⟨_, rest', .unaryLength (by rw [kt]; rfl) read, by simp [same], rel⟩
  | @unaryOther op ts e rest t ht ho h ih =>
    cases rel with
    | hole => simp [H.isName, unaryOp?] at ht
    | @cons b _ t' _ us alike guard rel =>
      -- the operand of an operator is not the call if a product is put in its place
      have allowed (hole : b = true) : H.fit.Allows .unary := by
        intro product
        subst hole
        obtain ⟨rfl, -, -⟩ := rel.atHole
        obtain ⟨same, -⟩ := h.unique (H.reads_unary (by simp [product]))
        cases same
        have node : H.GoodNode (.expr (.unary op t H.call)) :=
          good.nodes _ (by simp)
        exact node product rfl
      obtain ⟨e', rest', read, same, rel⟩ := ih.at rel good (by simp) allowed
      exact ⟨_, rest', .unaryOther (by rw [alike.kind, ht]) ho read, by simp [same], rel⟩
  | power first tail ih ih' =>
    cases b with
    | true =>
      have fit : H.fit = .power := allow rfl
      obtain ⟨rfl, rfl, after⟩ := rel.atHole
      obtain ⟨same, rfl⟩ := first.unique H.reads_atom
      cases same
      obtain ⟨r', rest', read, same, rel⟩ := ih'.on H.read same_call after good
      exact ⟨_, rest', fills_at fit _ _ read, same, rel⟩
    | false =>
      obtain ⟨e', us', read, same, rel⟩ := ih.at rel good tail.contains
      obtain ⟨r', rest', read', same, rel⟩ := ih'.on e' same rel good
      exact ⟨_, rest', .power read read', same, rel⟩
  | powerEnd hn =>
    exact ⟨_, _, .powerEnd ((rel.nextIs_eq _).trans hn), same, rel⟩
  | powerMore ht _ tail ih ih' =>
    obtain ⟨t', us', rfl, kt, -, rel⟩ := rel.take ht
    obtain ⟨right', vs', read, same', rel⟩ := ih.at rel good tail.sub
    obtain ⟨r', rest', read', same, rel⟩ := ih'.on (.binary .power left' right')
      (by simp_all) rel good
    exact ⟨_, rest', .powerMore kt read read', same, rel⟩
  | atomSuffixed ht _ ih =>
    cases rel with
    | cons alike guard rel =>
      obtain ⟨r', rest', read, same, rel⟩ := ih.at (.cons alike guard rel) good
      exact ⟨_, rest', .atomSuffixed (by rw [alike.kind]; exact ht) read, same, rel⟩
  | atomFunction ht _ ih =>
    obtain ⟨t', us, rfl, kt, -, rel⟩ := rel.take ht
    obtain ⟨ps', body', last', rest', read, params, same, rel⟩ := ih.at rel good
    exact ⟨_, rest', .atomFunction kt read, by simp [params, same], rel⟩
  | atomTable ht _ ih =>
    obtain ⟨t', us, b, rfl, kt, -, -, rel⟩ := rel.uncons ht
    obtain ⟨fs', rest', read, same, rel⟩ := ih.at rel good
    exact ⟨_, rest', .atomTable kt read, by simp [same], rel⟩
  | atomLiteral ht =>
    obtain ⟨t', us, rfl, -, alike, rel⟩ := rel.take rfl (follows_literal ht)
    obtain ⟨e', literal, same⟩ := literal_becomes alike ht
    exact ⟨_, us, .atomLiteral literal, same, rel⟩
  | suffixedParen ht _ hu tail ih ih' =>
    obtain ⟨t', ts', b, rfl, kt, -, -, rel⟩ := rel.uncons ht
    obtain ⟨e', us', read, same, rel⟩ := ih.at rel good tail.contains
    obtain ⟨u', us', rfl, ku, -, rel⟩ := rel.take hu
    obtain ⟨r', rest', read', same, rel⟩ := ih'.on e' same rel good
    exact ⟨_, rest', .suffixedParen kt read ku read', same, rel⟩
  | suffixedName ht tail ih =>
    obtain ⟨t', us, rfl, kt, alike, rel⟩ := rel.take ht
    obtain ⟨r', rest', read, same, rel⟩ := ih.on (.name (identAt t'))
      (by simp [bare_identAt alike]) rel good
    exact ⟨_, rest', .suffixedName kt read, same, rel⟩
  | suffixesEnd hn =>
    have ends := rel.forall_head (P := fun k => isSuffix k = false) hn
    exact ⟨_, _, .suffixesEnd ends, same, rel⟩
  | indexDot ht hu _ ih =>
    obtain ⟨t', u', us, rfl, kt, ku, name, rel⟩ := rel.takeNamed ht hu
    obtain ⟨r', rest', read, same, rel⟩ := ih.on (.index .dot left' (.name (identAt u')))
      (by simp_all) rel good
    exact ⟨_, rest', .indexDot kt ku read, same, rel⟩
  | indexBracket ht _ hu tail ih ih' =>
    obtain ⟨t', us', b, rfl, kt, -, -, rel⟩ := rel.uncons ht
    obtain ⟨key', us', read, same', rel⟩ := ih.at rel good tail.sub
    obtain ⟨u', us', rfl, ku, -, rel⟩ := rel.take hu
    obtain ⟨r', rest', read', same, rel⟩ := ih'.on (.index .bracket left' key')
      (by simp_all) rel good
    exact ⟨_, rest', .indexBracket kt read ku read', same, rel⟩
  | invokeArguments ht hu hv _ tail ih ih' =>
    obtain ⟨t', u', us', rfl, kt, ku, name, rel⟩ := rel.takeNamed ht hu
    obtain ⟨v', us', b, rfl, kv, -, -, rel⟩ := rel.uncons hv
    obtain ⟨args', close', us', read, same', -, rel⟩ := ih.at rel good tail.sub
    obtain ⟨r', rest', read', same, rel⟩ := ih'.on (.invoke left' (identAt u') args')
      (by simp_all) rel good
    exact ⟨_, rest', .invokeArguments kt ku kv read read', same, rel⟩
  | invokeTable ht hu hv _ tail ih ih' =>
    obtain ⟨t', u', us', rfl, kt, ku, name, rel⟩ := rel.takeNamed ht hu
    obtain ⟨v', us', b, rfl, kv, -, -, rel⟩ := rel.uncons hv
    obtain ⟨fs', us', read, same', rel⟩ := ih.at rel good tail.sub
    obtain ⟨r', rest', read', same, rel⟩ := ih'.on (.invoke left' (identAt u') [.table .absent fs'])
      (by simp_all) rel good
    exact ⟨_, rest', .invokeTable kt ku kv read read', same, rel⟩
  | invokeString ht hu hv _ ih =>
    obtain ⟨t', u', us', rfl, kt, ku, name, rel⟩ := rel.takeNamed ht hu
    obtain ⟨v', us', rfl, kv, alike', rel⟩ := rel.take hv
    obtain ⟨r', rest', read, same, rel⟩ := ih.on
      (.invoke left' (identAt u') [.string (stringValue v'.text) .unreadable v'])
      (by simp_all [alike'.text]) rel good
    exact ⟨_, rest', .invokeString kt ku kv read, same, rel⟩
  | callArguments ht hb _ tail ih ih' =>
    obtain ⟨t', us', b, rfl, kt, alike, -, rel⟩ := rel.uncons ht
    obtain ⟨args', close', us', read, same', other, rel⟩ := ih.at rel good tail.sub
    obtain ⟨r', rest', read', same, rel⟩ := ih'.on (.call left' args' (some close'))
      (by simp_all) rel good
    exact ⟨_, rest', .callArguments kt (by rw [alike.afterBreak, hb]) read read', same, rel⟩
  | callTable ht _ tail ih ih' =>
    obtain ⟨t', us', b, rfl, kt, -, -, rel⟩ := rel.uncons ht
    obtain ⟨fs', us', read, same', rel⟩ := ih.at rel good tail.sub
    obtain ⟨r', rest', read', same, rel⟩ := ih'.on (.call left' [.table left'.first fs'] none)
      (by simp_all) rel good
    exact ⟨_, rest', .callTable kt read read', same, rel⟩
  | callString ht _ ih =>
    obtain ⟨t', us', rfl, kt, alike, rel⟩ := rel.take ht
    obtain ⟨r', rest', read, same, rel⟩ := ih.on
      (.call left' [.string (stringValue t'.text) left'.first t'] (some t'))
      (by simp_all [alike.text, alike.other]) rel good
    exact ⟨_, rest', .callString kt read, same, rel⟩
  | argumentsNone ht =>
    obtain rfl := rel.notHole ht
    obtain ⟨t', us, rfl, kt, alike, rel⟩ := rel.take ht
    exact ⟨_, _, us, .argumentsNone kt, rfl, alike.other, rel⟩
  | argumentsSome hn _ hu ih =>
    have next := (rel.nextSymbol_eq .closeParen).trans hn
    obtain ⟨es', us', read, same, rel⟩ := ih.at rel good
    obtain ⟨u', us', rfl, ku, alike, rel⟩ := rel.take hu
    exact ⟨_, _, us', .argumentsSome next read ku, same, alike.other, rel⟩
  | exprsOne _ hn ih =>
    obtain ⟨e', rest', read, same, rel⟩ := ih.at rel good
    exact ⟨_, rest', .exprsOne read ((rel.nextIs_eq _).trans hn), by simp [same], rel⟩
  | exprsMore _ hu _ ih ih' =>
    obtain ⟨e', us', read, same, rel⟩ := ih.at rel good
    obtain ⟨u', us', b, rfl, ku, -, -, rel⟩ := rel.uncons hu
    obtain ⟨es', rest', read', same', rel⟩ := ih'.at rel good
    exact ⟨_, rest', .exprsMore read ku read', by simp [same, same'], rel⟩
  | fieldsEnd ht =>
    obtain rfl := rel.notHole ht
    obtain ⟨t', us, rfl, kt, -, rel⟩ := rel.take ht
    exact ⟨_, us, .fieldsEnd kt, rfl, rel⟩
  | fieldsLast hn _ hu ih =>
    have next := (rel.nextSymbol_eq .closeBrace).trans hn
    obtain ⟨f', us', read, same, rel⟩ := ih.at rel good
    obtain ⟨u', us', rfl, ku, -, rel⟩ := rel.take hu
    exact ⟨_, us', .fieldsLast next read ku, by simp [same], rel⟩
  | fieldsMore hn _ hu _ ih ih' =>
    have next := (rel.nextSymbol_eq .closeBrace).trans hn
    obtain ⟨f', us', read, same, rel⟩ := ih.at rel good
    obtain ⟨u', us', b, rfl, ku, -, -, rel⟩ := rel.uncons rfl
    obtain ⟨fs', rest', read', same', rel⟩ := ih'.at rel good
    exact ⟨_, rest', .fieldsMore next read (by rw [ku]; exact hu) read', by simp [same, same'], rel⟩
  | fieldKey ht _ hu hv _ ih ih' =>
    obtain rfl := rel.notHole ht
    obtain ⟨t', us', b, rfl, kt, -, -, rel⟩ := rel.uncons ht
    obtain ⟨key', us', read, same, rel⟩ := ih.at rel good
    obtain ⟨u', us', rfl, ku, -, rel⟩ := rel.take hu
    obtain ⟨v', us', b, rfl, kv, -, -, rel⟩ := rel.uncons hv
    obtain ⟨value', rest', read', same', rel⟩ := ih'.at rel good
    exact ⟨_, rest', .fieldKey kt read ku kv read', by simp [same, same'], rel⟩
  | fieldName ht hu _ ih =>
    obtain rfl : b = false := by
      cases rel with
      | cons => rfl
      | hole => simp [H.isDot] at hu
    obtain ⟨t', us, rfl, kt, alike, rel⟩ := rel.take ht
    obtain ⟨u', us, b, rfl, ku, -, -, rel⟩ := rel.uncons hu
    obtain ⟨value', rest', read, same, rel⟩ := ih.at rel good
    exact ⟨_, rest', .fieldName kt ku read, by simp [same, bare_identAt alike], rel⟩
  | fieldNext hn hm _ ih =>
    have next := (rel.nextSymbol_eq .openBracket).trans hn
    have plain := rel.noField hm
    obtain ⟨value', rest', read, same, rel⟩ := ih.at rel good
    exact ⟨_, rest', .fieldNext next plain read, by simp [same], rel⟩
  | funcBody hp _ hv ih =>
    obtain ⟨ps', us', params, same, rel⟩ := params_becomes hp rel
    obtain ⟨body', vs', read, same', rel⟩ := ih.at rel good
    obtain ⟨v', vs', rfl, kv, -, rel⟩ := rel.take hv
    exact ⟨_, _, _, vs', .funcBody params read kv, same, same', rel⟩
  | blockEnd hn =>
    have ends := rel.forall_head (P := fun k => endsBlock k = true) hn
    exact ⟨_, _, .blockEnd ends, rfl, rel⟩
  | returnValues ht hs _ hr ih =>
    obtain ⟨t', us', b, rfl, kt, -, -, rel⟩ := rel.uncons ht
    have starts := rel.startsExpr_eq.trans hs
    obtain ⟨es', us', read, same, rel⟩ := ih.at rel good
    obtain ⟨rest', semicolon, rel⟩ := semicolon_becomes hr rel
    exact ⟨_, rest', .returnValues kt starts read semicolon, by simp [same], rel⟩
  | returnNothing ht hs hr =>
    obtain ⟨t', us', b, rfl, kt, -, -, rel⟩ := rel.uncons ht
    obtain rfl := rel.of_not_startsExpr hs
    have starts := rel.startsExpr_eq.trans hs
    obtain ⟨rest', semicolon, rel⟩ := semicolon_becomes hr rel
    exact ⟨_, rest', .returnNothing kt starts semicolon, rfl, rel⟩
  | @blockMore ts s us ss rest t ht hr _ more ih ih' =>
    cases rel with
    | cons alike guard rel =>
      have first : H.Good .stat (.stat s) := ⟨fun n hn => good.nodes n (mem_append_left _ hn), by simp⟩
      obtain ⟨s', us', read, same, rel⟩ := ih _ _ .varargs trivial (.cons alike guard rel) (by simp)
        first fun _ => block_noDot more
      obtain ⟨ss', rest', read', same', rel⟩ := ih'.at rel good
      exact ⟨_, rest', .blockMore (by rw [alike.kind, ht]) (by rw [alike.kind]; exact hr) read read',
        by simp [same, same'], rel⟩
  | doBlock ht _ hu ih =>
    obtain ⟨t', us', rfl, kt, -, rel⟩ := rel.take ht
    obtain ⟨body', us', read, same, rel⟩ := ih.at rel good
    obtain ⟨u', us', rfl, ku, -, rel⟩ := rel.take hu
    exact ⟨_, us', .doBlock kt read ku, same, rel⟩
  | @assign ts target us more vs values rest t u ht _ hn _ hu _ ih ihm ihv =>
    cases rel with
    | cons alike guard rel =>
      obtain ⟨target', us', read, same, rel⟩ := ih.at (.cons alike guard rel) good
      have next : (nextSymbol .comma us' || nextSymbol .equal us') = true := by
        rw [rel.nextSymbol_eq .comma, rel.nextSymbol_eq .equal, hn]
      have others : H.Good .targets (.exprs more) := by
        refine ⟨fun n hn => good.nodes n ?_, fun _ es same e he => ?_⟩
        · simp only [Item.nodes] at hn
          simp [Stat.walk, walkExprs, hn]
        · cases same
          exact good.not_assigned e (mem_cons_of_mem _ he)
      obtain ⟨more', vs', readMore, sameMore, rel⟩ :=
        ihm _ _ .varargs trivial rel (by simp) others (by simp)
      obtain ⟨u', vs', b, rfl, ku, -, -, rel⟩ := rel.uncons hu
      obtain ⟨values', rest', readValues, sameValues, rel⟩ := ihv.at rel good
      exact ⟨_, rest', .assign (by rw [alike.kind]; exact ht) read next readMore ku readValues,
        by simp [same, sameMore, sameValues], rel⟩
  | expr ht _ hn ih =>
    cases rel with
    | cons alike guard rel =>
      obtain ⟨e', rest', read, same, rel⟩ := ih.at (.cons alike guard rel) good
      have next : (nextSymbol .comma rest' || nextSymbol .equal rest') = false := by
        rw [rel.nextSymbol_eq .comma, rel.nextSymbol_eq .equal, hn]
      exact ⟨_, rest', .expr (by rw [alike.kind]; exact ht) read next, by simp [same], rel⟩
  | whileLoop ht _ _ ih ih' =>
    obtain ⟨t', us', b, rfl, kt, -, -, rel⟩ := rel.uncons ht
    obtain ⟨test', us', read, same, rel⟩ := ih.at rel good
    obtain ⟨body', rest', read', same', rel⟩ := ih'.at rel good
    exact ⟨_, rest', .whileLoop kt read read', by simp [same, same'], rel⟩
  | repeatLoop ht _ hu _ ih ih' =>
    obtain ⟨t', us', rfl, kt, -, rel⟩ := rel.take ht
    obtain ⟨body', us', read, same, rel⟩ := ih.at rel good
    obtain ⟨u', us', b, rfl, ku, -, -, rel⟩ := rel.uncons hu
    obtain ⟨test', rest', read', same', rel⟩ := ih'.at rel good
    exact ⟨_, rest', .repeatLoop kt read ku read', by simp [same, same'], rel⟩
  | localFunction ht hu hv _ ih =>
    obtain ⟨t', us', rfl, kt, -, rel⟩ := rel.take ht
    obtain ⟨u', v', us', rfl, ku, kv, name, rel⟩ := rel.takeNamed hu hv
    obtain ⟨ps', body', last', rest', read, params, same, rel⟩ := ih.at rel good
    exact ⟨_, rest', .localFunction kt ku kv read, by simp [params, same, name], rel⟩
  | localAssign ht hu hi hv _ ih =>
    obtain ⟨t', u', us', rfl, kt, ku, name, rel⟩ := rel.takeNamed ht hu
    obtain ⟨ids', us', names, same, rel⟩ := namesAfter_becomes hi (by simp [nextIs, hv]) rel
    obtain ⟨v', us', b, rfl, kv, -, -, rel⟩ := rel.uncons hv
    obtain ⟨values', rest', read, same', rel⟩ := ih.at rel good
    exact ⟨_, rest', .localAssign kt ku names kv read, by simp [same, same', name], rel⟩
  | localNames ht hu hi hn =>
    obtain ⟨t', u', us', rfl, kt, ku, name, rel⟩ := rel.takeNamed ht hu
    obtain ⟨ids', rest', names, same, rel⟩ := namesAfter_becomes hi (noDot rfl) rel
    exact ⟨_, rest', .localNames kt ku names ((rel.nextIs_eq _).trans hn),
      by simp [same, name], rel⟩
  | goto ht hu =>
    obtain ⟨t', u', us', rfl, kt, ku, name, rel⟩ := rel.takeNamed ht hu
    exact ⟨_, us', .goto kt ku, by simp [name], rel⟩
  | ifThen ht _ hu _ _ ih ihb iho =>
    obtain ⟨t', us', b, rfl, kt, -, -, rel⟩ := rel.uncons ht
    obtain ⟨test', us', read, same, rel⟩ := ih.at rel good
    obtain ⟨u', us', rfl, ku, -, rel⟩ := rel.take hu
    obtain ⟨body', vs', readBody, sameBody, rel⟩ := ihb.at rel good
    obtain ⟨o', rest', readElse, sameElse, rel⟩ := iho.at rel good
    exact ⟨_, rest', .ifThen kt read ku readBody readElse, by simp [same, sameBody, sameElse], rel⟩
  | numericFor ht hu hv _ _ ih ih' =>
    obtain ⟨t', u', us', rfl, kt, ku, name, rel⟩ := rel.takeNamed ht hu
    obtain ⟨v', us', b, rfl, kv, -, -, rel⟩ := rel.uncons hv
    obtain ⟨bounds', us', read, same, rel⟩ := ih.at rel good
    obtain ⟨body', rest', read', same', rel⟩ := ih'.at rel good
    exact ⟨_, rest', .numericFor kt ku kv read read', by simp [same, same', name], rel⟩
  | genericFor ht hu hn hi hv _ _ ih ih' =>
    obtain ⟨t', u', us', rfl, kt, ku, name, rel⟩ := rel.takeNamed ht hu
    have next := (rel.nextIs_eq _).trans hn
    obtain ⟨ids', us', names, same, rel⟩ := namesAfter_becomes hi (by simp [nextIs, hv]) rel
    obtain ⟨v', us', b, rfl, kv, -, -, rel⟩ := rel.uncons hv
    obtain ⟨es', vs', read, same', rel⟩ := ih.at rel good
    obtain ⟨body', rest', read', same'', rel⟩ := ih'.at rel good
    exact ⟨_, rest', .genericFor kt ku next names kv read read',
      by simp [same, same', same'', name], rel⟩
  | method ht hu hi hv hw _ ih =>
    obtain ⟨t', u', us', rfl, kt, ku, name, rel⟩ := rel.takeNamed ht hu
    obtain ⟨path', us', names, same, rel⟩ := namesAfter_becomes hi (by simp [nextIs, hv]) rel
    obtain ⟨v', w', us', rfl, kv, kw, name', rel⟩ := rel.takeNamed hv hw
    obtain ⟨ps', body', last', rest', read, params, same', rel⟩ := ih.at rel good
    exact ⟨_, rest', .method kt ku names kv kw read,
      by simp [params, same, same', name, name'], rel⟩
  | function ht hu hi hn _ ih =>
    obtain ⟨t', u', us', rfl, kt, ku, name, rel⟩ := rel.takeNamed ht hu
    obtain ⟨path', us', names, same, rel⟩ := namesAfter_becomes hi hi.stops rel
    have next := (rel.nextIs_eq _).trans hn
    obtain ⟨ps', body', last', rest', read, params, same', rel⟩ := ih.at rel good
    exact ⟨_, rest', .function kt ku names next read,
      by simp [params, same, same', name], rel⟩
  | label ht hu hv =>
    obtain ⟨t', u', us', rfl, kt, ku, name, rel⟩ := rel.takeNamed ht hu
    obtain ⟨v', us', rfl, kv, -, rel⟩ := rel.take hv
    exact ⟨_, us', .label kt ku kv, by simp [name], rel⟩
  | block ht _ ih =>
    cases rel with
    | cons alike guard rel =>
      obtain ⟨body', rest', read, same, rel⟩ := ih.at (.cons alike guard rel) good
      exact ⟨_, rest', .block (by rw [alike.kind, ht]) read, by simp [same], rel⟩
  | breakLoop ht =>
    obtain ⟨t', us', rfl, kt, -, rel⟩ := rel.take ht
    exact ⟨_, us', .breakLoop kt, rfl, rel⟩
  | semicolon ht =>
    obtain ⟨t', us', rfl, kt, -, rel⟩ := rel.take ht
    exact ⟨_, us', .semicolon kt, rfl, rel⟩
  | targetsEnd hn =>
    exact ⟨_, _, .targetsEnd ((rel.nextIs_eq _).trans hn), rfl, rel⟩
  | @targetsMore ts e us es rest t ht h _ ih ih' =>
    obtain ⟨t', us', b, rfl, kt, -, -, rel⟩ := rel.uncons ht
    cases b with
    | true =>
      obtain ⟨rfl, -, -⟩ := rel.atHole
      obtain ⟨same, -⟩ := h.unique H.reads
      cases same
      exact absurd rfl (good.targets rfl _ rfl _ mem_cons_self)
    | false =>
      obtain ⟨e', us', read, same, rel⟩ := ih.at rel good
      have others : H.Good .targets (.exprs es) := by
        refine ⟨fun n hn => good.nodes n (mem_append_right _ hn), fun _ es same e he => ?_⟩
        cases same
        exact good.targets rfl _ rfl e (mem_cons_of_mem _ he)
      obtain ⟨es', rest', read', same', rel⟩ := ih' _ _ .varargs trivial rel (by simp) others (by simp)
      exact ⟨_, rest', .targetsMore kt read read', by simp [same, same'], rel⟩
  | boundsTwo _ hu _ hn ihs ihl =>
    obtain ⟨start', us', read, same, rel⟩ := ihs.at rel good
    obtain ⟨u', us', b, rfl, ku, -, -, rel⟩ := rel.uncons hu
    obtain ⟨limit', rest', read', same', rel⟩ := ihl.at rel good
    exact ⟨_, rest', .boundsTwo read ku read' ((rel.nextIs_eq _).trans hn), by simp [same, same'], rel⟩
  | boundsComma _ hu _ hv hn ihs ihl =>
    obtain ⟨start', us', read, same, rel⟩ := ihs.at rel good
    obtain ⟨u', us', b, rfl, ku, -, -, rel⟩ := rel.uncons hu
    obtain ⟨limit', rest', read', same', rel⟩ := ihl.at rel good
    obtain ⟨v', rest', b, rfl, kv, -, -, rel⟩ := rel.uncons hv
    obtain rfl := rel.of_not_startsExpr hn
    exact ⟨_, rest', .boundsComma read ku read' kv (rel.startsExpr_eq.trans hn),
      by simp [same, same'], rel⟩
  | boundsThree _ hu _ hv hn _ ihs ihl ih =>
    obtain ⟨start', us', read, same, rel⟩ := ihs.at rel good
    obtain ⟨u', us', b, rfl, ku, -, -, rel⟩ := rel.uncons hu
    obtain ⟨limit', vs', read', same', rel⟩ := ihl.at rel good
    obtain ⟨v', vs', b, rfl, kv, -, -, rel⟩ := rel.uncons hv
    have starts := rel.startsExpr_eq.trans hn
    obtain ⟨step', rest', read'', same'', rel⟩ := ih.at rel good
    exact ⟨_, rest', .boundsThree read ku read' kv starts read'', by simp [same, same', same''], rel⟩
  | orelseEnd ht =>
    obtain ⟨t', us', rfl, kt, -, rel⟩ := rel.take ht
    exact ⟨_, us', .orelseEnd kt, rfl, rel⟩
  | orelseBlock ht _ hu ih =>
    obtain ⟨t', us', rfl, kt, -, rel⟩ := rel.take ht
    obtain ⟨body', us', read, same, rel⟩ := ih.at rel good
    obtain ⟨u', us', rfl, ku, -, rel⟩ := rel.take hu
    exact ⟨_, us', .orelseBlock kt read ku, by simp [same], rel⟩
  | elseif ht _ hu _ _ ih ihb iho =>
    obtain ⟨t', us', b, rfl, kt, -, -, rel⟩ := rel.uncons ht
    obtain ⟨test', us', read, same, rel⟩ := ih.at rel good
    obtain ⟨u', us', rfl, ku, -, rel⟩ := rel.take hu
    obtain ⟨body', vs', readBody, sameBody, rel⟩ := ihb.at rel good
    obtain ⟨o', rest', readElse, sameElse, rel⟩ := iho.at rel good
    exact ⟨_, rest', .elseif kt read ku readBody readElse, by simp [same, sameBody, sameElse], rel⟩

end Grammar

open Grammar Hole in
theorem Chunk.ofTokens?_replaced {H : Hole} {ts ts' : List Token} {c : Chunk}
    (read : Chunk.ofTokens? ts = some c) (rel : H.Rel false ts ts')
    (good : ∀ n ∈ c.walk, H.GoodNode n) :
    ∃ c', Chunk.ofTokens? ts' = some c' ∧ c'.bare = (Chunk.replace H.close H.new c).bare := by
  have nodes : H.Good .block (.block c) :=
    ⟨fun n hn => good n (by simp_all [Chunk.walk, Item.nodes]), by simp⟩
  have derived := Chunk.ofTokens?_eq_some.mp read
  obtain ⟨c', rest', read', same, rel⟩ := derived.ready.at rel nodes (List.Subset.refl _)
  cases rel
  exact ⟨c', Chunk.ofTokens?_eq_some.mpr read', same⟩

end LuaTune.Lua
