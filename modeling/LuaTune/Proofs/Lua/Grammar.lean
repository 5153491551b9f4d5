import LuaTune.Lua.Syntax.Parse
import Mathlib.Tactic.Common

/-!
# The grammar

`Reads` says what can be read at the start of some tokens and what is left of them, rule by rule and
without a bound on the depth of calls.
-/

namespace LuaTune.Lua.Grammar

/-! ## Names -/

def identAt (t : Token) : Ident := ⟨t.name, t⟩

inductive NamesAfter (sep : Symbol) : List Token → List Ident → List Token → Prop where
  | stop (h : nextSymbol sep ts = false) : NamesAfter sep ts [] ts
  | more {s t : Token} (hs : s.kind = .symbol sep) (ht : t.kind = .name)
    (h : NamesAfter sep ts ids rest) : NamesAfter sep (s :: t :: ts) (identAt t :: ids) rest

inductive ParamsAfter : List Token → List Param → List Token → Prop where
  | stop (h : nextSymbol .comma ts = false) : ParamsAfter ts [] ts
  | dots {s t : Token} (hs : s.kind = .symbol .comma) (ht : t.kind = .symbol .dots) :
    ParamsAfter (s :: t :: ts) [.varargs] ts
  | more {s t : Token} (hs : s.kind = .symbol .comma) (ht : t.kind = .name)
    (h : ParamsAfter ts ps rest) : ParamsAfter (s :: t :: ts) (.name (identAt t) :: ps) rest

inductive Params : List Token → List Param → List Token → Prop where
  | none {o c : Token} (ho : o.kind = .symbol .openParen) (hc : c.kind = .symbol .closeParen) :
    Params (o :: c :: ts) [] ts
  | dots {o d c : Token} (ho : o.kind = .symbol .openParen) (hd : d.kind = .symbol .dots)
    (hc : c.kind = .symbol .closeParen) : Params (o :: d :: c :: ts) [.varargs] ts
  | names {o t c : Token} (ho : o.kind = .symbol .openParen) (ht : t.kind = .name)
    (h : ParamsAfter ts ps (c :: rest)) (hc : c.kind = .symbol .closeParen) :
    Params (o :: t :: ts) (.name (identAt t) :: ps) rest

/-! ## Tokens -/

def literal? (t : Token) : Option Expr :=
  match t.kind with
  | .symbol .dots => some .varargs
  | .number => (Numeral.ofText? t.text).map fun v => .number v t
  | .string => some (.string (stringValue t.text) (.at t) t)
  | .keyword .nil_ => some (.nil t)
  | .keyword .true_ => some (.bool true t)
  | .keyword .false_ => some (.bool false t)
  | _ => none

def isSuffix : Kind → Bool
  | .symbol s => [.dot, .openBracket, .colon, .openParen, .openBrace].contains s
  | .string => true
  | _ => false

def startsSuffixed (k : Kind) : Bool := k == .name || k == .symbol .openParen

def endsBlock : Kind → Bool
  | .keyword k => [.end_, .else_, .elseif_, .until_].contains k
  | _ => false

inductive Semicolon : List Token → List Token → Prop where
  | none (h : nextSymbol .semicolon ts = false) : Semicolon ts ts
  | some {t : Token} (ht : t.kind = .symbol .semicolon) : Semicolon (t :: ts) ts

/-! ## Rules -/

/-- What is to be read, and what was read of it before. -/
inductive Goal where
  | chain (l : Level)
  | operand (l : Level)
  | chainTail (l : Level) (left : Expr)
  | unary
  | power
  | powerTail (left : Expr)
  | atom
  | suffixed
  | suffixes (base : Expr)
  | arguments
  | exprs
  | fields (k : Nat)
  | field (k : Nat)
  | funcBody
  | block
  | doBlock
  | stat
  | targets
  | bounds
  | orelse

inductive Item where
  | expr (e : Expr)
  | exprs (es : List Expr)
  | arguments (es : List Expr) (close : Token)
  | fields (fs : List Field)
  | field (f : Field) (k : Nat)
  | funcBody (ps : List Param) (body : List Stat) (last : Token)
  | block (ss : List Stat)
  | stat (s : Stat)
  | orelse (o : Orelse)

inductive Reads : Goal → List Token → Item → List Token → Prop where
  | chain (first : Reads (.operand l) ts (.expr left) us)
    (tail : Reads (.chainTail l left) us (.expr r) rest) : Reads (.chain l) ts (.expr r) rest
  | operandChain {l : Level} (hl : l.next? = some l') (h : Reads (.chain l') ts (.expr r) rest) :
    Reads (.operand l) ts (.expr r) rest
  | operandUnary {l : Level} (hl : l.next? = none) (h : Reads .unary ts (.expr r) rest) :
    Reads (.operand l) ts (.expr r) rest
  | chainEnd {l : Level} {ts : List Token} (hn : ∀ t ∈ ts.head?, l.operator? t.kind = none) :
    Reads (.chainTail l left) ts (.expr left) ts
  | chainOne {t : Token} (ht : Level.relation.operator? t.kind = some op)
    (h : Reads (.operand .relation) ts (.expr right) rest) :
    Reads (.chainTail .relation left) (t :: ts) (.expr (.binary op left right)) rest
  | chainMore {l : Level} {t : Token} (hl : l ≠ .relation) (ht : l.operator? t.kind = some op)
    (h : Reads (.operand l) ts (.expr right) us)
    (tail : Reads (.chainTail l (.binary op left right)) us (.expr r) rest) :
    Reads (.chainTail l left) (t :: ts) (.expr r) rest
  | unaryNone {t : Token} (ht : unaryOp? t.kind = none) (h : Reads .power (t :: ts) (.expr r) rest) :
    Reads .unary (t :: ts) (.expr r) rest
  | unaryLength {t : Token} (ht : unaryOp? t.kind = some .length)
    (h : Reads .power ts (.expr e) rest) : Reads .unary (t :: ts) (.expr (.unary .length t e)) rest
  | unaryOther {t : Token} (ht : unaryOp? t.kind = some op) (ho : op ≠ .length)
    (h : Reads .unary ts (.expr e) rest) : Reads .unary (t :: ts) (.expr (.unary op t e)) rest
  | power (first : Reads .atom ts (.expr e) us) (tail : Reads (.powerTail e) us (.expr r) rest) :
    Reads .power ts (.expr r) rest
  | powerEnd (hn : nextSymbol .caret ts = false) : Reads (.powerTail left) ts (.expr left) ts
  | powerMore {t : Token} (ht : t.kind = .symbol .caret) (h : Reads .atom ts (.expr right) us)
    (tail : Reads (.powerTail (.binary .power left right)) us (.expr r) rest) :
    Reads (.powerTail left) (t :: ts) (.expr r) rest
  | atomSuffixed {t : Token} (ht : startsSuffixed t.kind)
    (h : Reads .suffixed (t :: ts) (.expr r) rest) : Reads .atom (t :: ts) (.expr r) rest
  | atomFunction {t : Token} (ht : t.kind = .keyword .function_)
    (h : Reads .funcBody ts (.funcBody ps body last) rest) :
    Reads .atom (t :: ts) (.expr (.function t last ps body)) rest
  | atomTable {t : Token} (ht : t.kind = .symbol .openBrace)
    (h : Reads (.fields 1) ts (.fields fs) rest) :
    Reads .atom (t :: ts) (.expr (.table .absent fs)) rest
  | atomLiteral (ht : literal? t = some e) : Reads .atom (t :: ts) (.expr e) ts
  | suffixedParen {t u : Token} (ht : t.kind = .symbol .openParen)
    (h : Reads (.chain .or) ts (.expr e) (u :: us)) (hu : u.kind = .symbol .closeParen)
    (tail : Reads (.suffixes e) us (.expr r) rest) : Reads .suffixed (t :: ts) (.expr r) rest
  | suffixedName {t : Token} (ht : t.kind = .name)
    (tail : Reads (.suffixes (.name (identAt t))) ts (.expr r) rest) :
    Reads .suffixed (t :: ts) (.expr r) rest
  | suffixesEnd {ts : List Token} (hn : ∀ t ∈ ts.head?, isSuffix t.kind = false) :
    Reads (.suffixes base) ts (.expr base) ts
  | indexDot {t u : Token} (ht : t.kind = .symbol .dot) (hu : u.kind = .name)
    (tail : Reads (.suffixes (.index .dot base (.name (identAt u)))) ts (.expr r) rest) :
    Reads (.suffixes base) (t :: u :: ts) (.expr r) rest
  | indexBracket {t u : Token} (ht : t.kind = .symbol .openBracket)
    (h : Reads (.chain .or) ts (.expr key) (u :: us)) (hu : u.kind = .symbol .closeBracket)
    (tail : Reads (.suffixes (.index .bracket base key)) us (.expr r) rest) :
    Reads (.suffixes base) (t :: ts) (.expr r) rest
  | invokeArguments {t u v : Token} (ht : t.kind = .symbol .colon) (hu : u.kind = .name)
    (hv : v.kind = .symbol .openParen) (h : Reads .arguments ts (.arguments args close) us)
    (tail : Reads (.suffixes (.invoke base (identAt u) args)) us (.expr r) rest) :
    Reads (.suffixes base) (t :: u :: v :: ts) (.expr r) rest
  | invokeTable {t u v : Token} (ht : t.kind = .symbol .colon) (hu : u.kind = .name)
    (hv : v.kind = .symbol .openBrace) (h : Reads (.fields 1) ts (.fields fs) us)
    (tail : Reads (.suffixes (.invoke base (identAt u) [.table .absent fs])) us (.expr r) rest) :
    Reads (.suffixes base) (t :: u :: v :: ts) (.expr r) rest
  | invokeString {t u v : Token} (ht : t.kind = .symbol .colon) (hu : u.kind = .name)
    (hv : v.kind = .string)
    (tail : Reads (.suffixes (.invoke base (identAt u) [.string (stringValue v.text) .unreadable v])) ts (.expr r) rest) :
    Reads (.suffixes base) (t :: u :: v :: ts) (.expr r) rest
  | callArguments {t : Token} (ht : t.kind = .symbol .openParen) (hb : t.afterBreak = false)
    (h : Reads .arguments ts (.arguments args close) us)
    (tail : Reads (.suffixes (.call base args (some close))) us (.expr r) rest) :
    Reads (.suffixes base) (t :: ts) (.expr r) rest
  | callTable {t : Token} {base : Expr} (ht : t.kind = .symbol .openBrace)
    (h : Reads (.fields 1) ts (.fields fs) us)
    (tail : Reads (.suffixes (.call base [.table base.first fs] none)) us (.expr r) rest) :
    Reads (.suffixes base) (t :: ts) (.expr r) rest
  | callString {t : Token} {base : Expr} (ht : t.kind = .string)
    (tail : Reads (.suffixes (.call base [.string (stringValue t.text) base.first t] (some t))) ts (.expr r) rest) :
    Reads (.suffixes base) (t :: ts) (.expr r) rest
  | argumentsNone {t : Token} (ht : t.kind = .symbol .closeParen) :
    Reads .arguments (t :: ts) (.arguments [] t) ts
  | argumentsSome {u : Token} (hn : nextSymbol .closeParen ts = false)
    (h : Reads .exprs ts (.exprs es) (u :: us)) (hu : u.kind = .symbol .closeParen) :
    Reads .arguments ts (.arguments es u) us
  | exprsOne (h : Reads (.chain .or) ts (.expr e) rest) (hn : nextSymbol .comma rest = false) :
    Reads .exprs ts (.exprs [e]) rest
  | exprsMore {u : Token} (h : Reads (.chain .or) ts (.expr e) (u :: us))
    (hu : u.kind = .symbol .comma) (more : Reads .exprs us (.exprs es) rest) :
    Reads .exprs ts (.exprs (e :: es)) rest
  | fieldsEnd {t : Token} (ht : t.kind = .symbol .closeBrace) :
    Reads (.fields k) (t :: ts) (.fields []) ts
  | fieldsLast {u : Token} (hn : nextSymbol .closeBrace ts = false)
    (h : Reads (.field k) ts (.field f k') (u :: us)) (hu : u.kind = .symbol .closeBrace) :
    Reads (.fields k) ts (.fields [f]) us
  | fieldsMore {u : Token} (hn : nextSymbol .closeBrace ts = false)
    (h : Reads (.field k) ts (.field f k') (u :: us))
    (hu : u.kind = .symbol .comma ∨ u.kind = .symbol .semicolon)
    (more : Reads (.fields k') us (.fields fs) rest) : Reads (.fields k) ts (.fields (f :: fs)) rest
  | fieldKey {t u v : Token} (ht : t.kind = .symbol .openBracket)
    (hk : Reads (.chain .or) ts (.expr key) (u :: v :: us)) (hu : u.kind = .symbol .closeBracket)
    (hv : v.kind = .symbol .equal) (h : Reads (.chain .or) us (.expr value) rest) :
    Reads (.field k) (t :: ts) (.field (.mk key value) k) rest
  | fieldName {t u : Token} (ht : t.kind = .name) (hu : u.kind = .symbol .equal)
    (h : Reads (.chain .or) ts (.expr value) rest) :
    Reads (.field k) (t :: u :: ts) (.field (.mk (.name (identAt t)) value) k) rest
  | fieldNext {ts : List Token} (hn : nextSymbol .openBracket ts = false)
    (hm : (nextIs .name ts && nextSymbol .equal (ts.drop 1)) = false)
    (h : Reads (.chain .or) ts (.expr value) rest) :
    Reads (.field k) ts (.field (.mk (.number (.int k) none) value) (k + 1)) rest
  | funcBody {v : Token} (hp : Params ts ps us) (h : Reads .block us (.block body) (v :: vs))
    (hv : v.kind = .keyword .end_) : Reads .funcBody ts (.funcBody ps body v) vs
  | blockEnd {ts : List Token} (hn : ∀ t ∈ ts.head?, endsBlock t.kind) : Reads .block ts (.block []) ts
  | returnValues {t : Token} (ht : t.kind = .keyword .return_) (hs : startsExpr ts)
    (h : Reads .exprs ts (.exprs es) us) (hr : Semicolon us rest) :
    Reads .block (t :: ts) (.block [.returnValues t ((lastTaken (t :: ts) rest).getD t) es]) rest
  | returnNothing {t : Token} (ht : t.kind = .keyword .return_) (hs : startsExpr ts = false)
    (hr : Semicolon ts rest) :
    Reads .block (t :: ts) (.block [.returnNothing t ((lastTaken (t :: ts) rest).getD t)]) rest
  | blockMore {t : Token} (ht : endsBlock t.kind = false) (hr : t.kind ≠ .keyword .return_)
    (h : Reads .stat (t :: ts) (.stat s) us) (more : Reads .block us (.block ss) rest) :
    Reads .block (t :: ts) (.block (s :: ss)) rest
  | doBlock {t u : Token} (ht : t.kind = .keyword .do_)
    (h : Reads .block ts (.block body) (u :: us)) (hu : u.kind = .keyword .end_) :
    Reads .doBlock (t :: ts) (.block body) us
  | assign {t u : Token} (ht : startsSuffixed t.kind) (h : Reads .suffixed (t :: ts) (.expr target) us)
    (hn : nextSymbol .comma us || nextSymbol .equal us)
    (hm : Reads .targets us (.exprs more) (u :: vs)) (hu : u.kind = .symbol .equal)
    (hv : Reads .exprs vs (.exprs values) rest) :
    Reads .stat (t :: ts) (.stat (.assign t ((lastTaken (t :: ts) rest).getD t) (target :: more) values)) rest
  | expr {t : Token} (ht : startsSuffixed t.kind) (h : Reads .suffixed (t :: ts) (.expr e) rest)
    (hn : (nextSymbol .comma rest || nextSymbol .equal rest) = false) :
    Reads .stat (t :: ts) (.stat (.expr e)) rest
  | whileLoop {t : Token} (ht : t.kind = .keyword .while_)
    (h : Reads (.chain .or) ts (.expr test) us) (hb : Reads .doBlock us (.block body) rest) :
    Reads .stat (t :: ts) (.stat (.whileLoop test body)) rest
  | repeatLoop {t u : Token} (ht : t.kind = .keyword .repeat_)
    (hb : Reads .block ts (.block body) (u :: us)) (hu : u.kind = .keyword .until_)
    (h : Reads (.chain .or) us (.expr test) rest) :
    Reads .stat (t :: ts) (.stat (.repeatLoop body test)) rest
  | localFunction {t u v : Token} (ht : t.kind = .keyword .local_)
    (hu : u.kind = .keyword .function_) (hv : v.kind = .name)
    (h : Reads .funcBody ts (.funcBody ps body last) rest) :
    Reads .stat (t :: u :: v :: ts) (.stat (.localFunction t last (identAt v) ps body)) rest
  | localAssign {t u v : Token} (ht : t.kind = .keyword .local_) (hu : u.kind = .name)
    (hi : NamesAfter .comma ts ids (v :: us)) (hv : v.kind = .symbol .equal)
    (h : Reads .exprs us (.exprs values) rest) :
    Reads .stat (t :: u :: ts) (.stat (.localAssign t (identAt u :: ids) values)) rest
  | localNames {t u : Token} (ht : t.kind = .keyword .local_) (hu : u.kind = .name)
    (hi : NamesAfter .comma ts ids rest) (hn : nextSymbol .equal rest = false) :
    Reads .stat (t :: u :: ts) (.stat (.localAssign t (identAt u :: ids) [])) rest
  | goto {t u : Token} (ht : t.kind = .keyword .goto_) (hu : u.kind = .name) :
    Reads .stat (t :: u :: ts) (.stat (.goto (identAt u))) ts
  | ifThen {t u : Token} (ht : t.kind = .keyword .if_)
    (h : Reads (.chain .or) ts (.expr test) (u :: us)) (hu : u.kind = .keyword .then_)
    (hb : Reads .block us (.block body) vs) (ho : Reads .orelse vs (.orelse o) rest) :
    Reads .stat (t :: ts) (.stat (.ifThen test body o)) rest
  | numericFor {t u v : Token} (ht : t.kind = .keyword .for_) (hu : u.kind = .name)
    (hv : v.kind = .symbol .equal) (h : Reads .bounds ts (.exprs bounds) us)
    (hb : Reads .doBlock us (.block body) rest) :
    Reads .stat (t :: u :: v :: ts) (.stat (.numericFor (identAt u) bounds body)) rest
  | genericFor {t u v : Token} (ht : t.kind = .keyword .for_) (hu : u.kind = .name)
    (hn : nextSymbol .equal ts = false) (hi : NamesAfter .comma ts ids (v :: us))
    (hv : v.kind = .keyword .in_) (h : Reads .exprs us (.exprs es) vs)
    (hb : Reads .doBlock vs (.block body) rest) :
    Reads .stat (t :: u :: ts) (.stat (.genericFor (identAt u :: ids) es body)) rest
  | method {t u v w : Token} (ht : t.kind = .keyword .function_) (hu : u.kind = .name)
    (hi : NamesAfter .dot ts path (v :: w :: us)) (hv : v.kind = .symbol .colon)
    (hw : w.kind = .name) (h : Reads .funcBody us (.funcBody ps body last) rest) :
    Reads .stat (t :: u :: ts) (.stat (.method t last (identAt u) path (identAt w) ps body)) rest
  | function {t u : Token} (ht : t.kind = .keyword .function_) (hu : u.kind = .name)
    (hi : NamesAfter .dot ts path us) (hn : nextSymbol .colon us = false)
    (h : Reads .funcBody us (.funcBody ps body last) rest) :
    Reads .stat (t :: u :: ts) (.stat (.function t last (identAt u) path ps body)) rest
  | label {t u v : Token} (ht : t.kind = .symbol .colonColon) (hu : u.kind = .name)
    (hv : v.kind = .symbol .colonColon) :
    Reads .stat (t :: u :: v :: ts) (.stat (.label (identAt u))) ts
  | block {t : Token} (ht : t.kind = .keyword .do_)
    (h : Reads .doBlock (t :: ts) (.block body) rest) : Reads .stat (t :: ts) (.stat (.block body)) rest
  | breakLoop {t : Token} (ht : t.kind = .keyword .break_) : Reads .stat (t :: ts) (.stat .breakLoop) ts
  | semicolon {t : Token} (ht : t.kind = .symbol .semicolon) :
    Reads .stat (t :: ts) (.stat .semicolon) ts
  | targetsEnd (hn : nextSymbol .comma ts = false) : Reads .targets ts (.exprs []) ts
  | targetsMore {t : Token} (ht : t.kind = .symbol .comma) (h : Reads .suffixed ts (.expr e) us)
    (more : Reads .targets us (.exprs es) rest) : Reads .targets (t :: ts) (.exprs (e :: es)) rest
  | boundsTwo {u : Token} (hs : Reads (.chain .or) ts (.expr start) (u :: us))
    (hu : u.kind = .symbol .comma) (hl : Reads (.chain .or) us (.expr limit) rest)
    (hn : nextSymbol .comma rest = false) : Reads .bounds ts (.exprs [start, limit]) rest
  | boundsComma {u v : Token} (hs : Reads (.chain .or) ts (.expr start) (u :: us))
    (hu : u.kind = .symbol .comma) (hl : Reads (.chain .or) us (.expr limit) (v :: rest))
    (hv : v.kind = .symbol .comma) (hn : startsExpr rest = false) :
    Reads .bounds ts (.exprs [start, limit]) rest
  | boundsThree {u v : Token} (hs : Reads (.chain .or) ts (.expr start) (u :: us))
    (hu : u.kind = .symbol .comma) (hl : Reads (.chain .or) us (.expr limit) (v :: vs))
    (hv : v.kind = .symbol .comma) (hn : startsExpr vs)
    (h : Reads (.chain .or) vs (.expr step) rest) : Reads .bounds ts (.exprs [start, limit, step]) rest
  | orelseEnd {t : Token} (ht : t.kind = .keyword .end_) : Reads .orelse (t :: ts) (.orelse .none) ts
  | orelseBlock {t u : Token} (ht : t.kind = .keyword .else_)
    (h : Reads .block ts (.block body) (u :: us)) (hu : u.kind = .keyword .end_) :
    Reads .orelse (t :: ts) (.orelse (.block body)) us
  | elseif {t u : Token} (ht : t.kind = .keyword .elseif_)
    (h : Reads (.chain .or) ts (.expr test) (u :: us)) (hu : u.kind = .keyword .then_)
    (hb : Reads .block us (.block body) vs) (ho : Reads .orelse vs (.orelse o) rest) :
    Reads .orelse (t :: ts) (.orelse (.elseif test body o)) rest

/-! ## What is taken -/

def Takes (k : Nat) (ts rest : List Token) : Prop := ∃ us, ts = us ++ rest ∧ k ≤ us.length

namespace Takes

variable {j k : Nat} {t : Token} {ts us rest : List Token}

theorem refl : Takes 0 ts ts := ⟨[], rfl, Nat.le_refl 0⟩

theorem mono (h : Takes k ts rest) (hj : j ≤ k) : Takes j ts rest := by
  obtain ⟨us, rfl, hk⟩ := h
  exact ⟨us, rfl, Nat.le_trans hj hk⟩

theorem cons (h : Takes k ts rest) : Takes (k + 1) (t :: ts) rest := by
  obtain ⟨us, rfl, hk⟩ := h
  exact ⟨t :: us, rfl, Nat.succ_le_succ hk⟩

theorem tail (h : Takes k ts (t :: rest)) : Takes (k + 1) ts rest := by
  obtain ⟨us, rfl, hk⟩ := h
  exact ⟨us ++ [t], by simp, by simpa using hk⟩

theorem trans (h : Takes j ts us) (h' : Takes k us rest) : Takes (j + k) ts rest := by
  obtain ⟨taken, rfl, hj⟩ := h
  obtain ⟨taken', rfl, hk⟩ := h'
  exact ⟨taken ++ taken', by simp, by simpa using Nat.add_le_add hj hk⟩

theorem length_le (h : Takes k ts rest) : k + rest.length ≤ ts.length := by
  obtain ⟨us, rfl, hk⟩ := h
  simpa using hk

end Takes

def Goal.least : Goal → Nat
  | .chainTail _ _ | .powerTail _ | .suffixes _ | .block | .targets => 0
  | _ => 1

section

variable {ts rest : List Token}

theorem Takes.least {g : Goal} {k : Nat} (h : Takes k ts rest)
    (few : g.least ≤ k := by simp [Goal.least]) : Takes g.least ts rest := h.mono few

theorem NamesAfter.takes {sep : Symbol} {ids : List Ident} (h : NamesAfter sep ts ids rest) :
    Takes 0 ts rest := by
  induction h with
  | stop => exact .refl
  | more _ _ _ ih => exact ih.cons.cons.mono (Nat.zero_le _)

theorem ParamsAfter.takes {ps : List Param} (h : ParamsAfter ts ps rest) : Takes 0 ts rest := by
  induction h with
  | stop => exact .refl
  | dots => exact Takes.refl.cons.cons.mono (Nat.zero_le _)
  | more _ _ _ ih => exact ih.cons.cons.mono (Nat.zero_le _)

theorem Params.takes {ps : List Param} (h : Params ts ps rest) : Takes 1 ts rest := by
  cases h with
  | none => exact Takes.refl.cons.cons.mono (by simp)
  | dots => exact Takes.refl.cons.cons.cons.mono (by simp)
  | names _ _ h => exact h.takes.tail.cons.cons.mono (by simp)

theorem Semicolon.takes (h : Semicolon ts rest) : Takes 0 ts rest := by
  cases h with
  | none => exact .refl
  | some => exact Takes.refl.cons.mono (Nat.zero_le _)

theorem Reads.takes {g : Goal} {x : Item} (h : Reads g ts x rest) : Takes g.least ts rest := by
  induction h with
  | chainEnd | powerEnd | suffixesEnd | blockEnd | targetsEnd => exact .refl
  | operandChain _ _ ih | operandUnary _ _ ih | unaryNone _ _ ih | atomSuffixed _ _ ih
  | fieldNext _ _ _ ih | block _ _ ih | exprsOne _ _ ih | expr _ _ _ ih => exact ih
  | chain _ _ ih ih' | power _ _ ih ih' | blockMore _ _ _ _ ih ih' => exact (ih.trans ih').least
  | chainOne _ _ ih | unaryLength _ _ ih | unaryOther _ _ _ ih | atomFunction _ _ ih
  | atomTable _ _ ih | suffixedName _ _ ih | callString _ _ ih => exact ih.cons.least
  | indexDot _ _ _ ih | fieldName _ _ _ ih => exact ih.cons.cons.least
  | invokeString _ _ _ _ ih | localFunction _ _ _ _ ih => exact ih.cons.cons.cons.least
  | chainMore _ _ _ _ ih ih' | powerMore _ _ _ ih ih' | callArguments _ _ _ _ ih ih'
  | callTable _ _ _ ih ih' | whileLoop _ _ _ ih ih' | targetsMore _ _ _ ih ih' =>
    exact (ih.trans ih').cons.least
  | suffixedParen _ _ _ _ ih ih' | indexBracket _ _ _ _ ih ih' | repeatLoop _ _ _ _ ih ih' =>
    exact (ih.tail.trans ih').cons.least
  | invokeArguments _ _ _ _ _ ih ih' | invokeTable _ _ _ _ _ ih ih' | numericFor _ _ _ _ _ ih ih' =>
    exact (ih.trans ih').cons.cons.cons.least
  | atomLiteral | argumentsNone | fieldsEnd | breakLoop | semicolon | orelseEnd =>
    exact Takes.refl.cons
  | argumentsSome _ _ _ ih | fieldsLast _ _ _ ih => exact ih.tail.least
  | exprsMore _ _ _ ih ih' | fieldsMore _ _ _ _ ih ih' | boundsTwo _ _ _ _ ih ih' =>
    exact (ih.tail.trans ih').least
  | fieldKey _ _ _ _ _ ih ih' => exact (ih.tail.tail.trans ih').cons.least
  | funcBody hp _ _ ih => exact (hp.takes.trans ih.tail).least
  | returnValues _ _ _ hr ih => exact (ih.trans hr.takes).cons.least
  | returnNothing _ _ hr => exact hr.takes.cons.least
  | doBlock _ _ _ ih | orelseBlock _ _ _ ih => exact ih.tail.cons.least
  | assign _ _ _ _ _ _ ih ihm ihv => exact (ih.trans (ihm.tail.trans ihv)).least
  | localAssign _ _ hi _ _ ih => exact (hi.takes.tail.trans ih).cons.cons.least
  | localNames _ _ hi => exact hi.takes.cons.cons.least
  | goto => exact Takes.refl.cons.cons.least
  | label => exact Takes.refl.cons.cons.cons.least
  | ifThen _ _ _ _ _ ih ihb iho | elseif _ _ _ _ _ ih ihb iho =>
    exact (ih.tail.trans (ihb.trans iho)).cons.least
  | genericFor _ _ _ hi _ _ _ ih ihb => exact (hi.takes.tail.trans (ih.trans ihb)).cons.cons.least
  | method _ _ hi _ _ _ ih => exact (hi.takes.tail.tail.trans ih).cons.cons.least
  | function _ _ hi _ _ ih => exact (hi.takes.trans ih).cons.cons.least
  | boundsComma _ _ _ _ _ ih ih' => exact (ih.tail.trans ih'.tail).least
  | boundsThree _ _ _ _ _ _ ihs ihl ih => exact (ihs.tail.trans (ihl.tail.trans ih)).least

end

end LuaTune.Lua.Grammar
