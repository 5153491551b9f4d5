import LuaTune.Lua.Token

/-!
# Syntax trees

A tree keeps the tokens at its ends only in part. Names, literals and operators with one operand
keep their own token. An index or a call starts where its base starts; `a.b` ends with `b`, `f(x)`
with the closing parenthesis, `f"x"` with the string, while `a[b]`, `f{…}` and `a:b(…)` have no last
token. Functions and assignments keep both ends; operators with two operands, tables, loops,
conditionals and blocks keep none. Parentheses leave no node.
-/

namespace LuaTune.Lua

structure Ident where
  name : String
  token : Token
deriving DecidableEq, Repr, Inhabited

/-- The first token of a node. The string in `a:b"text"` has one whose place cannot be read. -/
inductive Anchor where
  | absent
  | unreadable
  | at (t : Token)
deriving DecidableEq, Repr, Inhabited

/-- How a table is indexed: by `.name`, by `[key]`, or by `.name` in the name of a function that
is being declared. -/
inductive IndexForm where
  | dot
  | bracket
  | declared
deriving DecidableEq, Repr, Inhabited

inductive BinaryOp where
  | or | and
  | less | greater | lessEqual | greaterEqual | notEqual | equal
  | concat | add | subtract | multiply | divide | modulo | floorDivide
  | bitAnd | bitOr | bitXor | shiftRight | shiftLeft
  | power
deriving DecidableEq, Repr, Inhabited

inductive UnaryOp where
  | negate | length | not | bitNot
deriving DecidableEq, Repr, Inhabited

inductive Param where
  | name (id : Ident)
  | varargs
deriving DecidableEq, Repr, Inhabited

mutual

inductive Expr where
  | nil (token : Token)
  | bool (value : Bool) (token : Token)
  /-- The key that a positional field of a table is given has no token. -/
  | number (value : Numeral) (token : Option Token)
  | string (value : Chars) (first : Anchor) (last : Token)
  | varargs
  | name (id : Ident)
  | index (form : IndexForm) (base key : Expr)
  | call (callee : Expr) (args : List Expr) (last : Option Token)
  | invoke (source : Expr) (method : Ident) (args : List Expr)
  | function (first last : Token) (params : List Param) (body : List Stat)
  | table (first : Anchor) (fields : List Field)
  | binary (op : BinaryOp) (left right : Expr)
  | unary (op : UnaryOp) (token : Token) (operand : Expr)

inductive Field where
  | mk (key value : Expr)

inductive Stat where
  | assign (first last : Token) (targets values : List Expr)
  | localAssign (first : Token) (targets : List Ident) (values : List Expr)
  | expr (e : Expr)
  | whileLoop (test : Expr) (body : List Stat)
  | repeatLoop (body : List Stat) (test : Expr)
  | ifThen (test : Expr) (body : List Stat) (orelse : Orelse)
  /-- The bounds are the start, the limit and, if it is written, the step. -/
  | numericFor (target : Ident) (bounds : List Expr) (body : List Stat)
  | genericFor (targets : List Ident) (iterators : List Expr) (body : List Stat)
  /-- `function base.path…(params) … end` -/
  | function (first last : Token) (base : Ident) (path : List Ident) (params : List Param)
      (body : List Stat)
  /-- `function base.path…:name(params) … end` -/
  | method (first last : Token) (base : Ident) (path : List Ident) (name : Ident)
      (params : List Param) (body : List Stat)
  | localFunction (first last : Token) (name : Ident) (params : List Param) (body : List Stat)
  | block (body : List Stat)
  | breakLoop
  | goto (label : Ident)
  | label (name : Ident)
  | semicolon
  | returnNothing (first last : Token)
  | returnValues (first last : Token) (values : List Expr)

inductive Orelse where
  | none
  | elseif (test : Expr) (body : List Stat) (orelse : Orelse)
  | block (body : List Stat)

end

deriving instance Repr for Expr, Field, Stat, Orelse
instance : Inhabited Expr := ⟨.varargs⟩
instance : Inhabited Stat := ⟨.semicolon⟩

abbrev Chunk := List Stat

namespace Anchor

def token? : Anchor → Option Token
  | .at t => some t
  | _ => none

def ofToken? : Option Token → Anchor
  | some t => .at t
  | none => .absent

def isAbsent : Anchor → Bool
  | .absent => true
  | _ => false

end Anchor

namespace Expr

def first : Expr → Anchor
  | .nil t => .at t
  | .bool _ t => .at t
  | .number _ t => .ofToken? t
  | .string _ f _ => f
  | .varargs => .absent
  | .name id => .at id.token
  | .index .declared _ _ => .absent
  | .index _ base _ => base.first
  | .call callee _ _ => callee.first
  | .invoke source _ _ => source.first
  | .function f _ _ _ => .at f
  | .table f _ => f
  | .binary _ _ _ => .absent
  | .unary _ t _ => .at t

def last : Expr → Option Token
  | .nil t => some t
  | .bool _ t => some t
  | .number _ t => t
  | .string _ _ l => some l
  | .varargs => none
  | .name id => some id.token
  | .index .dot _ (.name id) => some id.token
  | .index _ _ _ => none
  | .call _ _ l => l
  | .invoke _ _ _ => none
  | .function _ l _ _ => some l
  | .table _ _ => none
  | .binary _ _ _ => none
  | .unary _ t _ => some t

end Expr

namespace Stat

def first : Stat → Anchor
  | .assign f _ _ _ => .at f
  | .localAssign f _ _ => .at f
  | .expr e => e.first
  | .function f _ _ _ _ _ => .at f
  | .method f _ _ _ _ _ _ => .at f
  | .localFunction f _ _ _ _ => .at f
  | .returnNothing f _ => .at f
  | .returnValues f _ _ => .at f
  | _ => .absent

def last : Stat → Option Token
  | .assign _ l _ _ => some l
  | .localAssign _ _ values => values.getLast?.bind Expr.last
  | .expr e => e.last
  | .function _ l _ _ _ _ => some l
  | .method _ l _ _ _ _ _ => some l
  | .localFunction _ l _ _ _ => some l
  | .returnNothing _ l => some l
  | .returnValues _ l _ => some l
  | _ => none

end Stat

def dottedName (base : Ident) (path : List Ident) : Expr :=
  path.foldl (fun e id => .index .declared e (.name id)) (.name base)

def Anchor.line (a : Anchor) : Nat :=
  match a.token? with
  | some t => t.line
  | none => 0

def Expr.line (e : Expr) : Nat := e.first.line

def Stat.line (s : Stat) : Nat := s.first.line

end LuaTune.Lua
