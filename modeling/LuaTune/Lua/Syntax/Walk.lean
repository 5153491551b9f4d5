import LuaTune.Lua.Syntax

/-! # Walks of the tree -/

namespace LuaTune.Lua

/-!
## Nodes of a tree

Each node comes before its parts. A name that `local` or `for` declares is a node of its own kind, a
parameter is a plain name, and every block is a node; labels and what `goto` names are not.
-/

inductive Node where
  | expr (e : Expr)
  /-- A name that a `local` or `for` statement declares. -/
  | binder (id : Ident)
  | field (f : Field)
  | stat (s : Stat)
  | elseif (test : Expr) (body : List Stat) (orelse : Orelse)
  | block (body : List Stat)
  | chunk (body : List Stat)

def Param.expr : Param → Expr
  | .name id => .name id
  | .varargs => .varargs

def Param.ident? : Param → Option Ident
  | .name id => some id
  | .varargs => none

def Param.names (ps : List Param) : List String := (ps.filterMap Param.ident?).map (·.name)

def identNodes (ids : List Ident) : List Node := ids.map fun id => .expr (.name id)

def binderNodes (ids : List Ident) : List Node := ids.map .binder

def paramNodes (ps : List Param) : List Node := ps.map fun p => .expr p.expr

/-- The nodes of a dotted name: the whole, the part before the last dot, and so on down to the
first name, then the names after it. -/
def dottedNodes (base : Ident) (path : List Ident) : List Node :=
  (List.range path.length).map (fun k => .expr (dottedName base (path.take (path.length - k))))
    ++ identNodes (base :: path)

mutual

def Expr.walk : Expr → List Node
  | e@(.index _ base key) => .expr e :: base.walk ++ key.walk
  | e@(.call callee args _) => .expr e :: callee.walk ++ walkExprs args
  | e@(.invoke source method args) =>
    .expr e :: source.walk ++ .expr (.name method) :: walkExprs args
  | e@(.function _ _ params body) =>
    .expr e :: paramNodes params ++ .block body :: walkStats body
  | e@(.table _ fields) => .expr e :: walkFields fields
  | e@(.binary _ left right) => .expr e :: left.walk ++ right.walk
  | e@(.unary _ _ operand) => .expr e :: operand.walk
  | e => [.expr e]

def walkExprs : List Expr → List Node
  | [] => []
  | e :: es => e.walk ++ walkExprs es

def Field.walk : Field → List Node
  | f@(.mk key value) => .field f :: key.walk ++ value.walk

def walkFields : List Field → List Node
  | [] => []
  | f :: fs => f.walk ++ walkFields fs

def Stat.walk : Stat → List Node
  | s@(.assign _ _ targets values) => .stat s :: walkExprs targets ++ walkExprs values
  | s@(.localAssign _ targets values) => .stat s :: binderNodes targets ++ walkExprs values
  | .expr e => e.walk
  | s@(.whileLoop test body) => .stat s :: test.walk ++ .block body :: walkStats body
  | s@(.repeatLoop body test) => .stat s :: .block body :: walkStats body ++ test.walk
  | s@(.ifThen test body orelse) =>
    .stat s :: test.walk ++ .block body :: walkStats body ++ orelse.walk
  | s@(.numericFor target bounds body) =>
    .stat s :: .binder target :: walkExprs bounds ++ .block body :: walkStats body
  | s@(.genericFor targets iterators body) =>
    .stat s :: binderNodes targets ++ walkExprs iterators ++ .block body :: walkStats body
  | s@(.function _ _ base path params body) =>
    .stat s :: dottedNodes base path ++ paramNodes params ++ .block body :: walkStats body
  | s@(.method _ _ base path name params body) =>
    .stat s :: dottedNodes base path ++ .expr (.name name) :: paramNodes params
      ++ .block body :: walkStats body
  | s@(.localFunction _ _ name params body) =>
    .stat s :: .binder name :: paramNodes params ++ .block body :: walkStats body
  | s@(.block body) => .stat s :: .block body :: walkStats body
  | s@(.returnValues _ _ values) => .stat s :: walkExprs values
  | s => [.stat s]

def walkStats : List Stat → List Node
  | [] => []
  | s :: ss => s.walk ++ walkStats ss

def Orelse.walk : Orelse → List Node
  | .none => []
  | .elseif test body orelse =>
    .elseif test body orelse :: test.walk ++ .block body :: walkStats body ++ orelse.walk
  | .block body => .block body :: walkStats body

end

def Chunk.walk (c : Chunk) : List Node := .chunk c :: .block c :: walkStats c

namespace Node

def first : Node → Anchor
  | .expr e => e.first
  | .binder id => .at id.token
  | .stat s => s.first
  | _ => .absent

def last : Node → Option Token
  | .expr e => e.last
  | .binder id => some id.token
  | .stat s => s.last
  | _ => none

def line (n : Node) : Nat := n.first.line

def endLine (n : Node) : Nat :=
  match n.last with
  | some t => t.line
  | none => n.line

def expr? : Node → Option Expr
  | .expr e => some e
  | .binder id => some (.name id)
  | _ => none

def isBlock : Node → Bool
  | .block _ | .chunk _ => true
  | _ => false

end Node

/-!
## Folding a tree

The nodes, and the order of the parts, are those of `walk`.
-/

section

variable {β : Type}

def foldIdents (f : Node → List β → β) (ids : List Ident) : List β :=
  ids.map fun id => f (.expr (.name id)) []

def foldBinders (f : Node → List β → β) (ids : List Ident) : List β :=
  ids.map fun id => f (.binder id) []

def foldParams (f : Node → List β → β) (ps : List Param) : List β :=
  ps.map fun p => f (.expr p.expr) []

def foldDotted (f : Node → List β → β) (base : Ident) (path : List Ident) : β :=
  (List.range path.length).foldl
    (fun b k => f (.expr (dottedName base (path.take (k + 1))))
      (b :: foldIdents f (path.drop k |>.take 1)))
    (f (.expr (.name base)) [])

mutual

def Expr.fold (f : Node → List β → β) : Expr → β
  | e@(.index _ base key) => f (.expr e) [base.fold f, key.fold f]
  | e@(.call callee args _) => f (.expr e) (callee.fold f :: foldExprs f args)
  | e@(.invoke source method args) =>
    f (.expr e) (source.fold f :: f (.expr (.name method)) [] :: foldExprs f args)
  | e@(.function _ _ params body) =>
    f (.expr e) (foldParams f params ++ [f (.block body) (foldStats f body)])
  | e@(.table _ fields) => f (.expr e) (foldFields f fields)
  | e@(.binary _ left right) => f (.expr e) [left.fold f, right.fold f]
  | e@(.unary _ _ operand) => f (.expr e) [operand.fold f]
  | e => f (.expr e) []

def foldExprs (f : Node → List β → β) : List Expr → List β
  | [] => []
  | e :: es => e.fold f :: foldExprs f es

def Field.fold (f : Node → List β → β) : Field → β
  | d@(.mk key value) => f (.field d) [key.fold f, value.fold f]

def foldFields (f : Node → List β → β) : List Field → List β
  | [] => []
  | d :: ds => d.fold f :: foldFields f ds

def Stat.fold (f : Node → List β → β) : Stat → β
  | s@(.assign _ _ targets values) => f (.stat s) (foldExprs f targets ++ foldExprs f values)
  | s@(.localAssign _ targets values) => f (.stat s) (foldBinders f targets ++ foldExprs f values)
  | .expr e => e.fold f
  | s@(.whileLoop test body) => f (.stat s) [test.fold f, f (.block body) (foldStats f body)]
  | s@(.repeatLoop body test) => f (.stat s) [f (.block body) (foldStats f body), test.fold f]
  | s@(.ifThen test body orelse) =>
    f (.stat s) (test.fold f :: f (.block body) (foldStats f body) :: orelse.fold f)
  | s@(.numericFor target bounds body) =>
    f (.stat s) (f (.binder target) [] :: foldExprs f bounds ++ [f (.block body) (foldStats f body)])
  | s@(.genericFor targets iterators body) =>
    f (.stat s) (foldBinders f targets ++ foldExprs f iterators
      ++ [f (.block body) (foldStats f body)])
  | s@(.function _ _ base path params body) =>
    f (.stat s) (foldDotted f base path :: foldParams f params
      ++ [f (.block body) (foldStats f body)])
  | s@(.method _ _ base path name params body) =>
    f (.stat s) (foldDotted f base path :: f (.expr (.name name)) [] :: foldParams f params
      ++ [f (.block body) (foldStats f body)])
  | s@(.localFunction _ _ name params body) =>
    f (.stat s) (f (.binder name) [] :: foldParams f params
      ++ [f (.block body) (foldStats f body)])
  | s@(.block body) => f (.stat s) [f (.block body) (foldStats f body)]
  | s@(.returnValues _ _ values) => f (.stat s) (foldExprs f values)
  | s => f (.stat s) []

def foldStats (f : Node → List β → β) : List Stat → List β
  | [] => []
  | s :: ss => s.fold f :: foldStats f ss

def Orelse.fold (f : Node → List β → β) : Orelse → List β
  | .none => []
  | .elseif test body orelse =>
    [f (.elseif test body orelse)
      (test.fold f :: f (.block body) (foldStats f body) :: orelse.fold f)]
  | .block body => [f (.block body) (foldStats f body)]

end

def Chunk.fold (f : Node → List β → β) (c : Chunk) : β :=
  f (.chunk c) [f (.block c) (foldStats f c)]

end

end LuaTune.Lua
