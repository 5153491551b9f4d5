import LuaTune.Lua.Syntax.Text

/-!
# Trees without their tokens

`bare` forgets the tokens of a tree and keeps the names, the values, the operators and the way in
which a table is indexed. What is shown of an expression does not depend on where it stands, but the
key of a positional field has no token, and shows itself in that way.
-/

namespace LuaTune.Lua

def Ident.bare (id : Ident) : Ident := ⟨id.name, default⟩

def Param.bare : Param → Param
  | .name id => .name id.bare
  | .varargs => .varargs

mutual

def Expr.bare : Expr → Expr
  | .nil _ => .nil default
  | .bool value _ => .bool value default
  | .number value _ => .number value none
  | .string value _ _ => .string value .absent default
  | .varargs => .varargs
  | .name id => .name id.bare
  | .index form base key => .index form base.bare key.bare
  | .call callee args _ => .call callee.bare (bareExprs args) none
  | .invoke source method args => .invoke source.bare method.bare (bareExprs args)
  | .function _ _ params body => .function default default (params.map Param.bare) (bareStats body)
  | .table _ fields => .table .absent (bareFields fields)
  | .binary op left right => .binary op left.bare right.bare
  | .unary op _ operand => .unary op default operand.bare

def bareExprs : List Expr → List Expr
  | [] => []
  | e :: es => e.bare :: bareExprs es

def Field.bare : Field → Field
  | .mk key value => .mk key.bare value.bare

def bareFields : List Field → List Field
  | [] => []
  | f :: fs => f.bare :: bareFields fs

def Stat.bare : Stat → Stat
  | .assign _ _ targets values => .assign default default (bareExprs targets) (bareExprs values)
  | .localAssign _ targets values => .localAssign default (targets.map Ident.bare) (bareExprs values)
  | .expr e => .expr e.bare
  | .whileLoop test body => .whileLoop test.bare (bareStats body)
  | .repeatLoop body test => .repeatLoop (bareStats body) test.bare
  | .ifThen test body orelse => .ifThen test.bare (bareStats body) orelse.bare
  | .numericFor target bounds body => .numericFor target.bare (bareExprs bounds) (bareStats body)
  | .genericFor targets iterators body =>
    .genericFor (targets.map Ident.bare) (bareExprs iterators) (bareStats body)
  | .function _ _ base path params body =>
    .function default default base.bare (path.map Ident.bare) (params.map Param.bare) (bareStats body)
  | .method _ _ base path name params body =>
    .method default default base.bare (path.map Ident.bare) name.bare (params.map Param.bare)
      (bareStats body)
  | .localFunction _ _ name params body =>
    .localFunction default default name.bare (params.map Param.bare) (bareStats body)
  | .block body => .block (bareStats body)
  | .breakLoop => .breakLoop
  | .goto label => .goto label.bare
  | .label name => .label name.bare
  | .semicolon => .semicolon
  | .returnNothing _ _ => .returnNothing default default
  | .returnValues _ _ values => .returnValues default default (bareExprs values)

def bareStats : List Stat → List Stat
  | [] => []
  | s :: ss => s.bare :: bareStats ss

def Orelse.bare : Orelse → Orelse
  | .none => .none
  | .elseif test body orelse => .elseif test.bare (bareStats body) orelse.bare
  | .block body => .block (bareStats body)

end

abbrev Chunk.bare (c : Chunk) : Chunk := bareStats c

/-- The same expression, at another place or at the same. -/
def Expr.Same (e d : Expr) : Prop := e.bare = d.bare

end LuaTune.Lua
