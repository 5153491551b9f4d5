import LuaTune.Lua.Syntax.Walk

/-!
# The text of a tree

`Expr.text` is how reports show an expression. It is close to Lua but not always Lua: `a.b` is shown
as `a[b]`, tables as `{...}`, and what has no short form as the name of its class.
-/

namespace LuaTune.Lua

namespace BinaryOp

def className : BinaryOp → String
  | .or => "OrLoOp"
  | .and => "AndLoOp"
  | .less => "LessThanOp"
  | .greater => "GreaterThanOp"
  | .lessEqual => "LessOrEqThanOp"
  | .greaterEqual => "GreaterOrEqThanOp"
  | .notEqual => "NotEqToOp"
  | .equal => "EqToOp"
  | .concat => "Concat"
  | .add => "AddOp"
  | .subtract => "SubOp"
  | .multiply => "MultOp"
  | .divide => "FloatDivOp"
  | .modulo => "ModOp"
  | .floorDivide => "FloorDivOp"
  | .bitAnd => "BAndOp"
  | .bitOr => "BOrOp"
  | .bitXor => "BXorOp"
  | .shiftRight => "BShiftROp"
  | .shiftLeft => "BShiftLOp"
  | .power => "ExpoOp"

def sign? : BinaryOp → Option String
  | .or => some "or"
  | .and => some "and"
  | .less => some "<"
  | .greater => some ">"
  | .lessEqual => some "<="
  | .greaterEqual => some ">="
  | .notEqual => some "~="
  | .equal => some "=="
  | .concat => some ".."
  | .add => some "+"
  | .subtract => some "-"
  | .multiply => some "*"
  | .divide => some "/"
  | .modulo => some "%"
  | .power => some "^"
  | .floorDivide | .bitAnd | .bitOr | .bitXor | .shiftRight | .shiftLeft => none

def isLogical : BinaryOp → Bool
  | .or | .and => true
  | _ => false

end BinaryOp

namespace UnaryOp

def className : UnaryOp → String
  | .negate => "UMinusOp"
  | .length => "ULengthOP"
  | .not => "ULNotOp"
  | .bitNot => "UBNotOp"

def sign : UnaryOp → String
  | .negate => "-"
  | .length => "#"
  | .not => "not "
  | .bitNot => "~"

end UnaryOp

def Expr.className : Expr → String
  | .nil _ => "Nil"
  | .bool true _ => "TrueExpr"
  | .bool false _ => "FalseExpr"
  | .number _ _ => "Number"
  | .string _ _ _ => "String"
  | .varargs => "Varargs"
  | .name _ => "Name"
  | .index _ _ _ => "Index"
  | .call _ _ _ => "Call"
  | .invoke _ _ _ => "Invoke"
  | .function _ _ _ _ => "AnonymousFunction"
  | .table _ _ => "Table"
  | .binary op _ _ => op.className
  | .unary op _ _ => op.className

def Stat.className : Stat → String
  | .assign _ _ _ _ => "Assign"
  | .localAssign _ _ _ => "LocalAssign"
  | .expr e => e.className
  | .whileLoop _ _ => "While"
  | .repeatLoop _ _ => "Repeat"
  | .ifThen _ _ _ => "If"
  | .numericFor _ _ _ => "Fornum"
  | .genericFor _ _ _ => "Forin"
  | .function _ _ _ _ _ _ => "Function"
  | .method _ _ _ _ _ _ _ => "Method"
  | .localFunction _ _ _ _ _ => "LocalFunction"
  | .block _ => "Do"
  | .breakLoop => "Break"
  | .goto _ => "Goto"
  | .label _ => "Label"
  | .semicolon => "SemiColon"
  | .returnNothing _ _ => "Return"
  | .returnValues _ _ _ => "Return"

def quotedText (s : Chars) : String :=
  if s.contains '"' && !s.contains '\'' then "'" ++ String.ofList s ++ "'"
  else "\"" ++ String.ofList s ++ "\""

mutual

def Expr.text : Expr → String
  | .name id => id.name
  | .number v _ => v.text
  | .string s _ _ => quotedText s
  | .bool true _ => "true"
  | .bool false _ => "false"
  | .nil _ => "nil"
  | .index _ base key =>
    if key.first.isAbsent then base.text ++ "." ++ key.text
    else base.text ++ "[" ++ key.text ++ "]"
  | .call callee args _ => callee.text ++ "(" ++ ", ".intercalate (textsOf args) ++ ")"
  | .invoke source method args =>
    source.text ++ ":" ++ method.name ++ "(" ++ ", ".intercalate (textsOf args) ++ ")"
  | .unary op _ operand => op.sign ++ operand.text
  | .binary op left right =>
    match op.sign? with
    | none => "<" ++ op.className ++ ">"
    | some s =>
      if op.isLogical then "(" ++ left.text ++ " " ++ s ++ " " ++ right.text ++ ")"
      else left.text ++ " " ++ s ++ " " ++ right.text
  | .table _ _ => "\x7b...\x7d"
  | .varargs => "<Varargs>"
  | .function _ _ _ _ => "<AnonymousFunction>"

def textsOf : List Expr → List String
  | [] => []
  | e :: es => e.text :: textsOf es

end

mutual

def Expr.isPrintable : Expr → Bool
  | .number v _ => v.isPrintable
  | .index _ base key => base.isPrintable && key.isPrintable
  | .call callee args _ => callee.isPrintable && arePrintable args
  | .invoke source _ args => source.isPrintable && arePrintable args
  | .unary _ _ operand => operand.isPrintable
  | .binary op left right => op.sign?.isNone || (left.isPrintable && right.isPrintable)
  | .name _ | .string _ _ _ | .bool _ _ | .nil _ | .table _ _ | .varargs | .function _ _ _ _ => true

def arePrintable : List Expr → Bool
  | [] => true
  | e :: es => e.isPrintable && arePrintable es

end

/-- How definitions and uses are named across files: names and indexed names; strings are shown
bare, and everything else is empty. -/
def Expr.symbolText : Expr → String
  | .name id => id.name
  | .index _ base key =>
    if key.first.isAbsent then base.symbolText ++ "." ++ key.symbolText
    else base.symbolText ++ "[" ++ key.symbolText ++ "]"
  | .string s _ _ => String.ofList s
  | _ => ""

namespace Stat

def functionName : Stat → String
  | .function _ _ base path _ _ => (dottedName base path).text
  | .localFunction _ _ name _ _ => name.name
  | .method _ _ base path name _ _ => (dottedName base path).text ++ ":" ++ name.name
  | _ => "<unknown>"

end Stat

namespace Node

def className : Node → String
  | .expr e => e.className
  | .binder _ => "Name"
  | .field _ => "Field"
  | .stat s => s.className
  | .elseif _ _ _ => "ElseIf"
  | .block _ => "Block"
  | .chunk _ => "Chunk"

def text : Node → String
  | .expr e => e.text
  | .binder id => id.name
  | n => "<" ++ n.className ++ ">"

def isPrintable : Node → Bool
  | .expr e => e.isPrintable
  | _ => true

def symbolText : Node → String
  | .expr e => e.symbolText
  | .binder id => id.name
  | _ => ""

def functionName : Node → String
  | .stat s => s.functionName
  | _ => "<unknown>"

end Node

/-- Names and numbers may be repeated without changing what a program does. -/
def Expr.isSimple : Expr → Bool
  | .name _ | .number _ _ => true
  | _ => false

end LuaTune.Lua
