import LuaTune.Analysis.Tracker

/-!
# Visiting a script

A `return` without values stops the visit, and so does a number that is too long to be written where
the text of an expression is recorded.
-/

namespace LuaTune.Analysis

open Lua

inductive Fault where
  | returnWithoutValues
  | numberTooLong
deriving DecidableEq, Repr

def Fault.message : Fault → String
  | .returnWithoutValues => "'bool' object is not iterable"
  | .numberTooLong => Decimal.tooLongToWrite

abbrev Step := Except Fault Tracker

/-- Go on if the texts of some expressions can be written. -/
def writing (es : List Expr) (t : Tracker) : Step :=
  if arePrintable es then .ok t else .error .numberTooLong

mutual

def visitExpr : Expr → Tracker → Step
  | .nil _, t => .ok t
  | .bool _ _, t => .ok t
  | .number _ _, t => .ok t
  | .string _ _ _, t => .ok t
  | .varargs, t => .ok t
  | .name _, t => .ok t
  | .index _ base key, t => do
    let t ← visitExpr base t
    visitExpr key t
  | .call callee args last, t => do
    let t := match Tracker.calleeName? callee with
      | some (module, func, full) => t.recordCall full module func args (.call callee args last)
      | none => t
    let t ← visitExpr callee t
    visitExprs args t
  | .invoke source method args, t => do
    let t ← writing [source] t
    let full := source.text ++ ":" ++ method.name
    let node := Expr.invoke source method args
    let t := t.recordCall full source.text method.name args node
    let t := t.checkNilAccess source full node.line
    let t ← visitExpr source t
    visitExprs args t
  | .function _ _ _ body, t => visitStats body t
  | .table _ fields, t => visitFields fields t
  | .binary op left right, t => do
    let t := if op = .concat then t.recordLoopConcat left else t
    let t ← visitExpr left t
    visitExpr right t
  | .unary op token operand, t =>
    if op = .length then do
      let t ← writing (if t.loopDepth > 0 then [operand] else []) t
      visitExpr operand (t.recordLength token operand)
    else visitExpr operand t

def visitExprs : List Expr → Tracker → Step
  | [], t => .ok t
  | e :: es, t => do
    let t ← visitExpr e t
    visitExprs es t

def visitFields : List Field → Tracker → Step
  | [], t => .ok t
  | f :: fs, t => do
    let t ← visitField f t
    visitFields fs t

def visitField : Field → Tracker → Step
  | .mk key value, t => do
    let t ← visitExpr key t
    visitExpr value t

def visitStat : Stat → Tracker → Step
  | .assign first _ targets values, t => do
    let named := targets.any fun e => (Tracker.nameOf? e).isSome
    let t ← writing (Tracker.recordedValue named values) t
    let t := targets.foldl (Tracker.recordTarget · values first.line) t
    let t ← visitExprs targets t
    visitExprs values t
  | .localAssign first targets values, t => do
    let t ← writing (Tracker.recordedValue (targets.length = 1) values) t
    visitExprs values (t.recordLocal targets values first.line)
  | .expr e, t => visitExpr e t
  | .whileLoop test body, t => do
    let t ← visitExpr test t
    let t ← visitStats body (t.enterLoop "<while>" [])
    return t.exitLoop
  | .repeatLoop body test, t => do
    let t ← visitStats body (t.enterLoop "<repeat>" [])
    let t ← visitExpr test t
    return t.exitLoop
  | .ifThen test body orelse, t => do
    let (outer, branch) := (t.conditional, t.branch)
    let t :=
      { t with conditional := some t.conditionals, conditionals := t.conditionals + 1 }
    let t ← visitExpr test t
    let t ← visitStats body { t with branch := 0 }
    let t ← visitOrelse orelse 1 t
    return { t with conditional := outer, branch := branch }
  | .numericFor target bounds body, t => do
    let t ← visitExprs bounds t
    let t ← visitStats body (t.enterLoop "<fornum>" [target.name])
    return t.exitLoop
  | .genericFor targets iterators body, t => do
    let t := t.recordIterator targets iterators
    let t ← visitExprs iterators t
    let t ← visitStats body (t.enterLoop "<forin>" (targets.map (·.name)))
    return t.exitLoop
  | .function first last base path params body, t => do
    let name := (dottedName base path).text
    let t := t.recordLoopFunction name (.function first last base path params body)
    let t ← visitStats body (t.enterFunction name first.line (Param.names params))
    return t.exitFunction last.line
  | .method first last _ _ name params body, t => do
    let t ← visitStats body
      (t.enterFunction name.name first.line ("self" :: Param.names params))
    return t.exitFunction last.line
  | .localFunction first last name params body, t => do
    let t := t.recordLoopFunction name.name (.localFunction first last name params body)
    let t := t.declare name.name
    let t ← visitStats body (t.enterFunction name.name first.line (Param.names params))
    return t.exitFunction last.line
  | .block body, t => visitStats body t
  | .breakLoop, t => .ok t
  | .goto _, t => .ok t
  | .label _, t => .ok t
  | .semicolon, t => .ok t
  | .returnNothing _ _, _ => .error .returnWithoutValues
  | .returnValues _ _ values, t => visitExprs values t

def visitStats : List Stat → Tracker → Step
  | [], t => .ok t
  | s :: ss, t => do
    let t ← visitStat s t
    visitStats ss t

def visitOrelse : Orelse → Int → Tracker → Step
  | .none, _, t => .ok t
  | .elseif test body orelse, n, t => do
    let t ← visitExpr test { t with branch := n }
    let t ← visitStats body t
    visitOrelse orelse (n + 1) t
  | .block body, _, t => visitStats body { t with branch := -1 }

end

def visitChunk (c : Chunk) (lines : List Chars) : Step := visitStats c (.start lines)

end LuaTune.Analysis
