import LuaTune.Lua.Syntax.Parse
import LuaTune.Lua.Syntax.Walk
import Mathlib.Tactic.Common

/-!
# Names that no declaration binds

A local name is bound from after its declaration to the end of the block that declares it. The name
of a field is not an occurrence; a bare name as a key of a table counts as one.
-/

namespace LuaTune.Lua

def Stat.declares (name : String) : Stat → Bool
  | .localAssign _ targets _ => targets.any (·.name == name)
  | .localFunction _ _ id _ _ => id.name == name
  | _ => false

mutual

/-- Does the name occur where nothing binds it? `bound` says whether something around the
expression does. -/
def Expr.occursFree (name : String) (bound : Bool) : Expr → Bool
  | .name id => !bound && id.name == name
  | .index .bracket base key => base.occursFree name bound || key.occursFree name bound
  | .index _ base _ => base.occursFree name bound
  | .call callee args _ => callee.occursFree name bound || exprsOccurFree name bound args
  | .invoke source _ args => source.occursFree name bound || exprsOccurFree name bound args
  | .function _ _ params body => statsOccurFree name (bound || (Param.names params).contains name) body
  | .table _ fields => fieldsOccurFree name bound fields
  | .binary _ left right => left.occursFree name bound || right.occursFree name bound
  | .unary _ _ operand => operand.occursFree name bound
  | .nil _ | .bool _ _ | .number _ _ | .string _ _ _ | .varargs => false

def exprsOccurFree (name : String) (bound : Bool) : List Expr → Bool
  | [] => false
  | e :: es => e.occursFree name bound || exprsOccurFree name bound es

def fieldsOccurFree (name : String) (bound : Bool) : List Field → Bool
  | [] => false
  | f :: fs => f.occursFree name bound || fieldsOccurFree name bound fs

def Field.occursFree (name : String) (bound : Bool) : Field → Bool
  | .mk (.name _) value => value.occursFree name bound
  | .mk key value => key.occursFree name bound || value.occursFree name bound

def Stat.occursFree (name : String) (bound : Bool) : Stat → Bool
  | .assign _ _ targets values =>
    exprsOccurFree name bound targets || exprsOccurFree name bound values
  | .localAssign _ _ values => exprsOccurFree name bound values
  | .expr e => e.occursFree name bound
  | .whileLoop test body => test.occursFree name bound || statsOccurFree name bound body
  | .repeatLoop body test =>
    statsOccurFree name bound body || test.occursFree name (bound || body.any (Stat.declares name))
  | .ifThen test body orelse =>
    test.occursFree name bound || statsOccurFree name bound body || orelse.occursFree name bound
  | .numericFor target bounds body =>
    exprsOccurFree name bound bounds || statsOccurFree name (bound || target.name == name) body
  | .genericFor targets iterators body =>
    exprsOccurFree name bound iterators ||
      statsOccurFree name (bound || targets.any (·.name == name)) body
  | .function _ _ base _ params body =>
    (!bound && base.name == name) ||
      statsOccurFree name (bound || (Param.names params).contains name) body
  | .method _ _ base _ _ params body =>
    (!bound && base.name == name) ||
      statsOccurFree name (bound || ("self" :: Param.names params).contains name) body
  | .localFunction _ _ id params body =>
    statsOccurFree name (bound || id.name == name || (Param.names params).contains name) body
  | .block body => statsOccurFree name bound body
  | .returnValues _ _ values => exprsOccurFree name bound values
  | .breakLoop | .goto _ | .label _ | .semicolon | .returnNothing _ _ => false

def statsOccurFree (name : String) (bound : Bool) : List Stat → Bool
  | [] => false
  | s :: ss => s.occursFree name bound || statsOccurFree name (bound || s.declares name) ss

def Orelse.occursFree (name : String) (bound : Bool) : Orelse → Bool
  | .none => false
  | .elseif test body orelse =>
    test.occursFree name bound || statsOccurFree name bound body || orelse.occursFree name bound
  | .block body => statsOccurFree name bound body

end

def Chunk.occursFree (name : String) (c : Chunk) : Bool := statsOccurFree name false c

end LuaTune.Lua
