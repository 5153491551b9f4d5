import LuaTune.Lua.Syntax.Text
import LuaTune.Vocabulary

/-! # What a visit records -/

namespace LuaTune.Analysis

open Lua Text

/-!
## Scopes

The script as a whole, every named function and every loop open a scope; functions without a name
and plain blocks open none. Scopes are known by their place in the order of opening.
-/

inductive ScopeKind where
  | global
  | function
  | loop
deriving DecidableEq, Repr, Inhabited

def ScopeKind.name : ScopeKind → String
  | .global => "global"
  | .function => "function"
  | .loop => "loop"

abbrev ScopeId := Nat

structure Scope where
  name : String
  /-- Zero for loops, which keep no tokens. -/
  startLine : Nat
  endLine : Nat
  parent : Option ScopeId
  kind : ScopeKind
  /-- A function that runs on every tick, or something inside one. -/
  isHot : Bool
  locals : List String
  /-- Globals of which a local copy was made here or in an enclosing scope that was open then. -/
  cached : List String
deriving Repr, Inhabited, DecidableEq

def insertNew (x : String) (xs : List String) : List String :=
  if xs.contains x then xs else xs ++ [x]

def chainWithin (scopes : List Scope) : Nat → ScopeId → List (ScopeId × Scope)
  | 0, _ => []
  | n + 1, id =>
    match scopes[id]? with
    | none => []
    | some s =>
      match s.parent with
      | none => [(id, s)]
      | some p => (id, s) :: chainWithin scopes n p

/-- A scope and those around it, innermost first. A scope is opened after the one around it, so
its place bounds the length. -/
def chain (scopes : List Scope) (id : ScopeId) : List (ScopeId × Scope) :=
  chainWithin scopes (id + 1) id

/-- The innermost function around a scope, itself included, or else the script as a whole. -/
def functionScope (scopes : List Scope) (id : ScopeId) : ScopeId :=
  match (chain scopes id).find? fun p => p.2.kind == .function with
  | some p => p.1
  | none => 0

def isLocal (scopes : List Scope) (id : ScopeId) (name : String) : Bool :=
  (chain scopes id).any fun p => p.2.locals.contains name

def isCached (scopes : List Scope) (id : ScopeId) (name : String) : Bool :=
  (chain scopes id).any fun p => p.2.cached.contains name || p.2.locals.contains name

/-!
## What is recorded about a script

The records made so far, and where the visit stands: the scope, the open loops and functions, and
the branch of the innermost conditional.
-/

structure Call where
  /-- `func`, `module.func` or `source:func`. -/
  fullName : String
  module : Option String
  func : String
  args : List Expr
  line : Nat
  node : Expr
  scope : ScopeId
  loopDepth : Nat
  conditional : Option Nat
  /-- Zero for the first branch, one up for each `elseif`, minus one for `else` or none. -/
  branch : Int
deriving Repr, Inhabited

inductive ValueKind where
  | call
  | index
  | concat
  | literal
  | other
deriving DecidableEq, Repr, Inhabited

def ValueKind.name : ValueKind → String
  | .call => "call"
  | .index => "index"
  | .concat => "concat"
  | .literal => "literal"
  | .other => "other"

structure Assignment where
  target : String
  kind : ValueKind
  value : String
  line : Nat
  scope : ScopeId
  isLocal : Bool
  inLoop : Bool
deriving Repr, Inhabited

structure Concat where
  target : Option String
  leftName : Option String
  line : Nat
  scope : ScopeId
  inLoop : Bool
  loopDepth : Nat
  loopScope : Option ScopeId
  right : Option String
deriving Repr, Inhabited

structure NilSource where
  var : String
  call : String
  func : String
  line : Nat
  scope : ScopeId
  isLocal : Bool
  isGuarded : Bool
deriving Repr, Inhabited

structure NilAccess where
  var : String
  call : String
  line : Nat
  source : NilSource
  isSafeToFix : Bool
deriving Repr, Inhabited

structure LoopFunction where
  line : Nat
  name : String
  node : Stat

structure LengthUse where
  line : Nat
  operand : String
  scope : ScopeId
deriving Repr, Inhabited

structure IteratorLoop where
  line : Nat
  iterator : String
  targets : List String
deriving Repr, Inhabited

structure Tracker where
  lines : List Chars
  scopes : List Scope
  current : ScopeId
  loopDepth : Nat
  functionDepth : Nat
  conditional : Option Nat
  branch : Int
  conditionals : Nat
  calls : List Call
  assigns : List Assignment
  concats : List Concat
  globalWrites : List (String × Nat)
  /-- At most one for a scope and a variable, in the order in which they were first set. -/
  nilSources : List NilSource
  nilAccesses : List NilAccess
  loopFunctions : List LoopFunction
  lengthUses : List LengthUse
  iteratorLoops : List IteratorLoop

namespace Tracker

def start (lines : List Chars) : Tracker where
  lines := lines
  scopes := [⟨"<global>", 1, lines.length, none, .global, false, [], []⟩]
  current := 0
  loopDepth := 0
  functionDepth := 0
  conditional := none
  branch := -1
  conditionals := 0
  calls := []
  assigns := []
  concats := []
  globalWrites := []
  nilSources := []
  nilAccesses := []
  loopFunctions := []
  lengthUses := []
  iteratorLoops := []

/-! ### Scopes -/

def updateScope (t : Tracker) (f : Scope → Scope) : Tracker :=
  { t with scopes := t.scopes.modify t.current f }

def declare (t : Tracker) (name : String) : Tracker :=
  t.updateScope fun s => { s with locals := insertNew name s.locals }

def declareAll (t : Tracker) (names : List String) : Tracker := names.foldl declare t

def markCached (t : Tracker) (name : String) : Tracker :=
  t.updateScope fun s => { s with cached := insertNew name s.cached }

def enter (t : Tracker) (name : String) (line : Nat) (kind : ScopeKind) (hot : Bool) : Tracker :=
  let around := t.scopes[t.current]?
  let scope : Scope :=
    { name, startLine := line, endLine := 0, parent := some t.current, kind,
      isHot := hot || around.any (·.isHot), locals := [],
      cached := (around.map (·.cached)).getD [] }
  { t with scopes := t.scopes ++ [scope], current := t.scopes.length }

def exit (t : Tracker) (line : Nat) : Tracker :=
  let closed := t.updateScope fun s => { s with endLine := line }
  match (t.scopes[t.current]?).bind (·.parent) with
  | some p => { closed with current := p }
  | none => closed

def enterFunction (t : Tracker) (name : String) (line : Nat) (params : List String) : Tracker :=
  let t := { t with functionDepth := t.functionDepth + 1 }
  (t.enter name line .function (Vocabulary.hotCallbacks.contains name)).declareAll params

def exitFunction (t : Tracker) (line : Nat) : Tracker :=
  let t := t.exit line
  { t with functionDepth := t.functionDepth - 1 }

def enterLoop (t : Tracker) (name : String) (vars : List String) : Tracker :=
  let t := { t with loopDepth := t.loopDepth + 1 }
  (t.enter name 0 .loop false).declareAll vars

def exitLoop (t : Tracker) : Tracker :=
  let t := t.exit 0
  { t with loopDepth := t.loopDepth - 1 }

/-! ### Variables whose value may be missing -/

def setNilSource (t : Tracker) (n : NilSource) : Tracker :=
  let same (m : NilSource) : Bool := m.scope == n.scope && m.var == n.var
  if t.nilSources.any same then
    { t with nilSources := t.nilSources.map fun m => if same m then n else m }
  else { t with nilSources := t.nilSources ++ [n] }

def clearNilSource (t : Tracker) (var : String) : Tracker :=
  { t with nilSources := t.nilSources.filter fun m => !(m.scope == t.current && m.var == var) }

def findNilSource (t : Tracker) (var : String) : Option NilSource :=
  (chain t.scopes t.current).findSome? fun p =>
    t.nilSources.find? fun m => m.scope == p.1 && m.var == var

def line? (t : Tracker) (n : Nat) : Option Chars :=
  if n = 0 then none else t.lines[n - 1]?

def guards (var : String) : List Chars :=
  [s!"if {var} then", s!"if {var} and", s!"if not {var} then", s!"if {var} ~= nil",
   s!"if {var} == nil then return", s!"{var} and {var}:", s!"{var} and {var}."].map String.toList

def hasGuard (t : Tracker) (var : String) (assigned used : Nat) : Bool :=
  (List.range' assigned (used - assigned)).any fun n =>
    (t.line? n).any fun l => (guards var).any (contains l)

def unwrappable : List Chars :=
  ["local ", "if ", "if(", "for ", "while ", "repeat", "function ", "function("].map String.toList

/-- A use can be wrapped in a test if it stands on the line after the assignment of a local
variable, in the same scope, and the line neither declares anything nor branches. -/
def isSafeToGuard (t : Tracker) (source : NilSource) (used : Nat) : Bool :=
  used == source.line + 1 && source.isLocal && source.scope == t.current
    && (t.line? source.line).isSome
    && match t.line? used with
      | some l => !(unwrappable.any (startsWith (strip l)))
      | none => true

def checkNilAccess (t : Tracker) (source : Expr) (call : String) (line : Nat) : Tracker :=
  match source with
  | .name id =>
    match t.findNilSource id.name with
    | none => t
    | some n =>
      if t.hasGuard id.name n.line line then t.setNilSource { n with isGuarded := true }
      else
        { t with
          nilAccesses := t.nilAccesses ++ [⟨id.name, call, line, n, t.isSafeToGuard n line⟩] }
  | _ => t

/-! ### Calls and assignments -/

def calleeName? : Expr → Option (Option String × String × String)
  | .name id => some (none, id.name, id.name)
  | .index _ (.name m) (.name f) => some (some m.name, f.name, s!"{m.name}.{f.name}")
  | _ => none

def recordCall (t : Tracker) (fullName : String) (module : Option String) (func : String)
    (args : List Expr) (node : Expr) : Tracker :=
  let call : Call :=
    { fullName, module, func, args, line := node.line, node, scope := t.current,
      loopDepth := t.loopDepth, conditional := t.conditional, branch := t.branch }
  { t with calls := t.calls ++ [call] }

def valueKind : Expr → ValueKind
  | .call _ _ _ => .call
  | .index _ _ _ => .index
  | .binary .concat _ _ => .concat
  | .number _ _ | .string _ _ _ | .bool _ _ | .nil _ => .literal
  | _ => .other

def nameOf? : Expr → Option String
  | .name id => some id.name
  | _ => none

def recordConcat (t : Tracker) (target : String) (value : Expr) (line : Nat) : Tracker :=
  match value with
  | .binary .concat left right =>
    let loop :=
      if t.loopDepth > 0 then
        ((chain t.scopes t.current).find? fun p => p.2.kind == .loop).map (·.1)
      else none
    { t with
      concats := t.concats ++
        [⟨some target, nameOf? left, line, t.current, t.loopDepth > 0, t.loopDepth, loop,
          some right.text⟩] }
  | _ => t

def nilFunction? (value : Expr) : Option String :=
  let name? : Option String := match value with
    | .call callee _ _ => (calleeName? callee).map fun c => c.2.2
    | .invoke _ method _ => some s!":{method.name}"
    | .index form base key => some (Expr.index form base key).text
    | _ => none
  name?.filter fun n => Vocabulary.nilReturning.any fun p => p.1 == n

def recordAssignment (t : Tracker) (target : String) (value : Expr) (line : Nat)
    (isLocal : Bool) : Tracker :=
  let t := t.recordConcat target value line
  let t : Tracker :=
    { t with
      assigns := t.assigns ++
        [⟨target, valueKind value, value.text, line, t.current, isLocal, t.loopDepth > 0⟩] }
  match nilFunction? value with
  | some f => t.setNilSource ⟨target, value.text, f, line, t.current, isLocal, false⟩
  | none => t.clearNilSource target

/-- The value whose text is recorded when values are assigned: a single one, if a name gets it. -/
def recordedValue (named : Bool) : List Expr → List Expr
  | [value] => if named then [value] else []
  | _ => []

def recordCopy (t : Tracker) (value : Expr) : Tracker :=
  match value with
  | .index _ (.name m) (.name f) =>
    if Vocabulary.cacheableModules.any fun p => p.1 == m.name then
      t.markCached s!"{m.name}.{f.name}"
    else t
  | .name id => if Vocabulary.cacheableGlobals.contains id.name then t.markCached id.name else t
  | _ => t

def recordLocal (t : Tracker) (targets : List Ident) (values : List Expr) (line : Nat) : Tracker :=
  let t := t.declareAll (targets.map (·.name))
  match targets, values with
  | [target], [value] => (t.recordCopy value).recordAssignment target.name value line true
  | _, _ => t

def recordTarget (t : Tracker) (values : List Expr) (line : Nat) (target : Expr) : Tracker :=
  match target with
  | .name id =>
    let t :=
      if isLocal t.scopes t.current id.name then t
      else { t with globalWrites := t.globalWrites ++ [(id.name, line)] }
    match values with
    | [value] => t.recordAssignment id.name value line false
    | _ => t
  | _ => t

def recordLoopFunction (t : Tracker) (name : String) (node : Stat) : Tracker :=
  if t.loopDepth > 0 then
    { t with loopFunctions := t.loopFunctions ++ [⟨node.line, name, node⟩] }
  else t

def recordIterator (t : Tracker) (targets : List Ident) (iterators : List Expr) : Tracker :=
  match iterators with
  | .call (.name id) _ _ :: _ =>
    { t with iteratorLoops := t.iteratorLoops ++ [⟨0, id.name, targets.map (·.name)⟩] }
  | _ => t

def recordLoopConcat (t : Tracker) (left : Expr) : Tracker :=
  if t.loopDepth > 0 then
    { t with
      concats := t.concats ++
        [⟨none, nameOf? left, 0, t.current, true, t.loopDepth, none, none⟩] }
  else t

def recordLength (t : Tracker) (token : Token) (operand : Expr) : Tracker :=
  if t.loopDepth > 0 then
    { t with lengthUses := t.lengthUses ++ [⟨token.line, operand.text, t.current⟩] }
  else t

end Tracker

end LuaTune.Analysis
