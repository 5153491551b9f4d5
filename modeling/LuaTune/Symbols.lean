import LuaTune.Files.Tree
import LuaTune.Lua.Syntax.Parse
import LuaTune.Lua.Syntax.Text

/-! # Symbols -/

namespace LuaTune.Symbols

open Lua Files

/-! ## Runs -/

section

variable {α : Type} [DecidableEq α]

abbrev Runs (α : Type) := List (α × Nat)

namespace Runs

def push (x : α) (n : Nat) : Runs α → Runs α
  | [] => [(x, n)]
  | [(y, m)] => if x = y then [(y, m + n)] else [(y, m), (x, n)]
  | r :: rs => r :: push x n rs

def append (as bs : Runs α) : Runs α :=
  match bs with
  | [] => as
  | (x, n) :: bs => push x n as ++ bs

def ofList (xs : List α) : Runs α := xs.foldl (fun rs x => push x 1 rs) []

def toList (rs : Runs α) : List α := rs.flatMap fun r => List.replicate r.2 r.1

end Runs

abbrev Index (α : Type) := List (String × Runs α)

namespace Index

def add (key : String) (rs : Runs α) : Index α → Index α
  | [] => [(key, rs)]
  | (k, qs) :: ix => if k = key then (k, qs.append rs) :: ix else (k, qs) :: add key rs ix

def append (as bs : Index α) : Index α := bs.foldl (fun ix e => add e.1 e.2 ix) as

end Index

end

/-! ## Symbols -/

inductive DefinitionKind where
  | globalFunction
  | moduleFunction
  | localFunction
  | method
  | globalVar
  | moduleVar
deriving DecidableEq, Repr

def DefinitionKind.name : DefinitionKind → String
  | .globalFunction => "global_function"
  | .moduleFunction => "module_function"
  | .localFunction => "local_function"
  | .method => "method"
  | .globalVar => "global_var"
  | .moduleVar => "module_var"

def DefinitionKind.reach : DefinitionKind → String
  | .globalFunction | .globalVar => "global"
  | .moduleFunction | .method | .moduleVar => "module"
  | .localFunction => "local"

structure Definition where
  name : String
  path : Path
  line : Nat
  kind : DefinitionKind
  isCallback : Bool := false
  isClassMethod : Bool := false
deriving DecidableEq, Repr

inductive UsageKind where
  | call
  | read
  | registration
deriving DecidableEq, Repr

def UsageKind.name : UsageKind → String
  | .call => "call"
  | .read => "read"
  | .registration => "callback_register"

structure Usage where
  name : String
  path : Path
  line : Nat
  kind : UsageKind
deriving DecidableEq, Repr

def knownCallbacks : List String :=
  ["onClientResourceStart", "onClientResourceStop", "onClientMapStart", "onClientMapStop",
   "onClientGameTypeStart", "onClientGameTypeStop", "gameEventTriggered", "populationPedCreating",
   "onResourceStart", "onResourceStop", "onResourceStarting", "playerConnecting", "playerDropped",
   "baseevents:onPlayerDied", "baseevents:onPlayerKilled", "baseevents:onPlayerWasted",
   "baseevents:enteringVehicle", "baseevents:enteredVehicle", "baseevents:enteringAborted",
   "baseevents:leftVehicle", "onTick", "OnTick", "tick", "Tick", "mainLoop", "MainLoop",
   "gameLoop", "RegisterNUICallback", "__export", "exports"]

/-! ### Definitions -/

def targetDefinition? (path : Path) (line values : Nat) : Expr → Option Definition
  | .name id =>
    if values = 1 then some { name := id.name, path, line, kind := .globalVar } else none
  | e@(.index ..) => some { name := e.symbolText, path, line, kind := .moduleVar }
  | _ => none

/-- What a statement defines itself. Local variables are counted with the global ones. -/
def statDefinitions (path : Path) (s : Stat) : List Definition :=
  let line := s.line
  match s with
  | .function _ _ base [] _ _ =>
    [{ name := base.name, path, line, kind := .globalFunction,
       isCallback := knownCallbacks.contains base.name }]
  | .function _ _ base ids _ _ =>
    [{ name := (dottedName base ids).symbolText, path, line, kind := .moduleFunction }]
  | .localFunction _ _ name _ _ =>
    [{ name := name.name, path, line, kind := .localFunction,
       isCallback := knownCallbacks.contains name.name }]
  | .method _ _ base ids name _ _ =>
    [{ name := (dottedName base ids).symbolText ++ ":" ++ name.name, path, line, kind := .method,
       isClassMethod := knownCallbacks.contains name.name }]
  | .assign _ _ targets values => targets.filterMap (targetDefinition? path line values.length)
  | .localAssign _ targets values =>
    targets.filterMap fun id => targetDefinition? path line values.length (.name id)
  | _ => []

def nodeDefinitions (path : Path) : Node → List Definition
  | .stat s => statDefinitions path s
  | _ => []

namespace Definition

def key (d : Definition) : String :=
  match d.kind with
  | .localFunction => "local:" ++ d.path.stem ++ ":" ++ d.name
  | _ => d.name

def registers (d : Definition) : Bool := d.kind == .globalFunction && d.isCallback

def exports (d : Definition) : Bool :=
  match d.kind with
  | .moduleFunction | .moduleVar => true
  | .method => d.isClassMethod
  | _ => false

end Definition

/-! ### Uses -/

structure NodeUsage where
  usages : List Usage := []
  callbacks : List String := []
  exported : List String := []

def nonEmptyNames (names : List String) : List String := names.filter fun n => !n.isEmpty

def callUsage (path : Path) (line : Nat) (callee : Expr) (args : List Expr) : NodeUsage :=
  let func := callee.symbolText
  let calls := (nonEmptyNames [func]).map fun n => Usage.mk n path line .call
  match func, args with
  | "AddEventHandler", event :: handler :: _ =>
    let handlers := nonEmptyNames [handler.symbolText]
    { usages := calls ++ handlers.map fun n => ⟨n, path, line, .registration⟩
      callbacks := nonEmptyNames [event.symbolText] ++ handlers }
  | "exports", name :: value :: _ =>
    { usages := calls, exported := nonEmptyNames [name.symbolText, value.symbolText] }
  | _, _ => { usages := calls }

def nodeUsage (path : Path) (n : Node) : NodeUsage :=
  match n.expr? with
  | some (.call callee args _) => callUsage path n.line callee args
  | some (.invoke source _ _) =>
    { usages := (nonEmptyNames [source.symbolText]).map fun s => ⟨s, path, n.line, .read⟩ }
  | some (.name id) => { usages := [⟨id.name, path, n.line, .read⟩] }
  | some (.index form base key) =>
    { usages := [⟨(Expr.index form base key).symbolText, path, n.line, .read⟩] }
  | _ => {}

/-!
## The symbols of a program

A visit of a node records what the node defines and then visits all nodes below it, near and far. A
node at depth `d + 1` is therefore visited `2 ^ d` times. The visits are counted and not made.
-/

/-! ### Visits -/

/-- What visiting a node records, and what visiting all nodes below it, once each, records. -/
structure Visits where
  all : Index Definition
  below : Index Definition

def definitionIndex (ds : List Definition) : Index Definition :=
  ds.foldl (fun ix d => Index.add d.key [(d, 1)] ix) []

def nodeVisits (path : Path) (n : Node) (parts : List Visits) : Visits :=
  let below := parts.foldl (fun ix v => (ix.append v.all).append v.below) []
  ⟨(definitionIndex (nodeDefinitions path n)).append below, below⟩

def scriptDefinitions (path : Path) (c : Chunk) : Index Definition :=
  (c.fold (nodeVisits path)).all

/-! ### Survey -/

structure Survey where
  definitions : Index Definition := []
  usages : List (String × List Usage) := []
  callbacks : List String := []
  exported : List String := []
  analyzed : List Path := []
  failures : List Path := []

def insertAll [BEq α] (xs ys : List α) : List α :=
  ys.foldl (fun xs y => if xs.contains y then xs else xs ++ [y]) xs

def parseFile? (t : Tree) (p : Path) : Option Chunk :=
  match t.read p with
  | .ok c => Chunk.parse? (Text.plainText c.toBytes)
  | .error _ => none

namespace Survey

def fail (s : Survey) (p : Path) : Survey := { s with failures := s.failures ++ [p] }

def addDefinitions (t : Tree) (s : Survey) (p : Path) : Survey :=
  match parseFile? t p with
  | none => s.fail p
  | some c =>
    let ds := c.walk.flatMap (nodeDefinitions p)
    { s with
      definitions := s.definitions.append (scriptDefinitions p c)
      callbacks := insertAll s.callbacks ((ds.filter Definition.registers).map (·.name))
      exported := insertAll s.exported ((ds.filter Definition.exports).map (·.name))
      analyzed := insertAll s.analyzed [p] }

/-- Visit one node for what it uses. The nodes below it are left out. -/
def addNode (s : Survey) (p : Path) (n : Node) : Survey :=
  let u := nodeUsage p n
  { s with
    usages := u.usages.foldl (fun gs x => addToGroup x.name x gs) s.usages
    callbacks := insertAll s.callbacks u.callbacks
    exported := insertAll s.exported u.exported }

theorem addNode_chunk (s : Survey) (p : Path) (c : Chunk) : s.addNode p (.chunk c) = s := rfl

/-- The second pass over a script. It visits the chunk alone, so it records no use. -/
def checkAgain (t : Tree) (s : Survey) (p : Path) : Survey :=
  match parseFile? t p with
  | none => s.fail p
  | some c => s.addNode p (.chunk c)

/-- Visit every node of a script, as the second pass does not. -/
def addUsages (t : Tree) (s : Survey) (p : Path) : Survey :=
  match parseFile? t p with
  | none => s.fail p
  | some c => c.walk.foldl (addNode · p) s

def ofFiles (t : Tree) (ps : List Path) : Survey :=
  ps.foldl (checkAgain t) (ps.foldl (addDefinitions t) {})

def ofDirectory (t : Tree) (p : Path) (recursive : Bool) : Survey :=
  ofFiles t (if recursive then t.allEndingWith p ".script" else t.endingWith p ".script")

def resourceScripts (t : Tree) (root : Path) : List Path :=
  let first := (t.allNamed root "fxmanifest.lua").flatMap fun m => t.allEndingWith m.parent ".lua"
  insertAll first ((t.allNamed root "__resource.lua").flatMap fun m =>
    t.allEndingWith m.parent ".lua")

/-- The survey of all resources below a directory. It keeps no record of the files. -/
def ofResources (t : Tree) (root : Path) : Survey :=
  { ofFiles t (resourceScripts t root) with analyzed := [], failures := [] }

def isUsed (s : Survey) (name : String) : Bool :=
  s.usages.any (fun g => g.1 == name) || s.callbacks.contains name || s.exported.contains name

def unused (s : Survey) : Runs Definition :=
  s.definitions.flatMap fun e =>
    if s.isUsed e.1 then [] else e.2.filter fun r => r.1.kind.reach == "global"

end Survey

end LuaTune.Symbols
