import LuaTune.Fix.Replacement

/-! # Local copies -/

namespace LuaTune.Fix

open Lua Analysis Text

/-!
## Local copies of globals

The globals that a function uses often are copied to locals on the line after its head.
-/

/-- The name of the copy: `module_func`, or `g_name`. -/
def copyName (name : Chars) : Chars :=
  match findChar? '.' name with
  | some n => name.take n ++ '_' :: name.drop (n + 1)
  | none => 'g' :: '_' :: name

def copyBlock (indent : Chars) (names : List String) : Chars :=
  (sortNames names).flatMap fun n =>
    '\n' :: indent ++ "local ".toList ++ copyName n.toList ++ " = ".toList ++ n.toList

def copyUse? (source : Chars) (name : String) (call : Call) : Option Edit :=
  match funcSpan source call.node name.toList with
  | (some start, stop) => some (editAt start stop (copyName name.toList))
  | (none, _) => none

def globalCalls (f : Finding) : List (String × List Call) :=
  match f.details.get? "globals_info" with
  | some (.callsByName groups) => groups
  | _ => []

/-- Copy globals to locals at the start of a function and use those. -/
def globalEdits (source : Chars) (f : Finding) : List Edit :=
  let groups := globalCalls f
  let edits : Option (List Edit) := do
    let scope ← f.details.scope? "scope"
    if groups.isEmpty then none
    let place ← lineEnd source scope.startLine
    let indent := lineIndent source (scope.startLine + 1)
    let indent := if indent.isEmpty then ['\t'] else indent
    return editAt place (some place) (copyBlock indent (groups.map (·.1))) 100
      :: groups.flatMap fun g => g.2.filterMap (copyUse? source g.1)
  edits.getD []

/-!
## Local copies of the results of calls

A call that a function makes often is made once. Where the first call stands in a loop or a branch,
the copy goes to the start of the function; where a copy is already declared, its uses stay inside
the block of the declaration.
-/

/-- A local for the result of a call. -/
structure ResultCopy where
  declaration : Chars
  name : Chars
  call : Chars
deriving DecidableEq, Repr

/-- The result of a function goes to a local, and any call of the function uses it. -/
def callCopy (callee arguments name : String) (further : String := "") : String × ResultCopy :=
  (callee, ⟨"local ".toList ++ name.toList ++ further.toList ++ " = ".toList ++ callee.toList
    ++ '(' :: arguments.toList ++ [')'], name.toList, callee.toList⟩)

def nativeCopies : List (String × ResultCopy) :=
  [("PlayerPedId", ⟨"local ped = PlayerPedId()".toList, "ped".toList, "PlayerPedId()".toList⟩),
   ("PlayerId", ⟨"local playerId = PlayerId()".toList, "playerId".toList, "PlayerId()".toList⟩),
   ("GetPlayerServerId", ⟨"local serverId = GetPlayerServerId(PlayerId())".toList, "serverId".toList,
     "GetPlayerServerId(PlayerId())".toList⟩),
   callCopy "GetEntityCoords" "ped" "coords", callCopy "GetEntityModel" "entity" "model",
   callCopy "GetHashKey" "str" "hash", callCopy "GetPlayerPed" "playerId" "ped",
   callCopy "GetVehiclePedIsIn" "ped, false" "vehicle",
   callCopy "GetEntityHeading" "entity" "heading",
   callCopy "GetEntityVelocity" "entity" "velocity",
   callCopy "GetEntityRotation" "entity" "rotation", callCopy "GetEntityHealth" "entity" "health",
   callCopy "GetEntityMaxHealth" "entity" "maxHealth", callCopy "GetEntitySpeed" "entity" "speed",
   callCopy "GetEntityForwardVector" "entity" "forward",
   callCopy "GetVehicleClass" "vehicle" "vehicleClass",
   callCopy "GetVehicleEngineHealth" "vehicle" "engineHealth",
   callCopy "GetVehicleBodyHealth" "vehicle" "bodyHealth",
   callCopy "GetVehicleNumberPlateText" "vehicle" "plateText",
   callCopy "GetVehiclePedIsUsing" "ped" "vehicle", callCopy "GetSelectedPedWeapon" "ped" "weapon",
   callCopy "GetPedArmour" "ped" "armour", callCopy "IsPedInAnyVehicle" "ped, false" "inVehicle",
   callCopy "GetPlayerWantedLevel" "playerId" "wantedLevel",
   callCopy "GetPedMaxHealth" "ped" "pedMaxHealth",
   callCopy "lib.getClosestPlayer" "coords, maxDist, includePlayer" "closestPlayer" ", closestPlayerDist",
   callCopy "lib.getClosestPed" "coords, maxDist" "closestPed" ", closestPedDist",
   callCopy "lib.getClosestVehicle" "coords, maxDist" "closestVehicle" ", closestVehicleDist",
   callCopy "lib.getClosestObject" "coords, maxDist" "closestObject" ", closestObjectDist",
   callCopy "lib.getNearbyPlayers" "coords, maxDist, includePlayer" "nearbyPlayers",
   callCopy "lib.getNearbyPeds" "coords, maxDist" "nearbyPeds",
   callCopy "lib.getNearbyVehicles" "coords, maxDist" "nearbyVehicles",
   callCopy "lib.getNearbyObjects" "coords, maxDist" "nearbyObjects",
   callCopy "lib.getCoreObject" "" "core", callCopy "lib.getPlayer" "" "playerData",
   callCopy "lib.progressActive" "" "isProgressActive"]

def methodCopies : List (String × String) :=
  [("story_id", "_sid"), ("section", "_sec"), ("clsid", "_cls"), ("id", "_id")]

/-- Split `object_method()` at the first place where a method of the table follows; the object is
one line and not empty. -/
def splitMethod? (object : Chars) : Chars → Option (Chars × String × String)
  | [] => none
  | c :: cs =>
    let found := if object.isEmpty then none
      else methodCopies.find? fun m => (c :: cs) == '_' :: m.1.toList ++ ['(', ')']
    match found with
    | some m => some (object.reverse, m.1, m.2)
    | none => if c = '\n' then none else splitMethod? (c :: object) cs

/-- The object as it is written in the call. A call among the details says so; otherwise the name
is taken as it is, with the dot after `self` put back. -/
def objectText (f : Finding) (object : Chars) : Chars :=
  match (f.details.text? "original_call").bind fun s => findChar? ':' s.toList with
  | some n => ((f.details.text? "original_call").getD "").toList.take n
  | none =>
    match stripPrefix? "self_".toList object with
    | some rest => "self.".toList ++ rest
    | none => object

def methodCopy? (f : Finding) (subject : Chars) : Option ResultCopy := do
  let (object, method, ending) ← splitMethod? [] subject
  let written := objectText f object
  if written.contains '[' || written.contains ']' then none
  else
    let name := object ++ ending.toList
    let call := written ++ ':' :: method.toList ++ ['(', ')']
    some ⟨"local ".toList ++ name ++ " = ".toList ++ call, name, call⟩

/-- The copy that the pattern of a finding asks for. -/
def resultCopy? (f : Finding) : Option ResultCopy := do
  let subject ← stripPrefix? "repeated_".toList f.pattern.toList
  match nativeCopies.find? fun n => n.1.toList == subject with
  | some (_, copy) => some copy
  | none => methodCopy? f subject

/-! ### Looking at lines -/

def lineText? (source : Chars) (line : Int) : Option Chars :=
  (lineSpan source line).map fun s => slice source s.1 s.2

def declares (name line : Chars) : Bool :=
  anyTail (fun before t =>
    isBoundary before t.head? &&
      (do
        let rest ← stripPrefix? "local".toList t
        let rest ← someBlanks? rest
        let rest ← stripPrefix? name rest
        stripPrefix? ['='] (stripLeft rest)).isSome) none line

def ResultCopy.isDeclaredIn (copy : ResultCopy) (line : Chars) : Bool :=
  declares copy.name line && contains line copy.call

def findLast? (p : Chars) : Chars → Option Nat
  | [] => none
  | c :: cs =>
    match findLast? p cs with
    | some n => some (n + 1)
    | none => if startsWith (c :: cs) p then some 0 else none

def endsInComment (before : Chars) : Bool :=
  match findLast? "--[[".toList before, findLast? "]]".toList before with
  | some a, some b => b < a
  | some _, none => true
  | none, _ => false

def uncommented (line : Chars) : Chars :=
  match find? ['-', '-'] line with
  | some n => line.take n
  | none => line

def unquoted (previous : Option Char) (quote : Option Char) : Chars → Chars
  | [] => []
  | c :: cs =>
    match quote with
    | none =>
      if c = '"' ∨ c = '\'' then unquoted (some c) (some c) cs
      else c :: unquoted (some c) none cs
    | some q =>
      if c = q ∧ previous ≠ some '\\' then unquoted (some c) none cs
      else unquoted (some c) (some q) cs

/-- How many more times one character occurs than another, over several lines, outside of quotes
and comments. -/
def excess (opening closing : Char) (lines : List Chars) : Int :=
  lines.foldl (fun n l =>
    let code := unquoted none none (uncommented l)
    n + ((countChar opening code : Int) - countChar closing code)) 0

def startsLoop (line : Chars) : Bool :=
  let code := (strip (uncommented line)).map Char.toLower
  ["for ", "while ", "repeat"].any fun w => startsWith code w.toList

def closesBlock (depth : Nat) (line : Chars) : Bool :=
  decide ((indentOf line).length ≤ depth) &&
    match words line with
    | w :: _ => ["else", "elseif", "end"].any fun k => k.toList == w
    | [] => false

def linesBetween (first stop : Nat) : List Nat := List.range' first (stop - first)

/-- Does a line in a range close the block, by its indent? -/
def blockEnds (source : Chars) (depth first stop : Nat) : Bool :=
  (linesBetween first stop).any fun n =>
    match lineText? source n with
    | some l => closesBlock depth l
    | none => false

def isGuarded (copy : ResultCopy) (line : Chars) : Bool :=
  match find? copy.call line with
  | none => false
  | some n =>
    let object := copy.call.takeWhile (· != ':')
    anyTail (fun before t =>
      isBoundary before t.head? &&
        (do
          let rest ← stripPrefix? object t
          let rest ← someBlanks? rest
          wordAt? "and".toList (some ' ') rest).isSome) none (line.take n)

def bodyIndent (indent : Chars) : Chars :=
  match indent with
  | [] => ['\t']
  | '\t' :: _ => ['\t']
  | [c] => [c]
  | cs => cs.take (cs.length / 2)

/-! ### Placing the declaration -/

/-- Declare a copy before the first call, or at the start of the function if that call is in a loop
or its block ends before the last one. The result of a method never moves up, and nothing goes into
comments, tables or arguments. -/
def declarationEdit? (source : Chars) (copy : ResultCopy) (scope : Scope)
    (firstLine lastLine : Nat) : Option Edit := do
  let (place, _) ← lineSpan source firstLine
  if endsInComment (source.take place) then none
  let isMethod := copy.call.contains ':'
  let numbers := linesBetween scope.startLine (firstLine + 1)
  let lines := numbers.filterMap fun (n : Nat) => lineText? source n
  if 0 < excess '\x7b' '\x7d' lines || 0 < excess '(' ')' lines then none
  if isMethod && ((lineText? source firstLine).any (isGuarded copy)) then none
  let inLoop := (linesBetween scope.startLine firstLine).any fun (n : Nat) =>
    (lineText? source n).any startsLoop
  let indent := lineIndent source firstLine
  let branches := blockEnds source indent.length (firstLine + 1) (lastLine + 1)
  if (inLoop || branches) && firstLine < lastLine then
    if isMethod then none
    else
      let (place, _) ← lineSpan source (scope.startLine + 1)
      if endsInComment (source.take place) then none
      else some (editAt place (some place) (bodyIndent indent ++ copy.declaration ++ ['\n']) 100)
  else some (editAt place (some place) (indent ++ copy.declaration ++ ['\n']) 100)

/-- Use the copy in place of a call. -/
def resultUse? (source : Chars) (copy : ResultCopy) (call : Call) : Option Edit :=
  if (lineText? source call.line).any copy.isDeclaredIn then none
  else
    match exprSpan source call.node with
    | (some start, stop) => some (editAt start stop copy.name)
    | (none, _) => none

/-- What the fix of repeated calls does: the copy that it uses, the insertion of its declaration
unless it relies on one that is there, and the calls that are replaced where they can be. -/
structure CachePlan where
  copy : ResultCopy
  inserted : Option Edit
  calls : List Call

def cachePlan? (source : Chars) (f : Finding) : Option CachePlan := do
  let calls ← f.details.calls? "calls"
  let scope ← f.details.scope? "scope"
  let first ← calls.head?
  let last ← calls.getLast?
  let copy ← resultCopy? f
  if (lineText? source first.line).any copy.isDeclaredIn then
    -- the copy is there; a call after the end of its block cannot use it
    let depth := (lineIndent source first.line).length
    return ⟨copy, none, calls.filter fun c => !blockEnds source depth (first.line + 1) c.line⟩
  else
    let declaration ← declarationEdit? source copy scope first.line last.line
    return ⟨copy, some declaration, calls⟩

def CachePlan.edits (source : Chars) (plan : CachePlan) : List Edit :=
  plan.inserted.toList ++ plan.calls.filterMap (resultUse? source plan.copy)

/-- Keep the result of repeated calls in a local and use that. -/
def repeatedCallEdits (source : Chars) (f : Finding) : List Edit :=
  ((cachePlan? source f).map (CachePlan.edits source)).getD []

end LuaTune.Fix
