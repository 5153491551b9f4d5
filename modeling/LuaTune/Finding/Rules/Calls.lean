import LuaTune.Finding.Basic

/-! # Calls -/

namespace LuaTune.Rules

open Lua Analysis Decimal

/-! ## Calls with a shorter form -/

def aboutCall (lines : List Chars) (call : Call) (pattern : String) (severity : Severity)
    (message : String) (details : Details) : Finding :=
  ⟨pattern, severity, call.line, message, details, shownLine lines call.line⟩

/-- The expressions that stand in the finding about a call, if there is one. -/
def replacedParts (call : Call) : List Expr :=
  match call.fullName, call.args with
  | "table.insert", [table, value] => [table, value]
  | "table.getn", [arg] => [arg]
  | "string.len", [arg] => [arg]
  | "math.pow", [base, .number exponent token] => [base, .number exponent token]
  | "math.pow", [base, _] => [base]
  | _, _ => []

def appendFinding? (lines : List Chars) (call : Call) : Option Finding :=
  match call.fullName, call.args with
  | "table.insert", [table, value] =>
    let t := table.text
    let v := value.text
    some (aboutCall lines call "table_insert_append" .green
      s!"table.insert({t}, v) -> {t}[#{t}+1] = v"
      [("table", .text t), ("value", .text v), ("full_match", .text s!"table.insert({t}, {v})"),
       ("node", .node (.expr call.node))])
  | _, _ => none

def lengthFinding? (lines : List Chars) (call : Call) : Option Finding :=
  let found (pattern key : String) (arg : Expr) : Finding :=
    let name := call.fullName
    let a := arg.text
    aboutCall lines call pattern .green s!"{name}({a}) -> #{a}"
      [(key, .text a), ("full_match", .text s!"{name}({a})"), ("node", .node (.expr call.node))]
  match call.fullName, call.args with
  | "table.getn", [arg] => some (found "table_getn" "table" arg)
  | "string.len", [arg] => some (found "string_len" "string" arg)
  | _, _ => none

/-- The exponents that products take the place of. -/
def smallPower? (n : Numeral) : Option Nat := [2, 3, 4].find? fun k => n.isQuotient k 1

def powerFinding? (lines : List Chars) (call : Call) : Option Finding :=
  match call.fullName, call.args with
  | "math.pow", [base, .number exponent _] =>
    let b := base.text
    let e := exponent.text
    let whole := s!"math.pow({b}, {e})"
    let found (result kind : String) (exponent : Detail) : Finding :=
      aboutCall lines call "math_pow_simple" .green s!"{whole} -> {result}"
        [("base", .text b), ("exponent", exponent), ("type", .text kind),
         ("is_simple", .bool true), ("full_match", .text whole),
         ("node", .node (.expr call.node))]
    if exponent.isQuotient 1 2 then
      some (found s!"math.sqrt({b})" "sqrt" (.float ⟨false, .ofQuotient 1 2⟩))
    else
      match smallPower? exponent with
      | some k =>
        if base.isSimple then
          some (found ("*".intercalate (List.replicate k b)) "power" (.int k))
        else none
      | none => none
  | _, _ => none

/-! ## Calls of the platform with a better form -/

def distanceFinding? (lines : List Chars) (call : Call) : Option Finding :=
  if call.fullName == "GetDistanceBetweenCoords" then
    some (aboutCall lines call "distance_native" .yellow
      "GetDistanceBetweenCoords() -> #(coords1 - coords2)"
      [("suggestion", .text "Use #(coords1 - coords2) for ~40% faster distance calculation"),
       ("example", .text "local dist = #(GetEntityCoords(ped1) - GetEntityCoords(ped2))"),
       ("full_match", .text call.node.text),
       ("node", .node (.expr call.node)),
       ("in_loop", .bool (call.loopDepth > 0))])
  else none

/-- Do the arguments, by their texts, stand for the player? If so, a note for the message. -/
def argumentNote? (rule : Vocabulary.ArgumentRule) (args : List String) : Option String :=
  let isPed (a : String) : Bool := ["PlayerPedId()", "cache.ped", "ped"].contains a
  match rule, args with
  | .none, [] => some ""
  | .ped, a :: _ => if isPed a then some " (when arg is player ped)" else none
  | .pedAndFalse, a :: b :: _ =>
    if isPed a && b == "false" then some " (when checking current vehicle)" else none
  | .player, a :: _ => if ["PlayerId()", "cache.playerId"].contains a then some "" else none
  | _, _ => none

def decidingArguments (rule : Vocabulary.ArgumentRule) (args : List Lua.Expr) : List Lua.Expr :=
  match rule, args with
  | .ped, a :: _ => [a]
  | .player, a :: _ => [a]
  | .pedAndFalse, a :: b :: _ => [a, b]
  | _, _ => []

def nativeParts (call : Call) : List Lua.Expr :=
  if call.fullName == "GetDistanceBetweenCoords" then [call.node]
  else
    match Vocabulary.cachedProperties.find? fun p => p.native == call.fullName with
    | some p => decidingArguments p.arguments call.args
    | none => []

/-- The property that stands for a call, and a note for the message. -/
def propertyFor? (call : Call) : Option (Vocabulary.CachedProperty × String) := do
  let p ← Vocabulary.cachedProperties.find? fun p => p.native == call.fullName
  let note ← argumentNote? p.arguments (Lua.textsOf call.args)
  return (p, note)

/-- One finding for each native in a scope. -/
def propertyFindings (lines : List Chars) (calls : List Call) : List Finding :=
  let fitting := calls.filterMap fun c => (propertyFor? c).map fun p => (c, p)
  (groupOn (fun x => (x.1.scope, x.1.fullName)) fitting).filterMap fun g =>
    g.2.head?.map fun (call, p, note) =>
      aboutCall lines call "oxlib_cache_suggestion" .yellow
        s!"{call.fullName}() -> {p.property}{note}"
        [("native", .text call.fullName),
         ("cache_property", .text p.property),
         ("description", .text p.description),
         ("suggestion",
           .text s!"Use {p.property} from ox_lib cache instead of {call.fullName}()"),
         ("requires", .text "ox_lib (https://github.com/overextended/ox_lib)"),
         ("node", .node (.expr call.node)),
         ("in_loop", .bool (call.loopDepth > 0))]

/-!
## Calls that should be made once

Global functions that a function uses often should be copied to a local, and the results of
expensive calls should be kept. In the experimental setting calls in exclusive branches count once.
-/

/-! ### Counting -/

def busiestBranch (calls : List Call) : Nat :=
  ((groupOn (·.branch) calls).map (·.2.length)).foldl max 0

/-- Calls outside of conditionals, and for each conditional those of its busiest branch. -/
def branchAwareCount (calls : List Call) : Nat :=
  let outside := calls.filter (·.conditional.isNone)
  let groups := groupOn (·.conditional) (calls.filter (·.conditional.isSome))
  outside.length + sumOf (groups.map fun g => busiestBranch g.2)

/-- Calls as the settings count them. -/
def callCount (settings : Settings) (calls : List Call) : Nat :=
  if settings.experimental then branchAwareCount calls else calls.length

/-- How many calls are enough; one fewer in what runs on every tick. -/
def thresholdFor (settings : Settings) (scope : Scope) : Int :=
  if scope.isHot then settings.threshold - 1 else settings.threshold

def isFrequent (settings : Settings) (scope : Scope) (calls : List Call) : Bool :=
  thresholdFor settings scope ≤ (callCount settings calls : Int)

/-- The calls of each function, by what they call. -/
def callsByFunction (scopes : List Scope) (calls : List Call) :
    List (ScopeId × List (String × List Call)) :=
  (groupOn (fun c => functionScope scopes c.scope) calls).map fun g =>
    (g.1, groupOn (·.fullName) g.2)

/-! ### Copies of globals -/

/-- Is a name a global, or a function of a module, that a local may stand for? -/
def isCacheable (name : String) : Bool :=
  Vocabulary.cacheableGlobals.contains name ||
    match Text.findChar? '.' name.toList with
    | none => false
    | some n =>
      let module := String.ofList (name.toList.take n)
      let func := String.ofList (name.toList.drop (n + 1))
      Vocabulary.cacheableModules.any fun p => p.1 == module && p.2.contains func

/-- The globals that a function calls often and has no copy of. -/
def uncachedGlobals (settings : Settings) (scope : Scope) (groups : List (String × List Call)) :
    List (String × List Call) :=
  groups.filter fun g =>
    !Vocabulary.replacedFunctions.contains g.1 && !scope.cached.contains g.1 && isCacheable g.1
      && isFrequent settings scope g.2

def exampleLines (groups : List (String × List Call)) : List String :=
  (groups.take 5).flatMap fun g => (g.2.take 2).map fun c => s!"L{c.line}: {g.1}"

def uncachedFinding? (settings : Settings) (id : ScopeId) (scope : Scope)
    (groups : List (String × List Call)) : Option Finding :=
  let found := uncachedGlobals settings scope groups
  if found.isEmpty || scope.kind == .global then none
  else
    some ⟨"uncached_globals_summary", .green, scope.startLine,
      s!"Cache {found.length} globals in {scope.name}",
      [("globals", .record (found.map fun g => (g.1, .int g.2.length))),
       ("globals_info", .callsByName found),
       ("function", .text scope.name),
       ("is_hot", .bool scope.isHot),
       ("scope", .scope id scope)],
      "\n".intercalate (exampleLines found)⟩

def uncachedFindings (settings : Settings) (scopes : List Scope) (calls : List Call) :
    List Finding :=
  (callsByFunction scopes calls).filterMap fun g =>
    (scopes[g.1]?).bind fun s => uncachedFinding? settings g.1 s g.2

/-! ### Results of expensive calls -/

def cachingAdvice (name : String) : String :=
  match name with
  | "PlayerPedId" => "local ped = PlayerPedId()"
  | "PlayerId" => "local playerId = PlayerId()"
  | "GetPlayerServerId" => "local serverId = GetPlayerServerId(PlayerId())"
  | "GetEntityCoords" => "local coords = GetEntityCoords(ped)"
  | "GetEntityModel" => "local model = GetEntityModel(entity)"
  | "GetHashKey" => "local hash = GetHashKey(str) -- or use `hash` literal"
  | "GetPlayerPed" => "local ped = GetPlayerPed(playerId)"
  | "GetVehiclePedIsIn" => "local vehicle = GetVehiclePedIsIn(ped, false)"
  | "GetEntityHeading" => "local heading = GetEntityHeading(entity)"
  | "GetDistanceBetweenCoords" => "Use #(coords1 - coords2) for faster distance calculation"
  | name => s!"Cache {name} result"

def repeatedPattern (name : String) : String :=
  "repeated_" ++ String.ofList (name.toList.map fun c => if c == '.' || c == ':' then '_' else c)

def repeatedFinding? (settings : Settings) (id : ScopeId) (scope : Scope) (name : String)
    (calls : List Call) : Option Finding :=
  if isFrequent settings scope calls then
    let advice := cachingAdvice name
    some ⟨repeatedPattern name,
      if name == "GetDistanceBetweenCoords" then .yellow else .green,
      ((calls.head?.map (·.line)).getD 0 : Nat),
      s!"{name} called {calls.length}x in {scope.name}",
      [("count", .int calls.length),
       ("function", .text scope.name),
       ("is_hot", .bool scope.isHot),
       ("suggestion", .text advice),
       ("lines", .list (calls.map fun c => .int c.line)),
       ("calls", .calls calls),
       ("scope", .scope id scope),
       ("original_call", .text name)],
      advice⟩
  else none

def repeatedFindings (settings : Settings) (scopes : List Scope) (calls : List Call) :
    List Finding :=
  let expensive := calls.filter fun c => Vocabulary.expensiveCalls.contains c.fullName
  (callsByFunction scopes expensive).flatMap fun g =>
    match scopes[g.1]? with
    | some s => g.2.filterMap fun n => repeatedFinding? settings g.1 s n.1 n.2
    | none => []

end LuaTune.Rules
