/-! # The names that the rules know -/

namespace LuaTune.Vocabulary

def hotCallbacks : List String :=
  ["onTick", "OnTick", "tick", "Tick", "mainLoop", "MainLoop", "gameLoop", "GameLoop",
   "onClientResourceStart", "onClientResourceStop", "onResourceStart", "onResourceStop"]

def cacheableGlobals : List String :=
  ["pairs", "ipairs", "next", "type", "tostring", "tonumber", "unpack", "select", "rawget",
   "rawset"]

def cacheableModules : List (String × List String) :=
  [("math",
      ["floor", "ceil", "abs", "min", "max", "sqrt", "sin", "cos", "tan", "random", "pow", "log",
       "exp", "atan2", "atan", "asin", "acos", "deg", "rad", "fmod", "modf", "huge"]),
   ("string",
      ["find", "sub", "gsub", "match", "gmatch", "format", "lower", "upper", "len", "rep", "byte",
       "char", "reverse"]),
   ("table",
      ["insert", "remove", "concat", "sort", "getn", "unpack"]),
   ("bit",
      ["band", "bor", "bxor", "bnot", "lshift", "rshift", "arshift", "rol", "ror"]),
   ("lib",
      ["print", "notify", "locale", "callback", "onCache", "zones", "points", "showContext",
       "hideContext", "getOpenContextMenu", "registerContext", "showTextUI", "hideTextUI",
       "isTextUIOpen", "progressBar", "progressCircle", "cancelProgress", "progressActive",
       "inputDialog", "alertDialog", "confirmDialog", "registerRadial", "addRadialItem",
       "removeRadialItem", "clearRadialItems", "disableRadial", "getCurrentRadialId",
       "hideRadial", "showMenu", "hideMenu", "getOpenMenu", "setMenuOptions", "registerMenu",
       "getRandomVector", "getClosestPlayer", "getClosestPed", "getClosestVehicle",
       "getClosestObject", "getNearbyPlayers", "getNearbyPeds", "getNearbyVehicles",
       "getNearbyObjects", "getPlayer", "getCoreObject", "hasExport", "requestAnimDict",
       "requestAnimSet", "requestModel", "requestNamedPtfxAsset", "requestScaleformMovie",
       "requestStreamedTextureDict", "requestWeaponAsset"])]

def debugFunctions : List String :=
  ["print", "printf", "printe", "printd", "log", "log1", "log2", "log3", "DebugLog", "debug_log",
   "trace", "dump"]

def replacedFunctions : List String :=
  ["table.insert", "table.getn", "string.len"]

inductive ArgumentRule where
  | none
  | ped
  | pedAndFalse
  | player
deriving DecidableEq, Repr

structure CachedProperty where
  native : String
  property : String
  description : String
  arguments : ArgumentRule

def cachedProperties : List CachedProperty :=
  [⟨"PlayerPedId", "cache.ped", "Player ped entity", .none⟩,
   ⟨"PlayerId", "cache.playerId", "Player ID", .none⟩,
   ⟨"GetPlayerServerId", "cache.serverId", "Server ID", .player⟩,
   ⟨"GetVehiclePedIsIn", "cache.vehicle", "Current vehicle (false for last)", .pedAndFalse⟩,
   ⟨"GetEntityCoords", "cache.coords", "Player coordinates", .ped⟩,
   ⟨"GetEntityHeading", "cache.heading", "Player heading", .ped⟩,
   ⟨"GetSelectedPedWeapon", "cache.weapon", "Current weapon hash", .ped⟩,
   ⟨"GetVehiclePedIsUsing", "cache.vehicle", "Current vehicle", .ped⟩,
   ⟨"IsPedInAnyVehicle", "cache.vehicle ~= nil",
     "Vehicle check (cache.vehicle is false when not in vehicle)", .ped⟩]

def nilReturning : List (String × String) :=
  [("GetPlayerPed", "player not loaded or invalid player ID"),
   ("PlayerPedId", "player ped not yet spawned (rare)"),
   ("GetVehiclePedIsIn", "ped is not in a vehicle (returns 0)"),
   ("GetPedInVehicleSeat", "seat is empty (returns 0)"),
   ("GetClosestVehicle", "no vehicle nearby (returns 0)"),
   ("GetClosestPed", "no ped nearby (returns 0)"),
   ("GetClosestObjectOfType", "no matching object found (returns 0)"),
   ("NetworkGetEntityFromNetworkId", "network ID does not exist (returns 0)"),
   ("NetworkGetNetworkIdFromEntity", "entity does not exist (returns 0)"),
   ("GetEntityAttachedTo", "entity is not attached (returns 0)"),
   ("GetPedSourceOfDamage", "no damage source (returns 0)"),
   ("GetPedCauseOfDeath", "ped is alive (returns 0)"),
   ("GetPedKiller", "no killer or ped is alive (returns 0)"),
   ("GetEntityPlayerIsFreeAimingAt", "not aiming at anything (returns false, 0)"),
   ("GetPedLastVehicle", "ped never entered a vehicle (returns 0)"),
   ("GetVehicleTrailer", "no trailer attached (returns false, 0)"),
   ("GetVehiclePedIsUsing", "ped not using vehicle (returns 0)")]

def platformEvents : List String :=
  ["playerConnecting", "playerDropped", "onResourceStart", "onResourceStop", "onResourceStarting",
   "onClientResourceStart", "onClientResourceStop", "gameEventTriggered",
   "baseevents:onPlayerDied", "baseevents:onPlayerKilled", "baseevents:enteredVehicle",
   "baseevents:enteringVehicle", "baseevents:leftVehicle"]

def expensiveCalls : List String :=
  ["PlayerPedId", "PlayerId", "GetPlayerServerId", "GetEntityCoords", "GetEntityModel",
   "GetHashKey", "GetPlayerPed", "GetVehiclePedIsIn", "GetEntityHeading",
   "GetDistanceBetweenCoords", "GetEntityVelocity", "GetEntityRotation", "GetEntityHealth",
   "GetEntityMaxHealth", "GetEntitySpeed", "GetEntityForwardVector", "GetVehicleClass",
   "GetVehicleEngineHealth", "GetVehicleBodyHealth", "GetVehicleNumberPlateText",
   "GetVehiclePedIsUsing", "GetSelectedPedWeapon", "GetPedArmour", "IsPedInAnyVehicle",
   "GetPlayerWantedLevel", "GetPedMaxHealth", "lib.getClosestPlayer", "lib.getClosestPed",
   "lib.getClosestVehicle", "lib.getClosestObject", "lib.getNearbyPlayers", "lib.getNearbyPeds",
   "lib.getNearbyVehicles", "lib.getNearbyObjects", "lib.getCoreObject", "lib.getPlayer",
   "lib.progressActive"]

end LuaTune.Vocabulary
