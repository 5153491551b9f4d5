import LuaTune.Command.Lint

/-!
# Workloads

A script that makes a finding of every kind, and a tour of the command: runs in one directory with
all of its options.
-/

namespace LuaTune.Workload

open Command Console Files

/-! ## A sample script -/

def fourTimes (line : String) : List String := List.replicate 4 line

/-- A function that makes a call four times; what the library offers is called with another argument. -/
def callerOf (name : String) : List String :=
  let argument := if name.startsWith "lib." then "x" else "ent"
  ["function use_" ++ name.map (fun c => if c == '.' then '_' else c) ++ "()"]
    ++ fourTimes ("    local a = " ++ name ++ "(" ++ argument ++ ")")
    ++ ["    return a", "end"]

def methodPart : List String :=
  ["function methodcache(obj, item)"]
    ++ ["    x = obj:section()", "    y = item:id()", "    z = item:clsid()",
     "    w = item:story_id()"].flatMap fourTimes
    ++ ["end"]

def propertyPart : List String :=
  ["function oxlib_demo()", "    a = PlayerPedId()", "    b = PlayerId()",
     "    c = GetPlayerServerId(PlayerId())", "    d = GetVehiclePedIsIn(PlayerPedId(), false)",
     "    e = GetEntityCoords(PlayerPedId())", "    f = GetEntityCoords(cache.ped)",
     "    g = GetEntityHeading(ped)", "    h = GetSelectedPedWeapon(ped)",
     "    i = GetVehiclePedIsUsing(ped)", "    j = IsPedInAnyVehicle(ped)", "end"]

def hotPart : List String :=
  ["function onTick()", "    local t = \x7b\x7d", "    table.insert(t, 1)",
     "    table.insert(t, \x7bkey = 'val', [1] = 2\x7d)", "    local n = table.getn(t)",
     "    local m = string.len('hello')", "    local p = math.pow(n, 2)",
     "    local q = math.pow(n, 3)", "    local r = math.pow(n, 0.5)"]
    ++ ["    pairs(t)", "    ipairs(t)", "    type(t)", "    tostring(t)",
     "    local _x = math.floor(1)", "    local _x = string.sub(1)", "    local _x = bit.band(1)",
     "    local _x = lib.notify(1)"].flatMap fourTimes
    ++ ["    local dist = GetDistanceBetweenCoords(1,2,3,4,5,6,true)", "    for i = 1, 10 do",
     "        local a = #t", "        local b = #t", "        local c = #t + #t", "    end",
     "    for i = 1, 3 do", "        local function inner() return i end", "        inner()",
     "    end", "    for _, v in pairs(t) do", "        print(v)", "    end",
     "    for _k, v in pairs(t) do v = v + 1 end", "    for k, v in ipairs(t) do v = v end",
     "    repeat", "        n = n + 1", "    until n > 5", "    while n < 10 do",
     "        n = n + 1", "        break", "        print('dead')", "    end",
     "    print('debug')", "    log('debug')", "    printf('x',", "           'y')", "end"]

def concatPart : List String :=
  ["function concat_demo()", "    local s = \"\"", "    for i = 1, 10 do",
     "        s = s .. tostring(i)", "    end", "    return s", "end", "function concat_demo2()",
     "    local r = \"\"", "    for i = 1, 10 do",
     "        r = r .. (r == \"\" and \"\" or \", \") .. i", "    end", "    return r", "end"]

def nilPart : List String :=
  ["function nilcheck()", "    local veh = GetVehiclePedIsIn(ped, false)", "    veh:delete()",
     "    local veh2 = GetVehiclePedIsIn(ped, false)", "    if veh2 then",
     "        veh2:delete()", "    end", "    local veh3 = GetClosestVehicle()",
     "    local x = veh3:section()", "end"]

def deadPart : List String :=
  ["function deadcode()", "    if false then", "        unreachable()", "        more()",
     "        more()", "        more()", "    end", "    while false do", "        loopdead()",
     "    end", "    if nil then x() end", "    if cond then", "        a()",
     "    elseif other then", "        b()", "    else", "        c()", "    end", "    return 1",
     "end", "function unused_demo()", "    local never_read = 42", "    local used = 1",
     "    AddEventHandler('evt', used)", "    return used", "end",
     "local function neverCalled() return 1 end", "local function isCalled() return 2 end",
     "isCalled()"]

def operatorPart : List String :=
  ["MyClass = \x7b\x7d", "function MyClass:method(a, b)",
     "    self.x = a + b - a * b / 2 % 3 ^ 2", "    local c = a == b and a ~= b or a < b",
     "    local d = a > b and a <= b or a >= b", "    local e = -a", "    local f = not c",
     "    local g = ~1", "    local h = #t", "    local i = 'str' .. \"other\"",
     "    local j = true or false or nil", "    local tbl = \x7b1, 2, key = 'v'\x7d",
     "    return self.x", "end", "function mod.sub_fn(x) return x end", "someGlobal = 1",
     "_private = 2", "CONST = 3"]

def cachedPart : List String :=
  ["function already_cached()", "    local math_floor = math.floor", "    local pairs = pairs",
     "    return math_floor(1) + math_floor(2) + math_floor(3) + math_floor(4)", "end",
     "function precached()", "    local ped = PlayerPedId()", "    a = PlayerPedId()",
     "    b = PlayerPedId()", "    c = PlayerPedId()", "end"]

def branchPart : List String :=
  ["function branchy()", "    if a then", "        PlayerId(); PlayerId()", "    elseif b then",
     "        PlayerId()", "    else", "        PlayerId(); PlayerId(); PlayerId(); PlayerId()",
     "    end", "end", "function mlc()", "    --[[", "    comment", "    ]]"]
    ++ fourTimes "    x = PlayerPedId()"
    ++ ["end", "function hoisty()", "    for i = 1, 2 do", "        x = PlayerPedId()", "    end",
     "    y = PlayerPedId()", "    y = PlayerPedId()", "    y = PlayerPedId()", "end"]

def fixedPart : List String :=
  Vocabulary.expensiveCalls.flatMap callerOf ++ methodPart ++ propertyPart ++ hotPart ++ concatPart
    ++ nilPart ++ deadPart ++ operatorPart ++ cachedPart ++ branchPart

def furtherFunction (i : Nat) : String :=
  "\n".intercalate
    ["function gen_" ++ toString i ++ "(t)", "    table.insert(t, 1)",
     "    local n = table.getn(t)", "    local m = string.len('x')", "    print('dbg')",
     "    for _, v in pairs(t) do", "        math.floor(v); math.floor(v)",
     "        math.floor(v); math.floor(v)", "    end", "    glob = 1", "    return n + m", "end"]

def sampleScript (n : Nat) : String :=
  String.join (fixedPart.map (· ++ "\n"))
    ++ "\n".intercalate ((List.range n).map furtherFunction) ++ "\n"

/-! ## The directory of the tour -/

def addFile (t : Tree) (path : List String) (text : String) : Tree :=
  (t.makeWay [] path.dropLast).put path (.file (.bytes (Text.utf8 text.toList)))

def tourScript : String :=
  "function f(t)\n    table.insert(t, 1)\n    local veh = GetVehiclePedIsIn(p, false)\n    veh:go()\n    print('x')\n    if false then dead() end\n    glob = 1\nend\n"

def tourRoot : List String := ["base", "cli_resources"]

def tourScripts (n : Nat) : List (List String) :=
  ["res0", "res1"].flatMap fun r =>
    (List.range n).map fun j => tourRoot ++ [r, "client", "f" ++ toString j ++ ".lua"]

def renewScripts (n : Nat) (t : Tree) : Tree :=
  (tourScripts n).foldl (fun t p => addFile t p tourScript) t

def tourTree (n : Nat) : Tree :=
  let t := [["base", "badexcl.txt"], ["base", "empty"], ["base", "emptyd"]].foldl
    (fun t p => t.makeWay [] p) (.empty : Tree)
  let t := addFile t (tourRoot ++ ["res0", "fxmanifest.lua"]) "name 'x'\n"
  let t := addFile t (tourRoot ++ ["res1", "fxmanifest.lua"]) "name 'x'\n"
  let t := addFile t (tourRoot ++ ["res0", "client", "bad.lua"]) "function broken(\n"
  let t := addFile t ["base", "single.lua"] tourScript
  renewScripts n (addFile t ["base", "exclude.txt"] "# comment\nres1\n")

/-! ## The runs -/

structure Run where
  arguments : List String
  input : String := ""
  renewed : Bool := false
  noPools : Bool := false

def words (s : String) : List String := s.splitOn " "

def onResources (rest : String) : Run := { arguments := words ("base/cli_resources " ++ rest) }

def tour : List Run :=
  [onResources "-v --exclude base/exclude.txt --workers 1 --report base/rep.json",
   onResources "-q --exclude base/nofile.txt --workers 1",
   onResources "-q --exclude base/badexcl.txt --workers 1",
   { arguments := words "base/single.lua --direct -q --workers 1 --report base/rep.html" },
   onResources "--direct -v --workers 1 --report base/rep.txt",
   { arguments := ["/does/not/exist"] },
   { arguments := words "base/empty --workers 1" },
   { arguments := words "base/emptyd --direct --workers 1" },
   { arguments := [], input := "base/cli_resources\n" },
   { arguments := [], input := "\n" },
   onResources "--fix -v --single-thread --workers 1 --no-backup",
   { arguments := "base/cli_resources --direct --fix --fix-yellow --fix-debug --experimental --report base/r.txt"
       :: words "-q --no-first-time-auto-backup --single-thread --no-backup --workers 1" },
   { onResources "--fix --fix-yellow --fix-debug --fix-nil --remove-dead-code --experimental --backup --no-first-time-auto-backup --single-thread -v --workers 1" with
     renewed := true },
   onResources "--list-backups",
   onResources "--extract-debug base/dbg.zip --split 1 -v",
   onResources "--extract-debug base/dbg2 -v",
   onResources "--fix --backup --no-first-time-auto-backup --single-thread -v --workers 1",
   { onResources "--clean-backups" with input := "n\n" },
   { onResources "--revert" with input := "n\n" },
   { onResources "--clean-backups" with input := "y\n" },
   { onResources "--fix --backup --no-first-time-auto-backup --single-thread -q --workers 1" with
     renewed := true },
   { onResources "--revert -v" with input := "y\n" },
   onResources "--list-backups",
   onResources "--extract-debug",
   onResources "--backup-all-scripts base/all.zip -q --workers 1",
   onResources "--fix --no-first-time-auto-backup --no-backup -v --workers 2",
   { onResources "--fix --no-first-time-auto-backup --no-backup -v --workers 1" with
     renewed := true, noPools := true }]

structure RunResult where
  arguments : List String
  stop : Option Stop
  output : String

def Run.apply (n : Nat) (w : World) (r : Run) (t : Tree) : RunResult × Tree :=
  let w := { w with
    tree := if r.renewed then renewScripts n t else t
    input := r.input.toList
    output := ""
    prompts := false
    noPools := r.noPools }
  match (lint r.arguments).run w with
  | .ok _ w => (⟨r.arguments, none, w.output⟩, w.tree)
  | .error stop w => (⟨r.arguments, some stop, w.output⟩, w.tree)

def applyAll (n : Nat) (w : World) : List Run → Tree → List RunResult × Tree
  | [], t => ([], t)
  | r :: rs, t =>
    let (x, t) := r.apply n w t
    let (xs, t) := applyAll n w rs t
    (x :: xs, t)

def takeTour (n : Nat) (w : World) : List RunResult × Tree := applyAll n w tour (tourTree n)

end LuaTune.Workload
