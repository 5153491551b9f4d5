import LuaTune.Files.Tree

/-! # Resources -/

namespace LuaTune.Resources

open Text Files

/-!
## Manifests

A manifest is read line by line; of a field that is stated twice the last statement counts.
-/

def between? (quote : Char) (line : Chars) : Option Chars := do
  let first ← findChar? quote line
  let last ← findLastChar? quote line
  if first + 1 < last then some (slice line (first + 1) last) else none

def quotedValue (line : Chars) : Chars :=
  ((between? '\'' line).or (between? '"' line)).getD []

structure Info where
  name : String
  version : Option String := none
  author : Option String := none
  description : Option String := none
deriving DecidableEq, Repr

def Info.addLine (info : Info) (line : Chars) : Info :=
  let line := strip line
  let value := String.ofList (quotedValue line)
  if value.isEmpty then info
  else if startsWith line "name".toList then { info with name := value }
  else if startsWith line "version".toList then { info with version := some value }
  else if startsWith line "author".toList then { info with author := some value }
  else if startsWith line "description".toList then { info with description := some value }
  else info

def manifestOf (t : Tree) (resource : Path) : Path :=
  let newer := resource.child "fxmanifest.lua"
  if t.contains newer then newer else resource.child "__resource.lua"

def infoOf (t : Tree) (resource : Path) : Info :=
  match t.read (manifestOf t resource) with
  | .ok c => (lines (plainText c.toBytes)).foldl Info.addLine { name := resource.name }
  | .error _ => { name := resource.name }

/-!
## Finding scripts

A resource is a directory with a manifest. Its scripts are the Lua files in it and in the usual
directories below it, and all others that are not hidden.
-/

abbrev ScriptTable := List (String × List Path)

def isResource (t : Tree) (p : Path) : Bool :=
  t.contains (p.child "fxmanifest.lua") || t.contains (p.child "__resource.lua")

def resourceName (resource root : Path) : String :=
  match resource.relativeTo? root with
  | some rel => if 1 < rel.parts.length then "/".intercalate rel.parts else resource.name
  | none => resource.name

def usualDirectories : List String :=
  ["client", "server", "shared", "config", "locales", "lib", "modules"]

/-- Is the script hidden, or part of a package? The whole path counts, as it was given. -/
def isSkipped (p : Path) : Bool :=
  p.allParts.any fun n => n == "node_modules" || startsWith n.toList ['.']

def withUnhidden (usual all : List Path) : List Path :=
  Path.sort (usual ++ all.filter fun p => !usual.contains p && !isSkipped p)

def scriptsOf (t : Tree) (resource : Path) : List Path :=
  withUnhidden
    (t.endingWith resource ".lua"
      ++ usualDirectories.flatMap fun d => t.endingWith (resource.child d) ".lua")
    (t.allEndingWith resource ".lua")

def allScripts (t : Tree) (p : Path) : List Path := Path.sort (t.allEndingWith p ".lua")

def addResource (t : Tree) (root : Path) (table : ScriptTable) (manifest : Path) : ScriptTable :=
  let resource := manifest.parent
  let name := resourceName resource root
  if table.any fun e => e.1 == name then table
  else
    match scriptsOf t resource with
    | [] => table
    | scripts => table ++ [(name, scripts)]

/-- The resources at or below a path. Those with a manifest of the newer kind come first. -/
def discover (t : Tree) (root : Path) : ScriptTable :=
  if isResource t root then
    match scriptsOf t root with
    | [] => []
    | scripts => [(root.name, scripts)]
  else
    (t.allNamed root "fxmanifest.lua" ++ t.allNamed root "__resource.lua").foldl
      (addResource t root) []

def discoverDirect (t : Tree) (p : Path) : ScriptTable :=
  if t.isFile p then
    if p.suffix == ".lua" then [("(direct)", [p])] else []
  else
    match withUnhidden (t.endingWith p ".lua") (t.allEndingWith p ".lua") with
    | [] => []
    | scripts => [("(direct)", scripts)]

/-! ### Scripts of the older layout -/

structure OldScript where
  mod : String
  path : Path
  relative : Path

def oldScriptsIn (t : Tree) (root mod : Path) : List OldScript :=
  (t.allEndingWith ((mod.child "gamedata").child "scripts") ".script").map fun p =>
    ⟨mod.name, p, (p.relativeTo? root).getD p⟩

def oldScripts (t : Tree) (root : Path) : Except FileError (List OldScript) :=
  match t.stat root with
  | .ok .directory =>
    .ok (((t.children root).filter t.isDirectory).flatMap (oldScriptsIn t root))
  | .ok (.file _) => .error ⟨.notDirectory, root.text⟩
  | .error o => .error ⟨o, root.text⟩

end LuaTune.Resources
