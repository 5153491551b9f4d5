import LuaTune.Files.Archive

/-! # The tree of files -/

namespace LuaTune.Files

open Text

/-!
## File trees

Directories and files by their places. The current directory and the root are always there.
-/

inductive Content where
  | bytes (bs : Bytes)
  | archive (a : Archive)
deriving DecidableEq, Repr

def Content.toBytes : Content → Bytes
  | .bytes bs => bs
  | .archive a => a.encode

inductive Entry where
  | directory
  | file (content : Content)
deriving DecidableEq, Repr

inductive Obstacle where
  | notFound
  | fileExists
  | notDirectory
  | isDirectory
deriving DecidableEq, Repr

structure FileError where
  obstacle : Obstacle
  path : String
deriving DecidableEq, Repr

def Obstacle.code : Obstacle → Nat
  | .notFound => 2
  | .fileExists => 17
  | .notDirectory => 20
  | .isDirectory => 21

def Obstacle.text : Obstacle → String
  | .notFound => "No such file or directory"
  | .fileExists => "File exists"
  | .notDirectory => "Not a directory"
  | .isDirectory => "Is a directory"

def FileError.message (e : FileError) : String :=
  "[Errno " ++ toString e.obstacle.code ++ "] " ++ e.obstacle.text ++ ": "
    ++ String.ofList (quoted e.path.toList)

/-- The names on the way to an entry; that of the root is a slash. -/
abbrev Location := List String

structure Tree where
  entries : List (Location × Entry)
deriving DecidableEq, Repr

namespace Tree

def empty : Tree := ⟨[]⟩

def entry? (t : Tree) (l : Location) : Option Entry :=
  if l = [] ∨ l = ["/"] then some .directory else getKey? l t.entries

def put (t : Tree) (l : Location) (e : Entry) : Tree := ⟨setKey l e t.entries⟩

def erase (t : Tree) (l : Location) : Tree := ⟨t.entries.filter fun e => e.1 != l⟩

/-- Follow names from a place. All places on the way must be directories; the last may be free. -/
def follow (t : Tree) (here : Location) : List String → Except Obstacle Location
  | [] => .ok here
  | p :: ps =>
    match t.entry? here with
    | none => .error .notFound
    | some (.file _) => .error .notDirectory
    | some .directory =>
      if p = ".." then
        if here.isEmpty then .error .notFound else t.follow here.dropLast ps
      else t.follow (here ++ [p]) ps

/-- The place that a path leads to. -/
def locate (t : Tree) (p : Path) : Except Obstacle Location :=
  t.follow (if p.rooted then ["/"] else []) p.parts

def stat (t : Tree) (p : Path) : Except Obstacle Entry := do
  let l ← t.locate p
  match t.entry? l with
  | some e => return e
  | none => throw .notFound

def contains (t : Tree) (p : Path) : Bool :=
  match t.stat p with
  | .ok _ => true
  | .error _ => false

def isDirectory (t : Tree) (p : Path) : Bool :=
  match t.stat p with
  | .ok .directory => true
  | _ => false

def isFile (t : Tree) (p : Path) : Bool :=
  match t.stat p with
  | .ok (.file _) => true
  | _ => false

def read (t : Tree) (p : Path) : Except FileError Content :=
  match t.stat p with
  | .ok (.file c) => .ok c
  | .ok .directory => .error ⟨.isDirectory, p.text⟩
  | .error o => .error ⟨o, p.text⟩

def write (t : Tree) (p : Path) (c : Content) : Except FileError Tree :=
  match t.locate p with
  | .error o => .error ⟨o, p.text⟩
  | .ok l =>
    match t.entry? l with
    | some .directory => .error ⟨.isDirectory, p.text⟩
    | _ => .ok (t.put l (.file c))

def remove (t : Tree) (p : Path) : Except FileError Tree :=
  match t.locate p with
  | .error o => .error ⟨o, p.text⟩
  | .ok l =>
    match t.entry? l with
    | none => .error ⟨.notFound, p.text⟩
    | some .directory => .error ⟨.isDirectory, p.text⟩
    | some (.file _) => .ok (t.erase l)

/-- Copy a file, into the target if that is a directory. -/
def copy (t : Tree) (source target : Path) : Except FileError Tree := do
  let target := if t.isDirectory target then target.child source.name else target
  let c ← t.read source
  t.write target c

/-- Put the directories that are missing on a way. -/
def makeWay (t : Tree) (here : Location) : List String → Tree
  | [] => t
  | p :: ps =>
    let here := here ++ [p]
    let t := if (t.entry? here).isSome then t else t.put here .directory
    t.makeWay here ps

def makeDirectories (t : Tree) (p : Path) : Except FileError Tree :=
  match t.stat p with
  | .ok .directory => .ok t
  | .ok (.file _) => .error ⟨.fileExists, p.text⟩
  | .error .notFound => .ok (t.makeWay (if p.rooted then ["/"] else []) p.parts)
  | .error o => .error ⟨o, p.text⟩

/-! ### Listings -/

/-- The name of an entry right below a place. -/
def nameBelow? (l : Location) (e : Location × Entry) : Option String :=
  if e.1.dropLast = l ∧ e.1 ≠ [] then e.1.getLast? else none

def names (t : Tree) (p : Path) : List String :=
  match t.locate p with
  | .ok l => sortNames (t.entries.filterMap (nameBelow? l))
  | .error _ => []

def children (t : Tree) (p : Path) : List Path := (t.names p).map p.child

def directoriesFrom (t : Tree) : Nat → Path → List Path
  | 0, _ => []
  | depth + 1, p =>
    p :: ((t.children p).filter t.isDirectory).flatMap (t.directoriesFrom depth)

/-- A directory and all below it, each before what is in it. -/
def directories (t : Tree) (p : Path) : List Path :=
  if t.isDirectory p then t.directoriesFrom (t.entries.length + 1) p else []

def endingWith (t : Tree) (p : Path) (ending : String) : List Path :=
  if t.isDirectory p then
    (t.children p).filter fun c => Text.endsWith c.name.toList ending.toList
  else []

def allEndingWith (t : Tree) (p : Path) (ending : String) : List Path :=
  (t.directories p).flatMap fun d => t.endingWith d ending

def allNamed (t : Tree) (p : Path) (name : String) : List Path :=
  ((t.directories p).map fun d => d.child name).filter t.contains

end Tree

/-!
## Names with wildcards

In a pattern `*` stands for any text, `?` for one character and `[…]` for one of some characters. A
bracket that is not closed stands for itself.
-/

inductive Wildcard where
  | char (c : Char)
  | anyText
  | anyChar
  | oneOf (negated : Bool) (ranges : List (Char × Char))
deriving DecidableEq, Repr

def classRanges : Chars → List (Char × Char)
  | [] => []
  | a :: '-' :: b :: cs => (a, b) :: classRanges cs
  | c :: cs => (c, c) :: classRanges cs

def classOf (cs : Chars) : Wildcard :=
  match cs with
  | '!' :: cs => .oneOf true (classRanges cs)
  | cs => .oneOf false (classRanges cs)

/-- The number of characters up to the closing bracket. The first character, and the one after a
first exclamation mark, do not close. -/
def classLength? (cs : Chars) : Option Nat :=
  let skipped := match cs with
    | '!' :: ']' :: _ => 2
    | '!' :: _ => 1
    | ']' :: _ => 1
    | _ => 0
  (findChar? ']' (cs.drop skipped)).map (· + skipped)

def wildcardsFrom : Nat → Chars → List Wildcard
  | _, [] => []
  | skip + 1, _ :: cs => wildcardsFrom skip cs
  | 0, '*' :: cs => .anyText :: wildcardsFrom 0 cs
  | 0, '?' :: cs => .anyChar :: wildcardsFrom 0 cs
  | 0, '[' :: cs =>
    match classLength? cs with
    | some n => classOf (cs.take n) :: wildcardsFrom (n + 1) cs
    | none => .char '[' :: wildcardsFrom 0 cs
  | 0, c :: cs => .char c :: wildcardsFrom 0 cs

def wildcards (pattern : String) : List Wildcard := wildcardsFrom 0 pattern.toList

def Wildcard.accepts (w : Wildcard) (c : Char) : Bool :=
  match w with
  | .char d => c == d
  | .anyText | .anyChar => true
  | .oneOf negated ranges => (ranges.any fun r => r.1 ≤ c && c ≤ r.2) != negated

def someTail (p : Chars → Bool) : Chars → Bool
  | [] => p []
  | c :: cs => p (c :: cs) || someTail p cs

def matchesAll : List Wildcard → Chars → Bool
  | [], cs => cs.isEmpty
  | .anyText :: ws, cs => someTail (matchesAll ws) cs
  | w :: ws, cs =>
    match cs with
    | c :: cs => w.accepts c && matchesAll ws cs
    | [] => false

def hasWildcards (part : String) : Bool :=
  part.toList.any fun c => c == '*' || c == '?' || c == '['

/-- What in a directory matches a part of a pattern. Hidden names must be asked for. -/
def matching (t : Tree) (part : String) (p : Path) : List Path :=
  if hasWildcards part then
    (if t.isDirectory p then t.children p else []).filter fun c =>
      matchesAll (wildcards part) c.name.toList
        && (part.toList.head? == some '.' || c.name.toList.head? != some '.')
  else [p.child part].filter t.contains

/-- The paths that match a pattern, name by name. -/
def glob (t : Tree) (pattern : Path) : List Path :=
  pattern.parts.foldl (fun ps part => ps.flatMap (matching t part)) [⟨pattern.rooted, []⟩]

end LuaTune.Files
