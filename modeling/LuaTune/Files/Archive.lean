import LuaTune.Grouping
import LuaTune.Text.Bytes

/-! # Paths and archives -/

namespace LuaTune.Files

open Text

/-!
## Paths

A path is a list of names, counted from the current directory or from the root. Empty names and
single dots are dropped when a path is read; double dots stay.
-/

structure Path where
  rooted : Bool := false
  parts : List String
deriving DecidableEq, Repr, Inhabited

namespace Path

def partsOf (s : Chars) : List String :=
  ((splitOn '/' s).filter fun p => !(p.isEmpty || p == ['.'])).map String.ofList

def ofChars (s : Chars) : Path := ⟨s.head? == some '/', partsOf s⟩

def ofString (s : String) : Path := ofChars s.toList

def text (p : Path) : String :=
  let names := "/".intercalate p.parts
  if p.rooted then "/" ++ names else if p.parts.isEmpty then "." else names

def name (p : Path) : String := p.parts.getLastD ""

def parent (p : Path) : Path := { p with parts := p.parts.dropLast }

def child (p : Path) (name : String) : Path := { p with parts := p.parts ++ [name] }

def join (p q : Path) : Path := if q.rooted then q else { p with parts := p.parts ++ q.parts }

/-- The offset of the dot before the ending of a name. A name neither starts with that dot nor ends
with it. -/
def endingStart? (name : Chars) : Option Nat :=
  match findLastChar? '.' name with
  | some n => if 0 < n ∧ n + 1 < name.length then some n else none
  | none => none

def suffix (p : Path) : String :=
  match endingStart? p.name.toList with
  | some n => String.ofList (p.name.toList.drop n)
  | none => ""

def stem (p : Path) : String :=
  match endingStart? p.name.toList with
  | some n => String.ofList (p.name.toList.take n)
  | none => p.name

def withSuffix (p : Path) (s : String) : Path := p.parent.child (p.stem ++ s)

def appendToName (p : Path) (s : String) : Path := p.parent.child (p.name ++ s)

/-- A path as seen from one that it starts with. -/
def relativeTo? (p base : Path) : Option Path :=
  if p.rooted == base.rooted && base.parts.isPrefixOf p.parts then
    some ⟨false, p.parts.drop base.parts.length⟩
  else none

def allParts (p : Path) : List String := if p.rooted then "/" :: p.parts else p.parts

def partsPrecede : List String → List String → Bool
  | [], _ => true
  | _ :: _, [] => false
  | a :: as, b :: bs => a < b || (a == b && partsPrecede as bs)

def sort (ps : List Path) : List Path := sortBy (fun a b => partsPrecede a.allParts b.allParts) ps

end Path

/-!
## Archives

Files under names of their own, in the order of adding. A directory is an entry whose name ends with
a slash.
-/

structure ArchiveEntry where
  name : String
  content : Bytes
deriving DecidableEq, Repr

abbrev Archive := List ArchiveEntry

/-- Drop the name before each double dot; those at the start stay. -/
def foldParents (done : List String) : List String → List String
  | [] => done.reverse
  | ".." :: ps =>
    match done with
    | [] => foldParents [".."] ps
    | ".." :: _ => foldParents (".." :: done) ps
    | _ :: rest => foldParents rest ps
  | p :: ps => foldParents (p :: done) ps

/-- A name as an archive keeps it. -/
def entryName (s : String) : String :=
  match foldParents [] (Path.partsOf s.toList) with
  | [] => "."
  | ps => "/".intercalate ps

def ArchiveEntry.nameSize (e : ArchiveEntry) : Nat := (utf8 e.name.toList).length

end LuaTune.Files

namespace LuaTune.Files.Deflate

open Text

/-!
## Prefix codes

The two rarest trees are joined until one is left; among equally rare ones the flatter comes first,
and then the one that stands nearer to the top of a binary heap. Lengths are bounded.
-/

inductive CodeTree where
  | leaf (symbol : Nat)
  | node (left right : CodeTree)

structure Weighted where
  weight : Nat
  height : Nat
  tree : CodeTree

instance : Inhabited Weighted := ⟨⟨0, 0, .leaf 0⟩⟩

def Weighted.precedes (a b : Weighted) : Bool :=
  a.weight < b.weight || (a.weight == b.weight && a.height ≤ b.height)

def Weighted.join (a b : Weighted) : Weighted :=
  ⟨a.weight + b.weight, max a.height b.height + 1, .node a.tree b.tree⟩

/-! ### The heap -/

def sink (v : Weighted) : Nat → Array Weighted → Nat → Array Weighted
  | 0, heap, _ => heap
  | fuel + 1, heap, k =>
    let child := 2 * k
    if heap.size < child then heap.setIfInBounds (k - 1) v
    else
      let at_ (i : Nat) : Weighted := heap.getD (i - 1) default
      let child := if child < heap.size && (at_ (child + 1)).precedes (at_ child) then child + 1
        else child
      if v.precedes (at_ child) then heap.setIfInBounds (k - 1) v
      else sink v fuel (heap.setIfInBounds (k - 1) (at_ child)) child

def sinkFrom (heap : Array Weighted) (k : Nat) : Array Weighted :=
  sink (heap.getD (k - 1) default) (heap.size + 1) heap k

def heapOf (xs : List Weighted) : Array Weighted :=
  let a := xs.toArray
  (List.range (a.size / 2)).reverse.foldl (fun h k => sinkFrom h (k + 1)) a

def dropFirst (heap : Array Weighted) : Array Weighted :=
  match heap.back? with
  | none => heap
  | some last => sinkFrom (heap.pop.setIfInBounds 0 last) 1

def joinAll : Nat → Array Weighted → List CodeTree × Option CodeTree
  | 0, heap => ([], heap[0]?.map (·.tree))
  | fuel + 1, heap =>
    match heap[0]?, (dropFirst heap)[0]? with
    | some a, some b =>
      let rest := (dropFirst heap).setIfInBounds 0 (a.join b)
      let (order, root) := joinAll fuel (sinkFrom rest 1)
      (a.tree :: b.tree :: order, root)
    | first, _ => ([], first.map (·.tree))

/-! ### Lengths -/

def lengthsBelow (bound : Nat) : Nat → CodeTree → List (Nat × Nat) × Nat
  | depth, .leaf s => ([(s, min depth bound)], if bound < depth then 1 else 0)
  | depth, .node l r =>
    let here := min depth bound
    let (a, m) := lengthsBelow bound (here + 1) l
    let (b, n) := lengthsBelow bound (here + 1) r
    (a ++ b, m + n + if bound < depth then 1 else 0)

def relieve (bound : Nat) : Nat → Nat → Array Nat → Array Nat
  | 0, _, counts => counts
  | fuel + 1, excess, counts =>
    if excess = 0 then counts
    else
      let used := (List.range bound).filter fun b => 0 < b && 0 < counts.getD b 0
      match used.getLast? with
      | none => counts
      | some b =>
        let add (i : Nat) (d : Int) (c : Array Nat) : Array Nat :=
          c.setIfInBounds i ((c.getD i 0 : Int) + d).toNat
        relieve bound fuel (excess - 2) (add bound (-1) (add (b + 1) 2 (add b (-1) counts)))

def assignLengths (counts : Array Nat) : Nat → List Nat → List (Nat × Nat)
  | 0, _ => []
  | length + 1, symbols =>
    let n := counts.getD (length + 1) 0
    (symbols.take n).map (·, length + 1) ++ assignLengths counts length (symbols.drop n)

def leaf? : CodeTree → Option Nat
  | .leaf s => some s
  | .node .. => none

def forcedSymbols (used : List Nat) : List Nat :=
  match used with
  | [] => [0, 1]
  | [s] => if s < 2 then [s + 1] else [0]
  | _ => []

def codeLengths (bound : Nat) (counts : List Nat) : List Nat :=
  let used := (counts.zipIdx.filter fun c => 0 < c.1).map fun c => (c.2, c.1)
  let forced := (forcedSymbols (used.map (·.1))).map (·, 1)
  let heap := heapOf ((used ++ forced).map fun u => ⟨u.2, 0, .leaf u.1⟩)
  let (order, root) := joinAll heap.size heap
  let (lengths, excess) := match root with
    | some (.node l r) =>
      let (a, m) := lengthsBelow bound 1 l
      let (b, n) := lengthsBelow bound 1 r
      (a ++ b, m + n)
    | _ => ([], 0)
  let lengths := if excess = 0 then lengths
    else
      let tally := lengths.foldl (fun c l => c.setIfInBounds l.2 (c.getD l.2 0 + 1))
        (Array.replicate (bound + 1) 0)
      assignLengths (relieve bound excess excess tally) bound (order.filterMap leaf?)
  let size := max counts.length ((lengths.map fun l => l.1 + 1).foldl max 0)
  (lengths.foldl (fun a l => a.setIfInBounds l.1 l.2) (Array.replicate size 0)).toList

/-! ### Codes -/

abbrev Bits := List Bool

def bitsOf : Nat → Nat → Bits
  | 0, _ => []
  | n + 1, x => (x % 2 == 1) :: bitsOf n (x / 2)

def firstCodes (lengths : List Nat) : Nat → Nat
  | 0 => 0
  | n + 1 => 2 * (firstCodes lengths n + if n = 0 then 0 else lengths.count n)

def codes (lengths : List Nat) : Array Bits :=
  let starts := ((List.range 16).map (firstCodes lengths)).toArray
  let step (acc : Array Nat × Array Bits) (n : Nat) : Array Nat × Array Bits :=
    if n = 0 then (acc.1, acc.2.push [])
    else
      let c := acc.1.getD n 0
      (acc.1.setIfInBounds n (c + 1), acc.2.push (bitsOf n c).reverse)
  (lengths.foldl step (starts, #[])).2

/-!
## Repetitions in bytes

At each place the longest earlier match among the latest candidates is looked for; it is taken
unless the match at the next place is longer.
-/

inductive Symbol where
  | literal (b : UInt8)
  | copy (length distance : Nat)
deriving DecidableEq, Repr

structure Effort where
  /-- From this length on only a quarter of the candidates is tried. -/
  good : Nat
  /-- From this length on the next place is not tried. -/
  lazy : Nat
  /-- From this length on the search ends. -/
  nice : Nat
  chain : Nat

def effort : Effort := ⟨8, 16, 128, 128⟩

def minMatch : Nat := 3

def maxMatch : Nat := 258

def maxDistance : Nat := 32768 - 262

def farAway : Nat := 4096

def byteAt (data : Array UInt8) (i : Nat) : Nat := (data.getD i 0).toNat

def keyAt (data : Array UInt8) (i : Nat) : Nat :=
  ((byteAt data i * 1024) ^^^ (byteAt data (i + 1) * 32) ^^^ byteAt data (i + 2)) % 32768

abbrev Places := Array (List (Nat × Nat))

def bucketCount : Nat := 512

def noPlaces : Places := Array.replicate bucketCount []

def candidates (ps : Places) (key : Nat) : List Nat :=
  ((ps.getD (key % bucketCount) []).filter fun e => e.1 == key).map (·.2)

def enter (data : Array UInt8) (ps : Places) (i : Nat) : Places :=
  if data.size < i + minMatch then ps
  else
    let key := keyAt data i
    ps.setIfInBounds (key % bucketCount) ((key, i) :: ps.getD (key % bucketCount) [])

def matchLength (data : Array UInt8) (a b : Nat) : Nat → Nat
  | 0 => 0
  | n + 1 => if byteAt data a = byteAt data b then 1 + matchLength data (a + 1) (b + 1) n else 0

structure Match where
  length : Nat
  start : Nat

def longestMatch (data : Array UInt8) (i room : Nat) (best : Match) :
    Nat → List Nat → Match
  | 0, _ | _, [] => best
  | chain + 1, c :: cs =>
    if c = 0 ∨ c + maxDistance < i then best
    else
      let n := matchLength data c i (min maxMatch room)
      if best.length < n then
        if min effort.nice room ≤ n then ⟨n, c⟩
        else longestMatch data i room ⟨n, c⟩ chain cs
      else longestMatch data i room best chain cs

def matchAt (data : Array UInt8) (ps : Places) (i : Nat) (before : Match) : Match :=
  let none : Match := ⟨minMatch - 1, 0⟩
  let room := data.size - i
  if room < minMatch ∨ effort.lazy ≤ before.length then none
  else
    let chain := if effort.good ≤ before.length then effort.chain / 4 else effort.chain
    let m := longestMatch data i room ⟨before.length, 0⟩ chain (candidates ps (keyAt data i))
    if m.length ≤ before.length ∧ minMatch ≤ before.length then none
    else if m.length = minMatch ∧ farAway < i - m.start then none
    else m

def enterAll (data : Array UInt8) (ps : Places) (i : Nat) : Nat → Places
  | 0 => ps
  | n + 1 => enterAll data (enter data ps i) (i + 1) n

def symbolsFrom (data : Array UInt8) : Nat → Places → Nat → Match → Bool → List Symbol
  | 0, _, _, _, _ => []
  | fuel + 1, ps, i, before, pending =>
    if data.size ≤ i then if pending then [.literal (data.getD (i - 1) 0)] else []
    else
      let m := matchAt data ps i before
      let ps := enter data ps i
      if minMatch ≤ before.length ∧ m.length ≤ before.length then
        let next := i + before.length - 1
        .copy before.length (i - 1 - before.start) ::
          symbolsFrom data fuel (enterAll data ps (i + 1) (before.length - 2)) next
            ⟨minMatch - 1, 0⟩ false
      else if pending then
        .literal (data.getD (i - 1) 0) :: symbolsFrom data fuel ps (i + 1) m true
      else symbolsFrom data fuel ps (i + 1) m true

def symbols (bs : Bytes) : List Symbol :=
  symbolsFrom bs.toArray (bs.length + 1) noPlaces 0 ⟨minMatch - 1, 0⟩ false

/-!
## Compressed bytes

Each block takes the shortest of three forms: with codes of its own, with fixed codes, or as it is.
-/

/-! ### Codes for lengths and distances -/

def lengthTable : List (Nat × Nat) :=
  [(3, 0), (4, 0), (5, 0), (6, 0), (7, 0), (8, 0), (9, 0), (10, 0), (11, 1), (13, 1), (15, 1),
   (17, 1), (19, 2), (23, 2), (27, 2), (31, 2), (35, 3), (43, 3), (51, 3), (59, 3), (67, 4),
   (83, 4), (99, 4), (115, 4), (131, 5), (163, 5), (195, 5), (227, 5), (258, 0)]

def distanceTable : List (Nat × Nat) :=
  [(1, 0), (2, 0), (3, 0), (4, 0), (5, 1), (7, 1), (9, 2), (13, 2), (17, 3), (25, 3), (33, 4),
   (49, 4), (65, 5), (97, 5), (129, 6), (193, 6), (257, 7), (385, 7), (513, 8), (769, 8),
   (1025, 9), (1537, 9), (2049, 10), (3073, 10), (4097, 11), (6145, 11), (8193, 12), (12289, 12),
   (16385, 13), (24577, 13)]

structure Coded where
  code : Nat
  extra : Bits

def codedIn (table : List (Nat × Nat)) (x : Nat) : Coded :=
  let code := (table.takeWhile fun e => e.1 ≤ x).length - 1
  let (start, n) := table.getD code (0, 0)
  ⟨code, bitsOf n (x - start)⟩

def codedLength (n : Nat) : Coded :=
  let c := codedIn lengthTable n
  { c with code := 257 + c.code }

def codedDistance (n : Nat) : Coded := codedIn distanceTable n

def endOfBlock : Nat := 256

def occurrences (ss : List Symbol) : List Nat × List Nat :=
  let add (a : Array Nat) (i : Nat) : Array Nat := a.setIfInBounds i (a.getD i 0 + 1)
  let step (acc : Array Nat × Array Nat) (s : Symbol) : Array Nat × Array Nat :=
    match s with
    | .literal b => (add acc.1 b.toNat, acc.2)
    | .copy n d => (add acc.1 (codedLength n).code, add acc.2 (codedDistance d).code)
  let (a, b) := ss.foldl step (Array.replicate 286 0, Array.replicate 30 0)
  ((add a endOfBlock).toList, b.toList)

def body (literals distances : Array Bits) (ss : List Symbol) : Bits :=
  let one (s : Symbol) : Bits :=
    match s with
    | .literal b => literals.getD b.toNat []
    | .copy n d =>
      let l := codedLength n
      let k := codedDistance d
      literals.getD l.code [] ++ l.extra ++ distances.getD k.code [] ++ k.extra
  ss.flatMap one ++ literals.getD endOfBlock []

/-! ### Fixed codes -/

def fixedLiteralLengths : List Nat :=
  List.replicate 144 8 ++ List.replicate 112 9 ++ List.replicate 24 7 ++ List.replicate 8 8

def fixedBody (ss : List Symbol) : Bits :=
  body (codes fixedLiteralLengths) (codes (List.replicate 30 5)) ss

/-! ### Codes of its own -/

def trimZeros (ns : List Nat) : List Nat := (ns.reverse.dropWhile (· == 0)).reverse

def runsOf : List Nat → List (Nat × Nat)
  | [] => []
  | n :: ns =>
    match runsOf ns with
    | (m, k) :: rs => if m = n then (n, k + 1) :: rs else (n, 1) :: (m, k) :: rs
    | [] => [(n, 1)]

def zeroRun : Nat → Nat → List Coded
  | 0, _ => []
  | fuel + 1, n =>
    if n < 3 then List.replicate n ⟨0, []⟩
    else if n ≤ 10 then [⟨17, bitsOf 3 (n - 3)⟩]
    else
      let k := min n 138
      ⟨18, bitsOf 7 (k - 11)⟩ :: zeroRun fuel (n - k)

def repeatRun (length : Nat) : Nat → Nat → List Coded
  | 0, _ => []
  | fuel + 1, n =>
    if n < 3 then List.replicate n ⟨length, []⟩
    else
      let k := min n 6
      ⟨16, bitsOf 2 (k - 3)⟩ :: repeatRun length fuel (n - k)

def codedLengths (ns : List Nat) : List Coded :=
  (runsOf ns).flatMap fun r =>
    if r.1 = 0 then zeroRun r.2 r.2 else ⟨r.1, []⟩ :: repeatRun r.1 r.2 (r.2 - 1)

def lengthOrder : List Nat := [16, 17, 18, 0, 8, 7, 9, 6, 10, 5, 11, 4, 12, 3, 13, 2, 14, 1, 15]

def ownBody (ss : List Symbol) : Bits :=
  let (literalCounts, distanceCounts) := occurrences ss
  let literals := trimZeros (codeLengths 15 literalCounts)
  let distances := trimZeros (codeLengths 15 distanceCounts)
  let coded := codedLengths literals ++ codedLengths distances
  let counts := (List.range 19).map fun i => coded.countP fun c => c.code == i
  let lengths := codeLengths 7 counts
  let written := lengthOrder.map fun i => lengths.getD i 0
  let written := written.take (max 4 (trimZeros written).length)
  let lengthCodes := codes lengths
  bitsOf 5 (literals.length - 257) ++ bitsOf 5 (distances.length - 1) ++ bitsOf 4 (written.length - 4)
    ++ written.flatMap (bitsOf 3)
    ++ coded.flatMap (fun c => lengthCodes.getD c.code [] ++ c.extra)
    ++ body (codes literals) (codes distances) ss

/-! ### Blocks -/

def blockSize : Nat := 16383

def spanned (ss : List Symbol) : Nat :=
  sumOf (ss.map fun s => match s with
    | .literal _ => 1
    | .copy n _ => n)

def padding (n : Nat) : Bits := List.replicate ((8 - n % 8) % 8) false

def byteCount (n : Nat) : Nat := (n + 7) / 8

def storedBlock (last : Bool) (before : Nat) (bs : Bytes) : Bits :=
  [last, false, false] ++ padding (before + 3) ++ bitsOf 16 bs.length
    ++ bitsOf 16 (65535 - bs.length) ++ bs.flatMap fun b => bitsOf 8 b.toNat

/-- A block of symbols in its shortest form. Its own codes must be shorter than the fixed ones, and
the bytes themselves shorter than both. -/
def block (last : Bool) (before : Nat) (bs : Bytes) (ss : List Symbol) : Bits :=
  let own := ownBody ss
  let fixed := fixedBody ss
  let best := min (byteCount (own.length + 3)) (byteCount (fixed.length + 3))
  if bs.length + 4 ≤ best then storedBlock last before bs
  else if byteCount (fixed.length + 3) ≤ byteCount (own.length + 3) then
    [last, true, false] ++ fixed
  else [last, false, true] ++ own

def blocks : Nat → Nat → Bytes → List Symbol → Bits
  | 0, _, _, _ => []
  | fuel + 1, before, bs, ss =>
    if ss.length < blockSize then block true before bs ss
    else
      let now := ss.take blockSize
      let n := spanned now
      let bits := block false before (bs.take n) now
      bits ++ blocks fuel (before + bits.length) (bs.drop n) (ss.drop blockSize)

def packed : Nat → Bits → Bytes
  | 0, _ => []
  | fuel + 1, bits =>
    if bits.isEmpty then []
    else
      let byte := (bits.take 8).foldr (fun b n => 2 * n + if b then 1 else 0) 0
      UInt8.ofNat byte :: packed fuel (bits.drop 8)

def deflate (bs : Bytes) : Bytes :=
  let ss := symbols bs
  let bits := blocks (ss.length / blockSize + 1) 0 bs ss
  packed (byteCount bits.length) bits

end LuaTune.Files.Deflate

namespace LuaTune.Files

open Text

/-!
## Archives as bytes

The zip format.
-/

def checkBit (x : UInt32) : UInt32 :=
  if x &&& 1 == 1 then (x >>> 1) ^^^ 0xedb88320 else x >>> 1

def checkByte (x : UInt32) (b : UInt8) : UInt32 :=
  Nat.repeat checkBit 8 (x ^^^ b.toUInt32)

def checkSum (bs : Bytes) : UInt32 := bs.foldl checkByte 0xffffffff ^^^ 0xffffffff

def littleEndian : Nat → Nat → Bytes
  | 0, _ => []
  | n + 1, x => UInt8.ofNat (x % 256) :: littleEndian n (x / 256)

namespace ArchiveEntry

def isDirectory (e : ArchiveEntry) : Bool := endsWith e.name.toList ['/']

def packed (e : ArchiveEntry) : Bytes :=
  if e.isDirectory then e.content else Deflate.deflate e.content

def headerFields (e : ArchiveEntry) : Bytes :=
  littleEndian 2 20 ++ littleEndian 2 0x800 ++ littleEndian 2 (if e.isDirectory then 0 else 8)
    ++ littleEndian 4 0x50220000 ++ littleEndian 4 (checkSum e.content).toNat
    ++ littleEndian 4 e.packed.length ++ littleEndian 4 e.content.length
    ++ littleEndian 2 e.nameSize ++ littleEndian 2 0

def encoded (e : ArchiveEntry) : Bytes :=
  littleEndian 4 0x04034b50 ++ e.headerFields ++ utf8 e.name.toList ++ e.packed

def central (e : ArchiveEntry) (offset : Nat) : Bytes :=
  littleEndian 4 0x02014b50 ++ littleEndian 2 20 ++ e.headerFields ++ littleEndian 2 0
    ++ littleEndian 2 0 ++ littleEndian 2 0 ++ littleEndian 4 0 ++ littleEndian 4 offset
    ++ utf8 e.name.toList

end ArchiveEntry

namespace Archive

def centralFrom (offset : Nat) : Archive → Bytes
  | [] => []
  | e :: es => e.central offset ++ centralFrom (offset + e.encoded.length) es

def encode (a : Archive) : Bytes :=
  let data := a.flatMap ArchiveEntry.encoded
  let directory := centralFrom 0 a
  data ++ directory ++ littleEndian 4 0x06054b50 ++ littleEndian 2 0 ++ littleEndian 2 0
    ++ littleEndian 2 a.length ++ littleEndian 2 a.length ++ littleEndian 4 directory.length
    ++ littleEndian 4 data.length ++ littleEndian 2 0

end Archive

end LuaTune.Files
