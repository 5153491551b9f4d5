import LuaTune.Files.Archive
import LuaTune.Finding.Basic
import LuaTune.Json.Value

/-! # The report -/

namespace LuaTune

open Files

/-!
## Details in reports

A list or a record inside another value is shown with brackets, and texts inside it are quoted.
-/

mutual

def Detail.inner : Detail → String
  | .none => "None"
  | .bool b => if b then "True" else "False"
  | .int n => toString n
  | .float x => x.text
  | .notANumber => "nan"
  | .text s => String.ofList (Text.quoted s.toList)
  | .list ds => "[" ++ ", ".intercalate (innerList ds) ++ "]"
  | .record es => "\x7b" ++ ", ".intercalate (innerEntries es) ++ "\x7d"
  | .node n => n.text
  | .calls cs => "[" ++ ", ".intercalate (cs.map fun c => c.fullName) ++ "]"
  | .callsByName gs => "\x7b" ++ ", ".intercalate (gs.map fun g => g.1) ++ "\x7d"
  | .scope _ s => s.name
  | .foreign s => s

def innerList : List Detail → List String
  | [] => []
  | d :: ds => d.inner :: innerList ds

def innerEntries : List (String × Detail) → List String
  | [] => []
  | (k, d) :: es => (String.ofList (Text.quoted k.toList) ++ ": " ++ d.inner) :: innerEntries es

end

namespace Detail

def shown : Detail → String
  | .text s => s
  | d => d.inner

def kindName : Detail → String
  | .none => "NoneType"
  | .bool _ => "bool"
  | .int _ => "int"
  | .float _ | .notANumber => "float"
  | .text _ => "str"
  | .list _ | .calls _ => "list"
  | .record _ | .callsByName _ => "dict"
  | .node _ => "Node"
  | .scope _ _ => "Scope"
  | .foreign _ => "object"

def isScalar : Detail → Bool
  | .none | .bool _ | .int _ | .float _ | .notANumber | .text _ => true
  | _ => false

def scalarOrText (d : Detail) : Detail := if d.isScalar then d else .text d.shown

def isReference : Detail → Bool
  | .node _ | .calls _ | .callsByName _ | .scope _ _ => true
  | _ => false

end Detail

namespace Details

def hiddenKeys : List String := ["node", "nodes", "ast_node", "call_node"]

def unreferenced (ds : Details) : Details := ds.filter fun d => !d.2.isReference

end Details

/-! ### Details in saved reports

A saved report leaves the syntax tree out. Its lists are flat. -/

def Details.visible (ds : Details) : Details := ds.filter fun d => !hiddenKeys.contains d.1

def Detail.names (cs : List Analysis.Call) : Detail := .list (cs.map fun c => .text c.fullName)

mutual

def Detail.sanitized : Detail → Detail
  | .list ds => .list (ds.map Detail.scalarOrText)
  | .calls cs => .names cs
  | .record es => .record (Details.visible (sanitizedEntries es))
  | .callsByName gs => .record (Details.visible (gs.map fun g => (g.1, .names g.2)))
  | d => d.scalarOrText

def sanitizedEntries : List (String × Detail) → List (String × Detail)
  | [] => []
  | (k, d) :: es => (k, d.sanitized) :: sanitizedEntries es

end

def Details.sanitized (ds : Details) : Details := Details.visible (sanitizedEntries ds)

mutual

def Detail.value : Detail → Json.Value
  | .none => .null
  | .bool b => .bool b
  | .int n => .int n
  | .float x => .float x
  | .notANumber => .notANumber
  | .list ds => .arr (valueList ds)
  | .record es => .obj (valueEntries es)
  | d => .str d.shown

def valueList : List Detail → List Json.Value
  | [] => []
  | d :: ds => d.value :: valueList ds

def valueEntries : List (String × Detail) → Json.Members
  | [] => []
  | (k, d) :: es => (k, d.value) :: valueEntries es

end

def Details.sanitize (ds : Details) : Json.Value := .obj (valueEntries ds.sanitized)

structure NotText where
  place : Nat
  kind : String
deriving DecidableEq, Repr

def textsFrom (place : Nat) : List Detail → Except NotText (List String)
  | [] => .ok []
  | .text s :: ds => do return s :: (← textsFrom (place + 1) ds)
  | d :: _ => .error ⟨place, d.kindName⟩

def shownFact? (key : String) (d : Detail) : Except NotText (Option String) :=
  match key, d with
  | "globals", .record es =>
    let names := es.map fun e => e.1 ++ "(" ++ e.2.shown ++ "x)"
    .ok (some ("globals: " ++ ", ".intercalate names))
  | "globals", .list ds => do return some ("globals: " ++ ", ".intercalate (← textsFrom 0 ds))
  | _, .list ds => .ok (some (key ++ ": " ++ ", ".intercalate (ds.map Detail.shown)))
  | _, .bool b => .ok (if b then some key else none)
  | _, d => .ok (some (key ++ ": " ++ d.shown))

def Details.format (ds : Details) : Except NotText String := do
  let facts ← ds.mapM fun d => shownFact? d.1 d.2
  return "; ".intercalate (facts.filterMap id)

/-! ## Reports -/

abbrev FileFindings := List (String × List Finding)

structure Report where
  scripts : List (String × FileFindings) := []

namespace Report

def add (r : Report) (script : String) (path : String) (f : Finding) : Report :=
  let files := (getKey? script r.scripts).getD []
  ⟨setKey script (addToGroup path f files) r.scripts⟩

def all (r : Report) : List Finding := r.scripts.flatMap fun s => s.2.flatMap (·.2)

/-- Walk the scripts and their files and add up what is counted in each file. -/
def sumFiles (scripts : List (String × FileFindings)) (n : List Finding → Nat) : Nat :=
  sumOf (scripts.map fun s => sumOf (s.2.map fun f => n f.2))

def total (r : Report) : Nat := sumFiles r.scripts List.length

def count (r : Report) (s : Severity) : Nat :=
  sumFiles r.scripts (List.countP fun f => f.severity == s)

def sortedByName {α : Type} (es : List (String × α)) : List (String × α) :=
  sortBy (fun a b => !(b.1 < a.1)) es

def sorted (r : Report) : List (String × FileFindings) :=
  (sortedByName r.scripts).map fun s => (s.1, sortedByName s.2)

/-! ### Impact -/

inductive Impact where
  | critical
  | high
  | medium
  | low
deriving DecidableEq, Repr

def Impact.name : Impact → String
  | .critical => "critical"
  | .high => "high"
  | .medium => "medium"
  | .low => "low"

def impactOf (pattern : String) : Impact :=
  match pattern with
  | "expensive_in_hotpath" | "string_concat_in_loop" => .critical
  | "distance_native" | "table_insert_append" | "math_pow_simple" | "string_format_in_loop" =>
    .high
  | "uncached_globals_summary" | "math_pow_dotted" | "pairs_on_array" | "debug_statement" =>
    .medium
  | _ => .low

def countImpact (r : Report) (i : Impact) : Nat :=
  sumFiles r.sorted (List.countP fun f => impactOf f.pattern == i)

/-! ### Counts -/

structure Issue where
  pattern : String
  count : Nat
  severity : Severity

def Issue.impact (i : Issue) : Impact := impactOf i.pattern

def issues (r : Report) : List Issue :=
  (groupOn Finding.pattern r.all).map fun g =>
    ⟨g.1, g.2.length, ((g.2.head?.map Finding.severity).getD .red)⟩

def firstOf {α : Type} (limit : Int) (xs : List α) : List α :=
  if 0 ≤ limit then xs.take limit.toNat else xs.take (xs.length - limit.natAbs)

def topIssues (r : Report) (limit : Int) : List Issue :=
  firstOf limit (sortBy (fun a b => b.count ≤ a.count) r.issues)

structure SeverityCounts where
  green : Nat
  yellow : Nat
  red : Nat
  debug : Nat
deriving DecidableEq, Repr

def severityCountsOf (fs : List Finding) : SeverityCounts :=
  let count (s : Severity) : Nat := fs.countP fun f => f.severity == s
  ⟨count .green, count .yellow, count .red, count .debug⟩

def breakdown (r : Report) (script : String) : SeverityCounts :=
  severityCountsOf (((getKey? script r.scripts).getD []).flatMap (·.2))

def summary (r : Report) : SeverityCounts :=
  ⟨r.count .green, r.count .yellow, r.count .red, r.count .debug⟩

def worstScripts (r : Report) : List (String × Nat) :=
  let counts := r.scripts.map fun s => (s.1, sumOf (s.2.map fun f => f.2.length))
  sortBy (fun a b => b.2 ≤ a.2) counts

def lowered (s : String) : String := s.map Char.toLower

def patterns (r : Report) : List (String × Nat) :=
  let fs := r.sorted.flatMap fun s => s.2.flatMap (·.2)
  let counts := (groupOn Finding.pattern fs).map fun g => (g.1, g.2.length)
  sortBy (fun a b => !(lowered b.1 < lowered a.1)) counts

end Report

end LuaTune

namespace LuaTune.Report

open Text

/-! ## Marking code on a page -/

structure QuoteForm where
  double : String
  single : String

def escapedChar (q : QuoteForm) (c : Char) : Chars :=
  match c with
  | '&' => "&amp;".toList
  | '<' => "&lt;".toList
  | '>' => "&gt;".toList
  | '"' => q.double.toList
  | '\'' => q.single.toList
  | c => [c]

def escapeWith (q : QuoteForm) (cs : Chars) : Chars := cs.flatMap (escapedChar q)

def escapeCode (cs : Chars) : Chars := escapeWith ⟨"&quot;", "&#x27;"⟩ cs

def escapeText (s : String) : String :=
  String.ofList (escapeWith ⟨"&#34;", "&#39;"⟩ s.toList)

def present? (ds : Details) (key : String) : Option Detail :=
  match ds.get? key with
  | some .none | some (.bool false) | some (.int 0) | some (.text "") | some (.list [])
  | some (.record []) | none => none
  | some (.float x) => if x.isZero then none else some (.float x)
  | d => d

def firstName? (ds : Details) (key : String) : Option Chars :=
  match ds.get? key with
  | some (.list (.text s :: _)) => some (dropEndWhile (fun c => c == '(' || c == ')') s.toList)
  | _ => none

def markedPart? (ds : Details) (pattern : String) : Option Chars :=
  match pattern with
  | "table_insert_append" | "table_getn" | "string_len" | "math_pow_simple" | "math_pow_dotted"
  | "math_pow_complex" => (ds.text? "full_match").map String.toList
  | "global_write" => (ds.text? "variable").map String.toList
  | "expensive_in_hotpath" => firstName? ds "operations"
  | "string_concat_in_loop" =>
    (present? ds "variable").map fun v => (v.shown ++ " = " ++ v.shown ++ " ..").toList
  | "string_format_in_loop" => some "string.format".toList
  | "pairs_on_array" => (present? ds "table").map fun t => ("pairs(" ++ t.shown ++ ")").toList
  | "debug_statement" => firstName? ds "functions"
  | _ => none

/-- A line of code for a page. The first place where the marked part stands is marked, also if it
is inside an escaped character. -/
def highlight (line : Chars) (ds : Details) (pattern : String) : Chars :=
  let escaped := escapeCode line
  match if ds.isEmpty then none else markedPart? ds pattern with
  | some (c :: cs) =>
    let part := escapeCode (c :: cs)
    replaceFirst part ("<span class=\"highlight\">".toList ++ part ++ "</span>".toList) escaped
  | _ => escaped

end LuaTune.Report
