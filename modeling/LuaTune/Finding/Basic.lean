import LuaTune.Analysis.Tracker
import LuaTune.Grouping

/-! # Findings -/

namespace LuaTune

open Decimal Lua Analysis

/-!
## Details of a finding

Most facts are plain values that reports show; some refer to the script itself, for the fixes.
-/

inductive Detail where
  | none
  | bool (b : Bool)
  | int (n : Int)
  | float (x : Binary)
  | notANumber
  | text (s : String)
  | list (items : List Detail)
  | record (entries : List (String × Detail))
  | node (n : Node)
  | calls (cs : List Call)
  | callsByName (groups : List (String × List Call))
  | scope (id : ScopeId) (s : Scope)
  /-- A value of which only the text is known. -/
  | foreign (text : String)

instance : Inhabited Detail := ⟨.none⟩

abbrev Details := List (String × Detail)

namespace Details

def get? (ds : Details) (k : String) : Option Detail := (ds.find? fun d => d.1 == k).map (·.2)

def text? (ds : Details) (k : String) : Option String :=
  match ds.get? k with
  | some (.text s) => some s
  | _ => none

def int? (ds : Details) (k : String) : Option Int :=
  match ds.get? k with
  | some (.int n) => some n
  | _ => none

def node? (ds : Details) (k : String) : Option Node :=
  match ds.get? k with
  | some (.node n) => some n
  | _ => none

def calls? (ds : Details) (k : String) : Option (List Call) :=
  match ds.get? k with
  | some (.calls cs) => some cs
  | _ => none

def scope? (ds : Details) (k : String) : Option Scope :=
  match ds.get? k with
  | some (.scope _ s) => some s
  | _ => none

def holds (ds : Details) (k : String) : Bool :=
  match ds.get? k with
  | some (.bool b) => b
  | _ => false

end Details

/-! ## Findings -/

inductive Severity where
  /-- Can be fixed without review. -/
  | green
  /-- Should be reviewed. -/
  | yellow
  /-- For information. -/
  | red
  /-- Output for debugging. -/
  | debug
  | other (name : String)
deriving DecidableEq, Repr, Inhabited

def Severity.name : Severity → String
  | .green => "GREEN"
  | .yellow => "YELLOW"
  | .red => "RED"
  | .debug => "DEBUG"
  | .other s => s

def Severity.ofName (s : String) : Severity :=
  match s with
  | "GREEN" => .green
  | "YELLOW" => .yellow
  | "RED" => .red
  | "DEBUG" => .debug
  | s => .other s

structure Finding where
  pattern : String
  severity : Severity
  line : Int
  message : String
  details : Details
  /-- The line of the source, or what is shown in its place. -/
  sourceLine : String

instance : Inhabited Finding := ⟨"", .red, 0, "", [], ""⟩

structure Settings where
  threshold : Int := 4
  /-- Count exclusive branches once. -/
  experimental : Bool := false

namespace Analysis

def shownLine (lines : List Chars) (n : Nat) : String :=
  if n = 0 then ""
  else
    match lines[n - 1]? with
    | some l => String.ofList (Text.stripRight l)
    | none => ""

end Analysis

end LuaTune
