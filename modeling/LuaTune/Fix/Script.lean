import LuaTune.Finding.Analyze
import LuaTune.Fix.Statement
import LuaTune.Fix.Repeated

/-! # Fixing a script -/

namespace LuaTune.Fix

open Lua Analysis

structure Options where
  fixDebug : Bool := false
  fixYellow : Bool := false
  experimental : Bool := false
  fixNil : Bool := false
  removeDeadCode : Bool := false
deriving DecidableEq, Repr

inductive Fault where
  | analysis (cause : Analysis.Fault)
  | edits (cause : EditFault)
deriving DecidableEq, Repr

def Fault.message : Fault → String
  | .analysis f => f.message
  | .edits f => f.message

structure Fixed where
  modified : Bool
  content : Chars
  /-- How many edits there were before conflicts were settled. -/
  count : Nat
  /-- The edits, in the order in which they were considered if it came to that. -/
  edits : List Edit
deriving DecidableEq, Repr

/-- The edits for one finding, as far as the options ask for them. -/
def findingEdits (o : Options) (source : Chars) (f : Finding) : List Edit :=
  match f.pattern with
  | "table_insert_append" => appendEdits source f
  | "table_getn" => lengthEdits source f "table"
  | "string_len" => lengthEdits source f "string"
  | "math_pow_simple" => powerEdits source f
  | "debug_statement" => debugEdits source f
  | "uncached_globals_summary" => globalEdits source f
  | "string_concat_in_loop" => if o.experimental then concatEdits source f else []
  | "potential_nil_access" => if o.fixNil then nilGuardEdits source f else []
  | p =>
    if Text.startsWith p.toList "dead_code_".toList then
      if o.removeDeadCode then deadCodeEdits source f else []
    else if Text.startsWith p.toList "repeated_".toList then repeatedCallEdits source f
    else []

def Options.severities (o : Options) : List Severity :=
  .green :: (if o.fixYellow then [.yellow] else []) ++ (if o.fixDebug then [.debug] else [])

/-- Add the findings on lines that no chosen one is on. -/
def addOnNewLines (chosen extra : List Finding) : List Finding :=
  chosen ++ extra.filter fun f => !(chosen.any fun g => g.line == f.line)

/-- The findings that the options ask to fix. -/
def fixable (o : Options) (findings : List Finding) : List Finding :=
  let bySeverity := findings.filter fun f => o.severities.contains f.severity
  let concats := if o.experimental && !o.fixYellow then
      findings.filter fun f => f.pattern == "string_concat_in_loop" && f.severity == .yellow
    else []
  let chosen := bySeverity ++ concats
  let chosen := if o.fixNil then
      addOnNewLines chosen (findings.filter fun f =>
        f.pattern == "potential_nil_access" && f.details.holds "is_safe_to_fix")
    else chosen
  if o.removeDeadCode then
    addOnNewLines chosen (findings.filter fun f =>
      Text.startsWith f.pattern.toList "dead_code_".toList && f.details.holds "is_safe_to_remove")
  else chosen

def sourceEdits (o : Options) (source : Chars) (findings : List Finding) : List Edit :=
  (fixable o findings).flatMap (findingEdits o source)

/-- Fix findings. A text that the edits leave as it is counts as unmodified. -/
def fixFindings (o : Options) (source : Chars) (findings : List Finding) :
    Except EditFault Fixed :=
  match sourceEdits o source findings with
  | [] => .ok ⟨false, source, 0, []⟩
  | edits => do
    let content ← Edit.apply edits source
    let sorted := Edit.sort edits
    if content == source then return ⟨false, source, 0, sorted⟩
    else return ⟨true, content, edits.length, sorted⟩

/-- Fix a source text. What does not parse stays as it is. -/
def fixSource (o : Options) (source : Chars) : Except Fault Fixed := do
  let findings ← (analyzeSource {} source).mapError Fault.analysis
  (fixFindings o source findings).mapError Fault.edits

end LuaTune.Fix
