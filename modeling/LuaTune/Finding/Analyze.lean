import LuaTune.Analysis.Visit
import LuaTune.Finding.Rules.Loops
import LuaTune.Finding.Rules.DeadCode
import LuaTune.Lua.Syntax.Parse
import LuaTune.Text.Bytes

/-!
# Analyzing a script

A script is parsed, visited once, and then every rule reports in its turn. What cannot be parsed has
no findings.
-/

namespace LuaTune

open Lua Analysis Rules

structure Analyzed where
  source : Chars
  chunk : Chunk
  tracker : Tracker

inductive Outcome where
  | unparsed
  | analyzed (a : Analyzed)

/-- All expressions that the rules write out. -/
def Analyzed.written (a : Analyzed) : List Expr :=
  a.tracker.calls.flatMap (fun c => replacedParts c ++ nativeParts c) ++ a.chunk.walk.flatMap calledParts

/-- What the rules find, one rule after the other. -/
def Analyzed.findings (a : Analyzed) (settings : Settings) : List Finding :=
  let t := a.tracker
  t.calls.filterMap (appendFinding? t.lines)
    ++ t.calls.filterMap (lengthFinding? t.lines)
    ++ t.calls.filterMap (powerFinding? t.lines)
    ++ uncachedFindings settings t.scopes t.calls
    ++ repeatedFindings settings t.scopes t.calls
    ++ concatFindings t
    ++ t.calls.filterMap (debugFinding? t.lines)
    ++ t.globalWrites.filterMap (globalWriteFinding? t.lines)
    ++ t.nilAccesses.map (nilAccessFinding t.lines)
    ++ (deadCode a.chunk).map (DeadCode.finding t.lines)
    ++ unusedVariableFindings t.lines a.chunk
    ++ unusedFunctionFindings t.lines a.chunk
    ++ t.calls.filterMap (distanceFinding? t.lines)
    ++ propertyFindings t.lines t.calls
    ++ t.loopFunctions.map (loopFunctionFinding t.lines)
    ++ repeatedLengthFindings t.lines t.lengthUses
    ++ t.iteratorLoops.filterMap (unusedKeyFinding? t.lines)

/-- Parse and visit a source text; the rules must be able to write what they find. -/
def visitSource (source : Chars) : Except Fault Outcome :=
  match Chunk.parse? source with
  | none => .ok .unparsed
  | some c => do
    let t ← visitChunk c (Text.lines source)
    let a : Analyzed := ⟨source, c, t⟩
    if arePrintable a.written then return .analyzed a else throw .numberTooLong

def Outcome.findings (settings : Settings) : Outcome → List Finding
  | .unparsed => []
  | .analyzed a => a.findings settings

def analyzeSource (settings : Settings) (source : Chars) : Except Fault (List Finding) :=
  (visitSource source).map (Outcome.findings settings)

end LuaTune
