import LuaTune.Finding.Rules.Calls

/-! # Loops and hazards -/

namespace LuaTune.Rules

open Lua Analysis

/-!
## Work that belongs outside of a loop
-/

def loopFunctionFinding (lines : List Chars) (f : LoopFunction) : Finding :=
  ⟨"function_in_loop", .yellow, f.line,
    s!"Function '{f.name}' defined inside loop - consider hoisting",
    [("func_name", .text f.name),
     ("suggestion",
       .text "Define the function outside the loop to avoid repeated closure allocation"),
     ("node", .node (.stat f.node))],
    shownLine lines f.line⟩

def repeatedLengthFindings (lines : List Chars) (uses : List LengthUse) : List Finding :=
  (groupOn (fun u => (u.scope, u.operand)) uses).filterMap fun g =>
    let table := g.1.2
    match g.2 with
    | first :: _ :: _ =>
      some ⟨"repeated_length_in_loop", .yellow, first.line,
        s!"#{table} used {g.2.length} times in loop - cache it",
        [("table", .text table),
         ("count", .int g.2.length),
         ("lines", .list (g.2.map fun u => .int u.line)),
         ("suggestion", .text s!"local {table}_len = #{table}  -- cache before loop")],
        shownLine lines first.line⟩
    | _ => none

def unusedKeyFinding? (lines : List Chars) (l : IteratorLoop) : Option Finding :=
  match l.iterator, l.targets with
  | "pairs", key :: _ =>
    if key.startsWith "_" then
      some ⟨"pairs_with_unused_key", .yellow, l.line,
        s!"pairs() with unused key '{key}' - consider ipairs() for sequences",
        [("iterator", .text l.iterator),
         ("targets", .list (l.targets.map .text)),
         ("suggestion",
           .text "Use ipairs() for sequential tables - it is faster and guarantees order")],
        shownLine lines l.line⟩
    else none
  | _, _ => none

/-!
## Strings that grow in a loop

The finding is safe to fix if the variable is a local that is set to the empty string within the
three lines before an outermost loop.
-/

/-- The statements `s = s .. e` in loops, by scope and variable. -/
def selfConcats (concats : List Concat) : List ((ScopeId × String) × List Concat) :=
  let own := concats.filterMap fun c =>
    match c.target, c.leftName with
    | some t, some l => if c.inLoop && t == l then some ((c.scope, t), c) else none
    | _, _ => none
  (groupOn (·.1) own).map fun g => (g.1, g.2.map (·.2))

/-- The line on which the variable is set to the empty string just before the loop. -/
def initLine? (assigns : List Assignment) (var : String) (loop : Scope) : Option Nat :=
  (assigns.find? fun a =>
    a.target == var && a.kind == .literal && (a.value == "\"\"" || a.value == "''")
      && a.line < loop.startLine && loop.startLine ≤ a.line + 3 && !a.inLoop && a.isLocal).map
    (·.line)

def optionalLine : Option Nat → Detail
  | some n => .int n
  | none => .none

def concatFinding? (t : Tracker) (var : String) (concats : List Concat) : Option Finding :=
  concats.head?.map fun first =>
    let loop := first.loopScope.bind fun id => t.scopes[id]?
    let init := if first.loopDepth == 1 then loop.bind (initLine? t.assigns var) else none
    ⟨"string_concat_in_loop", .yellow, first.line, s!"String concat in loop: {var} = {var} .. x",
      [("variable", .text var),
       ("count", .int concats.length),
       ("loop_depth", .int first.loopDepth),
       ("suggestion", .text "Use table.insert() + table.concat()"),
       ("right_expr", match first.right with | some r => .text r | none => .none),
       ("loop_start", optionalLine (loop.map (·.startLine))),
       ("loop_end", optionalLine (loop.map (·.endLine))),
       ("init_line", optionalLine init),
       ("is_safe", .bool init.isSome),
       ("concat_lines", .list (concats.map fun c => .int c.line))],
      shownLine t.lines first.line⟩

def concatFindings (t : Tracker) : List Finding :=
  (selfConcats t.concats).filterMap fun g => concatFinding? t g.1.2 g.2

/-!
## Debug output, global writes and missing values
-/

def debugFinding? (lines : List Chars) (call : Call) : Option Finding :=
  if !call.fullName.startsWith "math." && Vocabulary.debugFunctions.contains call.func then
    some (aboutCall lines call "debug_statement" .debug s!"Debug call: {call.func}()"
      [("function", .text call.func), ("node", .node (.expr call.node))])
  else none

/-- Names that are meant to be global: those that start with an underscore or have no small
letters. -/
def isMeantGlobal (name : String) : Bool := name.startsWith "_" || Text.isUpperName name

def globalWriteFinding? (lines : List Chars) (write : String × Nat) : Option Finding :=
  let (name, line) := write
  if isMeantGlobal name then none
  else
    some ⟨"global_write", .red, line, s!"Global write: {name}", [("variable", .text name)],
      shownLine lines line⟩

def nilAccessFinding (lines : List Chars) (access : NilAccess) : Finding :=
  let source := access.source
  let reason := (getKey? source.func Vocabulary.nilReturning).getD "may return nil"
  let note := if access.isSafeToFix then " (auto-fixable)" else ""
  ⟨"potential_nil_access", .yellow, access.line,
    s!"Potential nil access: '{access.var}' from {source.func}() used without nil check{note}",
    [("var_name", .text access.var),
     ("source_func", .text source.func),
     ("source_call", .text source.call),
     ("assign_line", .int source.line),
     ("access_call", .text access.call),
     ("access_type", .text "method"),
     ("is_safe_to_fix", .bool access.isSafeToFix),
     ("is_local", .bool source.isLocal),
     ("reason", .text reason)],
    shownLine lines access.line⟩

end LuaTune.Rules
