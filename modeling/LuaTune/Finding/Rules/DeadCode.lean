import LuaTune.Finding.Basic

/-! # Code that does nothing -/

namespace LuaTune.Rules

open Lua Analysis

/-!
## Code that never runs

Statements after a `return` or after a `break` in a loop, and conditionals and loops whose test is
the literal `false` or `nil`. The search does not go into plain blocks or functions without a name.
-/

inductive DeadKind where
  | afterReturn
  | afterBreak
  | ifFalse
  | whileFalse
deriving DecidableEq, Repr

structure DeadCode where
  kind : DeadKind
  startLine : Nat
  endLine : Nat
  scopeName : String
  count : Nat

def DeadKind.name : DeadKind → String
  | .afterReturn => "after_return"
  | .afterBreak => "after_break"
  | .ifFalse => "if_false"
  | .whileFalse => "while_false"

def DeadKind.description : DeadKind → String
  | .afterReturn => "Unreachable code after return"
  | .afterBreak => "Unreachable code after break"
  | .ifFalse => "if false block (never executes)"
  | .whileFalse => "while false block (never executes)"

/-! ### After a jump -/

/-- Does a statement end its block? A `break` does in a loop only. -/
def isJump (kind : DeadKind) (inLoop : Bool) : Stat → Bool
  | .returnNothing _ _ | .returnValues _ _ _ => kind == .afterReturn
  | .breakLoop => kind == .afterBreak && inLoop
  | _ => false

def isSemicolon : Stat → Bool
  | .semicolon => true
  | _ => false

def endLineOf (s : Stat) : Nat := (Node.stat s).endLine

/-- The statements after a jump as one dead piece; semicolons do not count. -/
def deadTail? (kind : DeadKind) (scopeName : String) (rest : List Stat) : Option DeadCode :=
  let real := rest.filter fun s => !isSemicolon s
  match real.head?, real.getLast? with
  | some first, some last =>
    let start := first.line
    let stop := endLineOf last
    some ⟨kind, start, if stop = 0 then start else stop, scopeName, real.length⟩
  | _, _ => none

mutual

/-- The dead tails of a block and of the blocks in it. -/
def deadInStats (kind : DeadKind) (scopeName : String) (inLoop : Bool) :
    List Stat → List DeadCode
  | [] => []
  | s :: rest =>
    (if isJump kind inLoop s then (deadTail? kind scopeName rest).toList else [])
      ++ deadInStat kind scopeName inLoop s ++ deadInStats kind scopeName inLoop rest

def deadInStat (kind : DeadKind) (scopeName : String) (inLoop : Bool) : Stat → List DeadCode
  | .function first last base path params body =>
    deadInStats kind (Stat.function first last base path params body).functionName false body
  | .localFunction _ _ name _ body => deadInStats kind name.name false body
  | .method first last base path name params body =>
    deadInStats kind (Stat.method first last base path name params body).functionName false body
  | .ifThen _ body orelse =>
    deadInStats kind scopeName inLoop body ++ deadInOrelse kind scopeName inLoop orelse
  | .whileLoop _ body => deadInStats kind scopeName true body
  | .repeatLoop body _ => deadInStats kind scopeName true body
  | .numericFor _ _ body => deadInStats kind scopeName true body
  | .genericFor _ _ body => deadInStats kind scopeName true body
  | _ => []

def deadInOrelse (kind : DeadKind) (scopeName : String) (inLoop : Bool) : Orelse → List DeadCode
  | .none => []
  | .elseif _ body orelse =>
    deadInStats kind scopeName inLoop body ++ deadInOrelse kind scopeName inLoop orelse
  | .block body => deadInStats kind scopeName inLoop body

end

/-! ### Tests that never hold -/

def isLiteralFalse : Expr → Bool
  | .bool false _ => true
  | .nil _ => true
  | _ => false

/-- A node whose test never holds. -/
def falseTest? (kind : DeadKind) : Node → Option DeadCode
  | .stat (.ifThen test body orelse) =>
    if kind == .ifFalse && isLiteralFalse test then
      let n := Node.stat (.ifThen test body orelse)
      some ⟨kind, n.line, n.endLine, "<unknown>", 0⟩
    else none
  | .stat (.whileLoop test body) =>
    if kind == .whileFalse && isLiteralFalse test then
      let n := Node.stat (.whileLoop test body)
      some ⟨kind, n.line, n.endLine, "<unknown>", 0⟩
    else none
  | _ => none

def deadCode (c : Chunk) : List DeadCode :=
  deadInStats .afterReturn "<global>" false c ++ deadInStats .afterBreak "<global>" false c
    ++ c.walk.filterMap (falseTest? .ifFalse) ++ c.walk.filterMap (falseTest? .whileFalse)

def DeadCode.preview (lines : List Chars) (d : DeadCode) : String :=
  let count := min 3 (d.endLine + 1 - d.startLine)
  let shown := (List.range' d.startLine count).filter fun n => 0 < n && n ≤ lines.length
  "\n".intercalate (shown.map (shownLine lines))
    ++ (if d.endLine > d.startLine + 2 then "\n..." else "")

def DeadCode.message (d : DeadCode) : String :=
  let where_ := s!"(lines {d.startLine}-{d.endLine})"
  match d.kind with
  | .afterReturn => s!"Unreachable code after return statement {where_}"
  | .afterBreak => s!"Unreachable code after break statement {where_}"
  | .ifFalse => s!"Dead code: if false {where_}"
  | .whileFalse => s!"Dead code: while false {where_}"

def DeadCode.finding (lines : List Chars) (d : DeadCode) : Finding :=
  let count : Details := match d.kind with
    | .afterReturn | .afterBreak => [("dead_stmt_count", .int d.count)]
    | .ifFalse | .whileFalse => []
  ⟨"dead_code_" ++ d.kind.name, .green, d.startLine, d.message,
    [("dead_type", .text d.kind.name),
     ("start_line", .int d.startLine),
     ("end_line", .int d.endLine),
     ("scope_name", .text d.scopeName),
     ("is_safe_to_remove", .bool true)] ++ count,
    shownLine lines d.startLine⟩

/-!
## Locals that are never used

A local counts as used if any name like it occurs anywhere except where `local` or `for` declares
it. The last declaration of a name decides whether it is a variable.
-/

inductive LocalKind where
  | variable
  | function
  | loopVariable
deriving DecidableEq, Repr

structure Declaration where
  name : String
  line : Nat
  kind : LocalKind

def declarationsOf : Node → List Declaration
  | .stat (.localAssign first targets _) =>
    targets.map fun id => ⟨id.name, first.line, .variable⟩
  | .stat (.localFunction first _ name _ _) => [⟨name.name, first.line, .function⟩]
  | .stat (.numericFor target _ _) => [⟨target.name, 0, .loopVariable⟩]
  | .stat (.genericFor targets _ _) => targets.map fun id => ⟨id.name, 0, .loopVariable⟩
  | _ => []

/-- The last declaration of each name that starts with no underscore. -/
def lastDeclarations (nodes : List Node) : List (String × Declaration) :=
  let all := (nodes.flatMap declarationsOf).filter fun d => !d.name.startsWith "_"
  all.foldl (fun ds d => setKey d.name d ds) []

def usedNames (nodes : List Node) : List String :=
  nodes.filterMap fun n =>
    match n with
    | .expr (.name id) => some id.name
    | _ => none

/-- What an event handler is registered as. -/
def handler? : Node → Option String
  | .expr (.call callee (_ :: handler :: _) _) =>
    if callee.text == "AddEventHandler" && handler.text != "" then some handler.text else none
  | _ => none

def calledParts : Node → List Expr
  | .expr (.call callee args _) =>
    callee :: if callee.text == "AddEventHandler" then (args.drop 1).take 1 else []
  | _ => []

def handlers (c : Chunk) : List String := sortNames (distinct (c.walk.filterMap handler?))

def unusedVariableFindings (lines : List Chars) (c : Chunk) : List Finding :=
  let nodes := c.walk
  let used := usedNames nodes
  let registered := nodes.filterMap handler?
  (lastDeclarations nodes).filterMap fun (name, d) =>
    if d.kind == .variable && !used.contains name && !registered.contains name then
      some ⟨"unused_local_variable", .yellow, d.line,
        s!"Local variable '{name}' is assigned but never used",
        [("var_name", .text name),
         ("assign_line", .int d.line),
         ("is_safe_to_remove", .bool false)],
        shownLine lines d.line⟩
    else none

/-- All names, those in declarations included, and the texts of callees. -/
def mentionedNames (nodes : List Node) : List String :=
  nodes.filterMap fun n =>
    match n with
    | .expr (.name id) => some id.name
    | .binder id => some id.name
    | .expr (.call callee _ _) => some callee.text
    | _ => none

def unusedFunctionFindings (lines : List Chars) (c : Chunk) : List Finding :=
  let nodes := c.walk
  let mentioned := mentionedNames nodes
  let registered := nodes.filterMap handler?
  let functions := (nodes.flatMap declarationsOf).filter fun d =>
    d.kind == .function && !d.name.startsWith "_"
  (functions.foldl (fun ds d => setKey d.name d ds) []).filterMap fun (name, d) =>
    if mentioned.contains name || registered.contains name
        || Vocabulary.hotCallbacks.contains name || Vocabulary.platformEvents.contains name then
      none
    else
      some ⟨"unused_local_function", .yellow, d.line,
        s!"Local function '{name}' appears to be unused",
        [("func_name", .text name),
         ("assign_line", .int d.line),
         ("is_safe_to_remove", .bool false)],
        shownLine lines d.line⟩

end LuaTune.Rules
