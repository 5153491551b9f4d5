import LuaTune.Analysis.Visit
import Mathlib.Tactic.Common

/-!
# What a visit does, one piece of syntax at a time

`Part.actions` says what the visit of a piece of syntax does and in what order: it makes records,
visits parts, and opens and closes loops, functions and conditionals. What holds of every visit
follows from what holds of every action.
-/

namespace LuaTune.Analysis

open Lua List

inductive Part where
  | expr (e : Expr)
  | field (f : Field)
  | stat (s : Stat)
  | block (body : List Stat)

def Part.visit : Part → Tracker → Step
  | .expr e => visitExpr e
  | .field f => visitField f
  | .stat s => visitStat s
  | .block body => visitStats body

def visitParts : List Part → Tracker → Step
  | [], t => .ok t
  | p :: ps, t => p.visit t >>= visitParts ps

abbrev Branches := List (Int × List Part)

def visitBranches : Branches → Tracker → Step
  | [], t => .ok t
  | (n, parts) :: bs, t => visitParts parts { t with branch := n } >>= visitBranches bs

def branchesOf : Orelse → Int → Branches
  | .none, _ => []
  | .elseif test body orelse, n => (n, [.expr test, .block body]) :: branchesOf orelse (n + 1)
  | .block body, _ => [(-1, [.block body])]

def Tracker.openConditional (t : Tracker) : Tracker :=
  { t with conditional := some t.conditionals, conditionals := t.conditionals + 1 }

inductive Action where
  | record (calls : List Expr) (f : Tracker → Step)
  | visit (p : Part)
  | loop (name : String) (vars : List String) (parts : List Part)
  | function (name : String) (first last : Nat) (params : List String) (body : List Stat)
  | conditional (test : Expr) (branches : Branches)

namespace Action

def run : Action → Tracker → Step
  | .record _ f, t => f t
  | .visit p, t => p.visit t
  | .loop name vars parts, t => do return (← visitParts parts (t.enterLoop name vars)).exitLoop
  | .function name first last params body, t => do
    return (← visitStats body (t.enterFunction name first params)).exitFunction last
  | .conditional test branches, t => do
    let u ← visitExpr test t.openConditional
    let u ← visitBranches branches u
    return { u with conditional := t.conditional, branch := t.branch }

def parts : Action → List Part
  | .record _ _ => []
  | .visit p => [p]
  | .loop _ _ parts => parts
  | .function _ _ _ _ body => [.block body]
  | .conditional test branches => .expr test :: branches.flatMap (·.2)

def note (f : Tracker → Tracker) : Action := .record [] fun t => .ok (f t)

def visits (es : List Expr) : List Action := es.map fun e => .visit (.expr e)

end Action

open LuaTune.Analysis.Action

def runActions : List Action → Tracker → Step
  | [], t => .ok t
  | a :: as, t => a.run t >>= runActions as

def isDirectCallee : Expr → Bool
  | .name _ => true
  | .index _ (.name _) (.name _) => true
  | _ => false

def recordNamed (callee : Expr) (args : List Expr) (last : Option Token) (t : Tracker) : Tracker :=
  match Tracker.calleeName? callee with
  | some (module, func, full) => t.recordCall full module func args (.call callee args last)
  | none => t

def recordInvoke (source : Expr) (method : Ident) (args : List Expr) (t : Tracker) : Step := do
  let t ← writing [source] t
  let full := source.text ++ ":" ++ method.name
  let node := Expr.invoke source method args
  let t := t.recordCall full source.text method.name args node
  return t.checkNilAccess source full node.line

def recordOperand (op : UnaryOp) (token : Token) (operand : Expr) (t : Tracker) : Step :=
  if op = .length then do
    let t ← writing (if t.loopDepth > 0 then [operand] else []) t
    return t.recordLength token operand
  else .ok t

def recordTargets (line : Nat) (targets values : List Expr) (t : Tracker) : Step := do
  let named := targets.any fun e => (Tracker.nameOf? e).isSome
  let t ← writing (Tracker.recordedValue named values) t
  return targets.foldl (Tracker.recordTarget · values line) t

def recordLocals (line : Nat) (targets : List Ident) (values : List Expr) (t : Tracker) : Step := do
  let t ← writing (Tracker.recordedValue (targets.length = 1) values) t
  return t.recordLocal targets values line

def exprActions : Expr → List Action
  | .nil _ | .bool _ _ | .number _ _ | .string _ _ _ | .varargs | .name _ => []
  | .index _ base key => visits [base, key]
  | .call callee args last =>
    .record (if isDirectCallee callee then [.call callee args last] else [])
      (fun t => .ok (recordNamed callee args last t)) :: visits (callee :: args)
  | .invoke source method args =>
    .record [.invoke source method args] (recordInvoke source method args) :: visits (source :: args)
  | .function _ _ _ body => [.visit (.block body)]
  | .table _ fields => fields.map fun f => .visit (.field f)
  | .binary op left right =>
    note (fun t => if op = .concat then t.recordLoopConcat left else t) :: visits [left, right]
  | .unary op token operand => .record [] (recordOperand op token operand) :: visits [operand]

def statActions : Stat → List Action
  | .assign first _ targets values =>
    .record [] (recordTargets first.line targets values) :: visits (targets ++ values)
  | .localAssign first targets values =>
    .record [] (recordLocals first.line targets values) :: visits values
  | .expr e => visits [e]
  | .whileLoop test body => [.visit (.expr test), .loop "<while>" [] [.block body]]
  | .repeatLoop body test => [.loop "<repeat>" [] [.block body, .expr test]]
  | .ifThen test body orelse => [.conditional test ((0, [.block body]) :: branchesOf orelse 1)]
  | .numericFor target bounds body => visits bounds ++ [.loop "<fornum>" [target.name] [.block body]]
  | .genericFor targets iterators body =>
    note (·.recordIterator targets iterators) ::
      (visits iterators ++ [.loop "<forin>" (targets.map (·.name)) [.block body]])
  | s@(.function first last base path params body) =>
    let name := (dottedName base path).text
    [note (·.recordLoopFunction name s), .function name first.line last.line (Param.names params) body]
  | .method first last _ _ name params body =>
    [.function name.name first.line last.line ("self" :: Param.names params) body]
  | s@(.localFunction first last name params body) =>
    [note fun t => (t.recordLoopFunction name.name s).declare name.name,
      .function name.name first.line last.line (Param.names params) body]
  | .block body => [.visit (.block body)]
  | .breakLoop | .goto _ | .label _ | .semicolon => []
  | .returnNothing _ _ => [.record [] fun _ => .error .returnWithoutValues]
  | .returnValues _ _ values => visits values

def Part.actions : Part → List Action
  | .expr e => exprActions e
  | .field (.mk key value) => visits [key, value]
  | .stat s => statActions s
  | .block body => body.map fun s => .visit (.stat s)

/-! ## The visit is its actions -/

@[simp]
theorem ok_step (t : Tracker) (f : Tracker → Step) : ((.ok t : Step) >>= f) = f t := rfl

@[simp]
theorem step_ok (x : Step) : (x >>= fun t => .ok t) = x := by
  cases x <;> rfl

@[simp]
theorem runActions_nil : runActions [] = .ok := rfl

@[simp]
theorem runActions_cons (a : Action) (as : List Action) (t : Tracker) :
    runActions (a :: as) t = a.run t >>= runActions as := rfl

theorem runActions_append (as bs : List Action) (t : Tracker) :
    runActions (as ++ bs) t = runActions as t >>= runActions bs := by
  induction as generalizing t with
  | nil => rfl
  | cons a as ih =>
    rw [cons_append, runActions_cons, runActions_cons, bind_assoc]
    exact bind_congr ih

@[simp]
theorem runActions_singleton (a : Action) : runActions [a] = a.run := by
  funext t
  exact step_ok _

@[simp]
theorem visitParts_singleton (p : Part) : visitParts [p] = p.visit := by
  funext t
  exact step_ok _

theorem visitExprs_eq (es : List Expr) : visitExprs es = runActions (visits es) := by
  induction es with
  | nil => rfl
  | cons e es ih =>
    funext t
    rw [visitExprs, ih]
    rfl

theorem visitFields_eq (fs : List Field) :
    visitFields fs = runActions (fs.map fun f => .visit (.field f)) := by
  induction fs with
  | nil => rfl
  | cons f fs ih =>
    funext t
    rw [visitFields, ih]
    rfl

theorem visitStats_eq (ss : List Stat) :
    visitStats ss = runActions (ss.map fun s => .visit (.stat s)) := by
  induction ss with
  | nil => rfl
  | cons s ss ih =>
    funext t
    rw [visitStats, ih]
    rfl

theorem visitOrelse_eq : ∀ (o : Orelse) (n : Int) (t : Tracker),
    visitOrelse o n t = visitBranches (branchesOf o n) t
  | .none, n, t => rfl
  | .elseif test body orelse, n, t => by
    have rest : visitOrelse orelse (n + 1) = visitBranches (branchesOf orelse (n + 1)) :=
      funext (visitOrelse_eq orelse (n + 1))
    simp only [visitOrelse, branchesOf, visitBranches, visitParts, Part.visit, rest, bind_assoc,
      ok_step]
  | .block body, n, t => by
    simp only [visitOrelse, branchesOf, visitBranches, visitParts, Part.visit, step_ok]

@[simp]
theorem run_visit (p : Part) : (visit p).run = p.visit := rfl

@[simp]
theorem run_note (f : Tracker → Tracker) (t : Tracker) : (note f).run t = .ok (f t) := rfl

@[simp]
theorem run_loop_singleton (name : String) (vars : List String) (p : Part) :
    (loop name vars [p]).run = fun t => do return (← p.visit (t.enterLoop name vars)).exitLoop := by
  funext t
  rw [Action.run, visitParts_singleton]

theorem visitExpr_eq (e : Expr) (t : Tracker) : visitExpr e t = runActions (exprActions e) t := by
  cases e with
  | nil | bool | number | string | varargs | name => rfl
  | index form base key =>
    simp only [exprActions, visits, map_cons, map_nil, runActions_cons, runActions_singleton]
    rfl
  | call callee args last =>
    rw [visitExpr, visitExprs_eq]
    rfl
  | invoke source method args =>
    rw [visitExpr, visitExprs_eq]
    simp only [exprActions, runActions_cons, Action.run, recordInvoke, bind_assoc]
    rfl
  | function first last params body =>
    rw [exprActions, runActions_singleton]
    rfl
  | table first fields => rw [visitExpr, visitFields_eq, exprActions]
  | binary op left right =>
    simp only [exprActions, visits, map_cons, map_nil, runActions_cons, run_note, ok_step,
      runActions_singleton]
    rfl
  | unary op token operand =>
    simp only [visitExpr, exprActions, visits, map_cons, map_nil, runActions_cons,
      runActions_singleton, Action.run, recordOperand]
    split
    · rw [bind_assoc]
      rfl
    · rfl

theorem visitStat_eq (s : Stat) (t : Tracker) : visitStat s t = runActions (statActions s) t := by
  cases s with
  | assign first last targets values =>
    have both : visits (targets ++ values) = visits targets ++ visits values := map_append
    have run : runActions (visits (targets ++ values)) =
        fun t => runActions (visits targets) t >>= runActions (visits values) := by
      funext t
      rw [both, runActions_append]
    simp only [visitStat, statActions, runActions_cons, Action.run, recordTargets, visitExprs_eq,
      bind_assoc, run]
    rfl
  | localAssign first targets values =>
    simp only [visitStat, statActions, runActions_cons, Action.run, recordLocals, visitExprs_eq,
      bind_assoc]
    rfl
  | expr e =>
    rw [statActions, visits, map_singleton, runActions_singleton]
    rfl
  | whileLoop test body =>
    simp only [statActions, runActions_cons, runActions_singleton, run_loop_singleton]
    rfl
  | repeatLoop body test =>
    simp only [visitStat, statActions, runActions_singleton, Action.run, visitParts, Part.visit, step_ok,
      bind_assoc]
  | ifThen test body orelse =>
    simp only [visitStat, statActions, runActions_singleton, Action.run, visitBranches,
      visitParts_singleton, bind_assoc, visitOrelse_eq]
    rfl
  | numericFor target bounds body =>
    simp only [visitStat, statActions, runActions_append, visitExprs_eq, runActions_singleton,
      run_loop_singleton]
    rfl
  | genericFor targets iterators body =>
    simp only [visitStat, statActions, runActions_cons, run_note, ok_step, runActions_append,
      visitExprs_eq, runActions_singleton, run_loop_singleton]
    rfl
  | function | localFunction =>
    simp only [statActions, runActions_cons, run_note, ok_step, runActions_singleton]
    rfl
  | method | block =>
    rw [statActions, runActions_singleton]
    rfl
  | breakLoop | goto | label | semicolon | returnNothing => rfl
  | returnValues first last values => rw [visitStat, visitExprs_eq, statActions]

theorem Part.visit_eq (p : Part) (t : Tracker) : p.visit t = runActions p.actions t := by
  cases p with
  | expr e => exact visitExpr_eq e t
  | field f =>
    obtain ⟨key, value⟩ := f
    simp only [Part.actions, visits, map_cons, map_nil, runActions_cons, runActions_singleton]
    rfl
  | stat s => exact visitStat_eq s t
  | block body => exact congrFun (visitStats_eq body) t

/-! ## Parts are smaller than the whole -/

def Part.parts (p : Part) : List Part := p.actions.flatMap Action.parts

theorem sizeOf_branches : ∀ (o : Orelse) (n : Int) (q : Part),
    q ∈ (branchesOf o n).flatMap (·.2) → sizeOf q ≤ sizeOf o
  | .none, n, q, h => by cases h
  | .elseif test body orelse, n, q, h => by
    simp only [branchesOf, flatMap_cons, cons_append, nil_append, mem_cons] at h
    rcases h with rfl | rfl | h
    · simp
      omega
    · simp
      omega
    · have := sizeOf_branches orelse _ q h
      simp
      omega
  | .block body, n, q, h => by
    simp only [branchesOf, flatMap_cons, flatMap_nil, append_nil, mem_singleton] at h
    subst h
    simp

@[simp]
theorem parts_visits (es : List Expr) : (visits es).flatMap Action.parts = es.map .expr := by
  simp [visits, flatMap_map, Action.parts, ← map_eq_flatMap]

theorem Part.sizeOf_exprs {es : List Expr} {q : Part} (h : q ∈ es.map Part.expr) :
    sizeOf q ≤ sizeOf es := by
  obtain ⟨e, he, rfl⟩ := mem_map.mp h
  have := sizeOf_lt_of_mem he
  simp
  omega

theorem Part.sizeOf_lt {p q : Part} (h : q ∈ p.parts) : sizeOf q < sizeOf p := by
  cases p with
  | expr e =>
    cases e with simp [parts, actions, exprActions, Action.parts, note, flatMap_map, -mem_map] at h
    | index | binary => rcases h with rfl | rfl <;> decreasing_tactic
    | call | invoke =>
      rcases h with rfl | h
      · decreasing_tactic
      · have := sizeOf_exprs h
        simp
        omega
    | function | unary =>
      subst h
      decreasing_tactic
    | table first fields =>
      obtain ⟨f, hf, rfl⟩ := h
      have := sizeOf_lt_of_mem hf
      simp
      omega
  | field f =>
    obtain ⟨key, value⟩ := f
    simp [parts, actions] at h
    rcases h with rfl | rfl <;> decreasing_tactic
  | stat s =>
    cases s with simp [parts, actions, statActions, Action.parts, note, -mem_map] at h
    | expr | function | method | localFunction | block =>
      subst h
      decreasing_tactic
    | whileLoop | repeatLoop => rcases h with rfl | rfl <;> decreasing_tactic
    | assign =>
      rcases h with h | h
      all_goals
        have := sizeOf_exprs h
        simp
        omega
    | localAssign | returnValues =>
      have := sizeOf_exprs h
      simp
      omega
    | numericFor | genericFor =>
      rcases h with h | rfl
      · have := sizeOf_exprs h
        simp
        omega
      · decreasing_tactic
    | ifThen test body orelse =>
      rcases h with rfl | rfl | ⟨n, ps, branch, hq⟩
      · decreasing_tactic
      · decreasing_tactic
      · have := sizeOf_branches orelse 1 q (mem_flatMap.mpr ⟨_, branch, hq⟩)
        simp
        omega
  | block body =>
    simp [parts, actions, flatMap_map, Action.parts] at h
    obtain ⟨s, hs, rfl⟩ := h
    have := sizeOf_lt_of_mem hs
    simp
    omega

theorem Part.induction {motive : Part → Prop} (step : ∀ p, (∀ q ∈ p.parts, motive q) → motive p)
    (p : Part) : motive p :=
  step p fun q _ => Part.induction step q
termination_by sizeOf p
decreasing_by exact Part.sizeOf_lt ‹_›

/-! ## Calls that are recorded -/

/-- The call that a node is, if the visit records it: of a method, or of a name or a field of a name. -/
def recordedCall? : Node → Option Expr
  | .expr (.invoke source method args) => some (.invoke source method args)
  | .expr (.call callee args last) =>
    if isDirectCallee callee then some (.call callee args last) else none
  | _ => none

def callsAmong (ns : List Node) : List Expr := ns.filterMap recordedCall?

@[simp]
theorem callsAmong_nil : callsAmong [] = [] := rfl

@[simp]
theorem callsAmong_cons (n : Node) (ns : List Node) :
    callsAmong (n :: ns) = (recordedCall? n).toList ++ callsAmong ns := by
  unfold callsAmong
  rw [filterMap_cons]
  cases recordedCall? n <;> rfl

@[simp]
theorem callsAmong_append (ns ms : List Node) : callsAmong (ns ++ ms) = callsAmong ns ++ callsAmong ms :=
  filterMap_append

theorem callsAmong_eq_nil {ns : List Node} (h : ∀ n ∈ ns, recordedCall? n = none) : callsAmong ns = [] :=
  filterMap_eq_nil_iff.mpr h

/-! Declared names and parameters hold no calls. -/

theorem recordedCall?_dottedName (base : Ident) (path : List Ident) :
    recordedCall? (.expr (dottedName base path)) = none := by
  rcases eq_nil_or_concat path with rfl | ⟨path, id, rfl⟩
  · rfl
  · rw [dottedName, concat_eq_append, foldl_append]
    rfl

@[simp]
theorem callsAmong_identNodes (ids : List Ident) : callsAmong (identNodes ids) = [] := by
  refine callsAmong_eq_nil fun n hn => ?_
  obtain ⟨id, -, rfl⟩ := mem_map.mp hn
  rfl

@[simp]
theorem callsAmong_binderNodes (ids : List Ident) : callsAmong (binderNodes ids) = [] := by
  refine callsAmong_eq_nil fun n hn => ?_
  obtain ⟨id, -, rfl⟩ := mem_map.mp hn
  rfl

@[simp]
theorem callsAmong_paramNodes (ps : List Param) : callsAmong (paramNodes ps) = [] := by
  refine callsAmong_eq_nil fun n hn => ?_
  obtain ⟨p, -, rfl⟩ := mem_map.mp hn
  cases p <;> rfl

@[simp]
theorem callsAmong_dottedNodes (base : Ident) (path : List Ident) :
    callsAmong (dottedNodes base path) = [] := by
  rw [dottedNodes, callsAmong_append, callsAmong_identNodes, append_nil]
  refine callsAmong_eq_nil fun n hn => ?_
  obtain ⟨k, -, rfl⟩ := mem_map.mp hn
  exact recordedCall?_dottedName _ _

def Part.walk : Part → List Node
  | .expr e => e.walk
  | .field f => f.walk
  | .stat s => s.walk
  | .block body => walkStats body

def Part.calls (p : Part) : List Expr := callsAmong p.walk

def Action.calls : Action → List Expr
  | .record calls _ => calls
  | .visit p => p.calls
  | .loop _ _ parts => parts.flatMap Part.calls
  | .function _ _ _ _ body => Part.calls (.block body)
  | .conditional test branches => Part.calls (.expr test) ++ (branches.flatMap (·.2)).flatMap Part.calls

@[simp]
theorem calls_visits (es : List Expr) :
    (visits es).flatMap Action.calls = callsAmong (walkExprs es) := by
  induction es with
  | nil => rfl
  | cons e es ih =>
    rw [walkExprs, callsAmong_append, ← ih]
    rfl

theorem calls_fields (fs : List Field) :
    (fs.map fun f => Action.visit (.field f)).flatMap Action.calls = callsAmong (walkFields fs) := by
  induction fs with
  | nil => rfl
  | cons f fs ih =>
    rw [walkFields, callsAmong_append, ← ih]
    rfl

theorem calls_stats (ss : List Stat) :
    (ss.map fun s => Action.visit (.stat s)).flatMap Action.calls = callsAmong (walkStats ss) := by
  induction ss with
  | nil => rfl
  | cons s ss ih =>
    rw [walkStats, callsAmong_append, ← ih]
    rfl

theorem walkExprs_append (es fs : List Expr) : walkExprs (es ++ fs) = walkExprs es ++ walkExprs fs := by
  induction es with
  | nil => rfl
  | cons e es ih => rw [cons_append, walkExprs, walkExprs, ih, append_assoc]

attribute [local simp] branchesOf exprActions statActions note Action.calls Part.calls Part.walk
  Expr.walk Field.walk Stat.walk Orelse.walk walkExprs recordedCall?

theorem calls_branches : ∀ (o : Orelse) (n : Int),
    ((branchesOf o n).flatMap (·.2)).flatMap Part.calls = callsAmong o.walk
  | .none, n => rfl
  | .elseif test body orelse, n => by
    have rest := calls_branches orelse (n + 1)
    simp [rest]
  | .block body, n => by simp

theorem calls_exprActions (e : Expr) : (exprActions e).flatMap Action.calls = callsAmong e.walk := by
  cases e with
  | nil | bool | number | string | varargs | name => rfl
  | call callee args last =>
    simp only [exprActions, flatMap_cons, Action.calls, calls_visits, Expr.walk, walkExprs,
      recordedCall?, callsAmong_cons, callsAmong_append]
    split <;> rfl
  | index | invoke | unary | binary | function => simp
  | table first fields =>
    rw [exprActions, calls_fields]
    simp

theorem calls_statActions (s : Stat) : (statActions s).flatMap Action.calls = callsAmong s.walk := by
  cases s with
  | assign first last targets values => simp [walkExprs_append]
  | ifThen test body orelse =>
    simp only [statActions, Action.calls, flatMap_cons, flatMap_append, calls_branches]
    simp
  | breakLoop | goto | label | semicolon | returnNothing => rfl
  | _ => simp

theorem Part.calls_eq (p : Part) : p.actions.flatMap Action.calls = p.calls := by
  cases p with
  | expr e => exact calls_exprActions e
  | field f =>
    obtain ⟨key, value⟩ := f
    simp [Part.actions]
  | stat s => exact calls_statActions s
  | block body => exact calls_stats body

end LuaTune.Analysis
