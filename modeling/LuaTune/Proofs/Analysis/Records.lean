import LuaTune.Lua.Syntax.Parse
import LuaTune.Proofs.Analysis.Actions

/-!
# What a visit records

`Frames.visit` packs the induction over a visit: a relation between states that loops, functions and
conditionals keep to, and the records of all parts, holds between the start and the end of every
visit. `Follows.visit` is the case that nothing has to be known about the parts.
-/

namespace LuaTune.Analysis

open Lua LuaTune.Analysis.Action List

def Scope.frame (s : Scope) : Scope := { s with locals := [], cached := [] }

def Tracker.loop? (t : Tracker) : Option ScopeId :=
  if t.loopDepth > 0 then ((chain t.scopes t.current).find? fun p => p.2.kind == .loop).map (·.1)
  else none

/-- A tracker without the records that say nothing about calls, assignments and concatenations. -/
def Tracker.core (t : Tracker) : Tracker :=
  { t with globalWrites := [], nilSources := [], loopFunctions := [], lengthUses := [], iteratorLoops := [] }

def Call.Names (c : Call) : Expr → Prop
  | .call callee args _ => Tracker.calleeName? callee = some (c.module, c.func, c.fullName) ∧ c.args = args
  | .invoke source method args =>
    c.fullName = source.text ++ ":" ++ method.name ∧ c.func = method.name ∧ c.args = args
  | _ => False

structure Call.IsTrue (c : Call) : Prop where
  names : c.Names c.node
  line : c.line = c.node.line

def Part.named : Part → List String
  | .expr (.invoke source _ _) => [source.text]
  | .stat (.assign _ _ targets _) => textsOf targets
  | .stat (.localAssign _ targets _) => targets.map (·.name)
  | _ => []

/-- The records that are made of a part are true to it and to the place where the visit stands, and
the visit stays there. The list holds the calls among them. -/
inductive Records (p : Part) : List Expr → Tracker → Tracker → Prop where
  | call (t : Tracker) (c : Call) (here : c.scope = t.current) (depth : c.loopDepth = t.loopDepth)
    (said : c.IsTrue) (own : p = .expr c.node) (conditional : c.conditional = t.conditional)
    (branch : c.branch = t.branch) : Records p [c.node] t { t with calls := t.calls ++ [c] }
  | assign (t : Tracker) (a : Assignment) (here : a.scope = t.current)
    (depth : a.inLoop = decide (t.loopDepth > 0)) : Records p [] t { t with assigns := t.assigns ++ [a] }
  | concat (t : Tracker) (k : Concat) (here : k.scope = t.current) (depth : k.loopDepth = t.loopDepth)
    (inLoop : k.inLoop = decide (t.loopDepth > 0)) (loop : k.target.isSome → k.loopScope = t.loop?)
    (named : ∀ v, k.target = some v → v ∈ p.named) : Records p [] t { t with concats := t.concats ++ [k] }
  | access (t : Tracker) (u : NilAccess) (named : u.var ∈ p.named) :
    Records p [] t { t with nilAccesses := t.nilAccesses ++ [u] }
  | names (t : Tracker) (f : Scope → Scope) (hf : ∀ s, (f s).frame = s.frame) :
    Records p [] t (t.updateScope f)
  | aside {t t' : Tracker} (same : t'.core = t.core) : Records p [] t t'
  | andThen {as bs : List Expr} {t u v : Tracker} (first : Records p as t u) (next : Records p bs u v) :
    Records p (as ++ bs) t v

theorem step_eq_ok {x : Step} {f : Tracker → Step} {t : Tracker} (h : x >>= f = .ok t) :
    ∃ u, x = .ok u ∧ f u = .ok t := by
  cases x with
  | error e => cases h
  | ok u => exact ⟨u, rfl, h⟩

variable {t t' : Tracker}

theorem writing_eq_ok {es : List Expr} (h : writing es t = .ok t') : t' = t := by
  unfold writing at h
  split at h
  · exact (Except.ok.inj h).symm
  · cases h

theorem writing_step {es : List Expr} {f : Tracker → Tracker}
    (h : (do return f (← writing es t)) = (.ok t' : Step)) : t' = f t := by
  obtain ⟨u, written, run⟩ := step_eq_ok h
  cases writing_eq_ok written
  exact (Except.ok.inj run).symm

theorem isDirectCallee_eq (e : Expr) : isDirectCallee e = (Tracker.calleeName? e).isSome := by
  unfold isDirectCallee
  split
  · rfl
  · rfl
  · next notName notField =>
    unfold Tracker.calleeName?
    split
    · exact absurd rfl (notName _)
    · exact absurd rfl (notField _ _ _)
    · rfl

namespace Records

variable {p : Part}

theorem nothing (t : Tracker) : Records p [] t t := .aside rfl

variable (t : Tracker)

theorem declare (name : String) : Records p [] t (t.declare name) := .names t _ fun _ => rfl

theorem declareAll (names : List String) : Records p [] t (t.declareAll names) := by
  unfold Tracker.declareAll
  induction names generalizing t with
  | nil => exact .nothing t
  | cons name names ih => exact (declare t name).andThen (ih _)

theorem markCached (name : String) : Records p [] t (t.markCached name) := .names t _ fun _ => rfl

theorem setNilSource (n : NilSource) : Records p [] t (t.setNilSource n) := by
  unfold Tracker.setNilSource
  dsimp only
  split
  · exact .aside rfl
  · exact .aside rfl

theorem clearNilSource (var : String) : Records p [] t (t.clearNilSource var) := .aside rfl

theorem checkNilAccess {source : Expr} (named : source.text ∈ p.named) (call : String) (line : Nat) :
    Records p [] t (t.checkNilAccess source call line) := by
  unfold Tracker.checkNilAccess
  split
  · split
    · exact .nothing t
    · split
      · exact .setNilSource t _
      · exact .access t _ named
  · exact .nothing t

theorem recordCall {fullName : String} {module : Option String} {func : String} {args : List Expr}
    {node : Expr} (own : p = .expr node)
    (said : ∀ c : Call, c.fullName = fullName → c.module = module → c.func = func → c.args = args →
      c.Names node) : Records p [node] t (t.recordCall fullName module func args node) :=
  .call t ⟨fullName, module, func, args, node.line, node, _, _, _, _⟩ rfl rfl ⟨said _ rfl rfl rfl rfl, rfl⟩ own
    rfl rfl

theorem recordNamed (callee : Expr) (args : List Expr) (last : Option Token) :
    Records (.expr (.call callee args last)) (if isDirectCallee callee then [.call callee args last] else []) t
      (recordNamed callee args last t) := by
  rw [isDirectCallee_eq]
  unfold Analysis.recordNamed
  cases named : Tracker.calleeName? callee with
  | none => exact .nothing t
  | some c => exact .recordCall t rfl fun c full module func same => ⟨by rw [named, full, module, func], same⟩

theorem recordInvoke (source : Expr) (method : Ident) (args : List Expr) {t' : Tracker}
    (run : recordInvoke source method args t = .ok t') :
    Records (.expr (.invoke source method args)) [.invoke source method args] t t' := by
  cases writing_step run
  have called : Records (.expr (.invoke source method args)) [.invoke source method args] t
      (t.recordCall (source.text ++ ":" ++ method.name) source.text method.name args (.invoke source method args)) :=
    recordCall t rfl fun c full _ func same => ⟨full, func, same⟩
  exact called.andThen (.checkNilAccess _ (mem_singleton.mpr rfl) _ _)

theorem recordConcat {target : String} (named : target ∈ p.named) (value : Expr) (line : Nat) :
    Records p [] t (t.recordConcat target value line) := by
  unfold Tracker.recordConcat
  split
  · exact .concat t _ rfl rfl rfl (fun _ => rfl) fun v same => Option.some.inj same ▸ named
  · exact .nothing t

theorem recordAssignment {target : String} (named : target ∈ p.named) (value : Expr) (line : Nat)
    (isLocal : Bool) : Records p [] t (t.recordAssignment target value line isLocal) := by
  unfold Tracker.recordAssignment
  have noted := (recordConcat t named value line).andThen (.assign _
    ⟨target, Tracker.valueKind value, value.text, line, _, isLocal, _⟩ rfl rfl)
  split
  · exact noted.andThen (.setNilSource _ _)
  · exact noted.andThen (.clearNilSource _ _)

theorem recordCopy (value : Expr) : Records p [] t (t.recordCopy value) := by
  unfold Tracker.recordCopy
  split
  · split
    · exact .markCached t _
    · exact .nothing t
  · split
    · exact .markCached t _
    · exact .nothing t
  · exact .nothing t

theorem recordLocal {targets : List Ident} (named : ∀ id ∈ targets, id.name ∈ p.named) (values : List Expr)
    (line : Nat) : Records p [] t (t.recordLocal targets values line) := by
  unfold Tracker.recordLocal
  have declared := declareAll (p := p) t (targets.map (·.name))
  split
  · exact declared.andThen ((recordCopy _ _).andThen (.recordAssignment _ (named _ mem_cons_self) _ _ _))
  · exact declared

theorem recordTarget {target : Expr} (named : target.text ∈ p.named) (values : List Expr) (line : Nat) :
    Records p [] t (t.recordTarget values line target) := by
  unfold Tracker.recordTarget
  split
  · next id =>
    have written : Records p [] t (if isLocal t.scopes t.current id.name then t
        else { t with globalWrites := t.globalWrites ++ [(id.name, line)] }) := by
      split
      · exact .nothing t
      · exact .aside rfl
    rcases values with _ | ⟨value, _ | ⟨_, _⟩⟩
    · exact written
    · exact written.andThen (.recordAssignment _ named _ _ _)
    · exact written
  · exact .nothing t

theorem recordTargets {targets : List Expr} (named : ∀ s ∈ textsOf targets, s ∈ p.named) (values : List Expr)
    (line : Nat) : Records p [] t (targets.foldl (Tracker.recordTarget · values line) t) := by
  induction targets generalizing t with
  | nil => exact .nothing t
  | cons target targets ih =>
    obtain ⟨first, others⟩ := forall_mem_cons.mp named
    exact (recordTarget t first values line).andThen (ih _ others)

theorem recordLoopFunction (name : String) (node : Stat) :
    Records p [] t (t.recordLoopFunction name node) := by
  unfold Tracker.recordLoopFunction
  split
  · exact .aside rfl
  · exact .nothing t

theorem recordIterator (targets : List Ident) (iterators : List Expr) :
    Records p [] t (t.recordIterator targets iterators) := by
  unfold Tracker.recordIterator
  split
  · exact .aside rfl
  · exact .nothing t

theorem recordLoopConcat (left : Expr) : Records p [] t (t.recordLoopConcat left) := by
  unfold Tracker.recordLoopConcat
  split
  · next inLoop => exact .concat t _ rfl rfl (by simp [inLoop]) (fun h => nomatch h) nofun
  · exact .nothing t

theorem recordLength (token : Token) (operand : Expr) :
    Records p [] t (t.recordLength token operand) := by
  unfold Tracker.recordLength
  split
  · exact .aside rfl
  · exact .nothing t

end Records

def Action.RecordsBy (R : List Expr → Tracker → Tracker → Prop) : Action → Prop
  | .record calls f => ∀ t t', f t = .ok t' → R calls t t'
  | _ => True

section

variable {R : List Expr → Tracker → Tracker → Prop}

theorem Action.RecordsBy.mono {S : List Expr → Tracker → Tracker → Prop} {a : Action} (h : a.RecordsBy R)
    (weaker : ∀ {calls t t'}, R calls t t' → S calls t t') : a.RecordsBy S := by
  cases a with
  | record calls f => exact fun t t' run => weaker (h t t' run)
  | visit | loop | function | conditional => trivial

theorem recordsBy_note {f : Tracker → Tracker} (h : ∀ t, R [] t (f t)) : (note f).RecordsBy R := by
  intro t t' run
  cases run
  exact h t

theorem recordsBy_visits (es : List Expr) : ∀ a ∈ visits es, a.RecordsBy R := by
  intro a ha
  obtain ⟨e, -, rfl⟩ := mem_map.mp ha
  trivial

end

theorem records_exprActions (e : Expr) : ∀ a ∈ exprActions e, a.RecordsBy (Records (.expr e)) := by
  cases e with
  | nil | bool | number | string | varargs | name => intro a ha; cases ha
  | index form base key => exact recordsBy_visits _
  | call callee args last =>
    refine forall_mem_cons.mpr ⟨fun t t' run => ?_, recordsBy_visits _⟩
    cases run
    exact .recordNamed t callee args last
  | invoke source method args =>
    exact forall_mem_cons.mpr ⟨fun t t' => .recordInvoke t source method args, recordsBy_visits _⟩
  | function | table => simp [exprActions, RecordsBy]
  | binary op left right =>
    refine forall_mem_cons.mpr ⟨recordsBy_note fun t => ?_, recordsBy_visits _⟩
    split
    · exact .recordLoopConcat t left
    · exact .nothing t
  | unary op token operand =>
    refine forall_mem_cons.mpr ⟨fun t t' run => ?_, recordsBy_visits _⟩
    unfold recordOperand at run
    split at run
    · cases writing_step run
      exact .recordLength _ _ _
    · cases run
      exact .nothing t

theorem records_statActions (s : Stat) : ∀ a ∈ statActions s, a.RecordsBy (Records (.stat s)) := by
  cases s with
  | assign first last targets values =>
    refine forall_mem_cons.mpr ⟨fun t t' run => ?_, recordsBy_visits _⟩
    cases writing_step run
    exact .recordTargets _ (fun _ => id) _ _
  | localAssign first targets values =>
    refine forall_mem_cons.mpr ⟨fun t t' run => ?_, recordsBy_visits _⟩
    cases writing_step run
    exact .recordLocal _ (fun _ => mem_map_of_mem) _ _
  | expr e => exact recordsBy_visits _
  | whileLoop | repeatLoop | ifThen | method | block | returnNothing => simp [statActions, RecordsBy]
  | numericFor target bounds body =>
    refine forall_mem_append.mpr ⟨recordsBy_visits _, ?_⟩
    simp [RecordsBy]
  | genericFor targets iterators body =>
    refine forall_mem_cons.mpr ⟨recordsBy_note fun t => .recordIterator t targets iterators, ?_⟩
    refine forall_mem_append.mpr ⟨recordsBy_visits _, ?_⟩
    simp [RecordsBy]
  | function first last base path params body =>
    refine forall_mem_cons.mpr ⟨recordsBy_note fun t => .recordLoopFunction t _ _, ?_⟩
    simp [RecordsBy]
  | localFunction first last name params body =>
    refine forall_mem_cons.mpr ⟨recordsBy_note fun t => ?_, ?_⟩
    · exact (Records.recordLoopFunction t _ _).andThen (.declare _ _)
    · simp [RecordsBy]
  | breakLoop | goto | label | semicolon => intro a ha; cases ha
  | returnValues first last values => exact recordsBy_visits _

theorem records_actions (p : Part) : ∀ a ∈ p.actions, a.RecordsBy (Records p) := by
  cases p with
  | expr e => exact records_exprActions e
  | field f =>
    obtain ⟨key, value⟩ := f
    exact recordsBy_visits _
  | stat s => exact records_statActions s
  | block body => simp [Part.actions, RecordsBy]

/-! ## Relations that every visit keeps to -/

/-- A relation between states, and the calls recorded between them, that loops, functions and
conditionals keep to if what is visited in them does. -/
structure Frames (R : List Expr → Tracker → Tracker → Prop) : Prop where
  nothing (t : Tracker) : R [] t t
  andThen {as bs : List Expr} {t u v : Tracker} (h : R as t u) (k : R bs u v) : R (as ++ bs) t v
  loop {calls : List Expr} {t v : Tracker} {name : String} {vars : List String}
    (h : R calls (t.enterLoop name vars) v) : R calls t v.exitLoop
  function {calls : List Expr} {t v : Tracker} {name : String} {first : Nat} {params : List String}
    (h : R calls (t.enterFunction name first params) v) (last : Nat) : R calls t (v.exitFunction last)
  branch {calls : List Expr} {t v : Tracker} (h : R calls t v) (b : Int) :
    R calls { t with branch := b } { v with branch := b }
  conditional {calls : List Expr} {t v : Tracker} {b : Int}
    (h : R calls { t.openConditional with branch := b } v) :
    R calls t { v with conditional := t.conditional, branch := t.branch }

def Tracker.log (t : Tracker) : Tracker := { t with
    scopes := [], current := 0, loopDepth := 0, functionDepth := 0, conditional := none, branch := 0
    conditionals := 0 }

theorem log_declareAll (t : Tracker) (names : List String) : (t.declareAll names).log = t.log := by
  unfold Tracker.declareAll
  induction names generalizing t with
  | nil => rfl
  | cons name names ih => exact ih _

theorem log_exit (t : Tracker) (line : Nat) : (t.exit line).log = t.log := by
  unfold Tracker.exit
  dsimp only
  split <;> rfl

variable {R : List Expr → Tracker → Tracker → Prop}

/-- A relation between what was recorded does not see loops, functions and conditionals. -/
theorem frames_of_log (nothing : ∀ t, R [] t t)
    (andThen : ∀ {as bs : List Expr} {t u v : Tracker}, R as t u → R bs u v → R (as ++ bs) t v) :
    Frames fun calls t t' => R calls t.log t'.log where
  nothing t := nothing t.log
  andThen := andThen
  loop {calls t v name vars} h := by
    have entered : (t.enterLoop name vars).log = t.log := log_declareAll _ vars
    have left : v.exitLoop.log = v.log := log_exit v 0
    rwa [left, ← entered]
  function {calls t v name first params} h last := by
    have entered : (t.enterFunction name first params).log = t.log := log_declareAll _ params
    have left : (v.exitFunction last).log = v.log := log_exit v last
    rwa [left, ← entered]
  branch h _ := h
  conditional h := h

structure Follows (R : List Expr → Tracker → Tracker → Prop) : Prop extends Frames R where
  records {p : Part} {calls : List Expr} {t t' : Tracker} (h : Records p calls t t') : R calls t t'
  nothing t := records (.nothing (p := .block []) t)

namespace Frames

variable {R : List Expr → Tracker → Tracker → Prop} (F : Frames R)
variable {t t' : Tracker}

include F

theorem visitParts {ps : List Part} (each : ∀ p ∈ ps, ∀ t t', p.visit t = .ok t' → R p.calls t t')
    (h : visitParts ps t = .ok t') : R (ps.flatMap Part.calls) t t' := by
  induction ps generalizing t with
  | nil =>
    cases h
    exact F.nothing _
  | cons p ps ih =>
    obtain ⟨u, first, rest⟩ := step_eq_ok h
    rw [forall_mem_cons] at each
    exact F.andThen (each.1 t u first) (ih each.2 rest)

theorem visitBranches {bs : Branches}
    (each : ∀ p ∈ bs.flatMap (·.2), ∀ t t', p.visit t = .ok t' → R p.calls t t')
    (h : visitBranches bs t = .ok t') :
    ∃ b, R ((bs.flatMap (·.2)).flatMap Part.calls) { t with branch := b } t' := by
  induction bs generalizing t with
  | nil =>
    cases h
    exact ⟨_, F.nothing _⟩
  | cons branch bs ih =>
    obtain ⟨u, first, rest⟩ := step_eq_ok h
    rw [flatMap_cons, forall_mem_append] at each
    obtain ⟨b, others⟩ := ih each.2 rest
    refine ⟨b, ?_⟩
    rw [flatMap_cons, flatMap_append]
    exact F.andThen (F.branch (F.visitParts each.1 first) b) others

theorem run {a : Action} (here : a.RecordsBy R)
    (each : ∀ p ∈ a.parts, ∀ t t', p.visit t = .ok t' → R p.calls t t') (h : a.run t = .ok t') :
    R a.calls t t' := by
  cases a with
  | record calls f => exact here t t' h
  | visit p => exact each p mem_cons_self t t' h
  | loop name vars parts =>
    obtain ⟨u, inner, rest⟩ := step_eq_ok h
    cases rest
    exact F.loop (F.visitParts each inner)
  | function name first last params body =>
    obtain ⟨u, inner, rest⟩ := step_eq_ok h
    cases rest
    exact F.function (each (.block body) mem_cons_self _ _ inner) last
  | conditional test branches =>
    obtain ⟨u, first, rest⟩ := step_eq_ok h
    obtain ⟨v, others, rest⟩ := step_eq_ok rest
    cases rest
    have tested := each (.expr test) mem_cons_self _ _ first
    obtain ⟨b, branched⟩ := F.visitBranches (fun p hp => each p (mem_cons_of_mem _ hp)) others
    exact F.conditional (F.andThen (F.branch tested b) branched)

theorem runActions {as : List Action} (here : ∀ a ∈ as, a.RecordsBy R)
    (each : ∀ p ∈ as.flatMap Action.parts, ∀ t t', p.visit t = .ok t' → R p.calls t t')
    (h : runActions as t = .ok t') : R (as.flatMap Action.calls) t t' := by
  induction as generalizing t with
  | nil =>
    cases h
    exact F.nothing _
  | cons a as ih =>
    obtain ⟨u, first, rest⟩ := step_eq_ok h
    rw [forall_mem_cons] at here
    rw [flatMap_cons, forall_mem_append] at each
    exact F.andThen (F.run here.1 each.1 first) (ih here.2 each.2 rest)

/-- The relation need only hold of the records of some parts, if all parts of these are such again. -/
theorem visit (Good : Part → Prop) (below : ∀ p, Good p → ∀ q ∈ p.parts, Good q)
    (here : ∀ p, Good p → ∀ a ∈ p.actions, a.RecordsBy R) (p : Part) (good : Good p) :
    ∀ t t', p.visit t = .ok t' → R p.calls t t' := by
  induction p using Part.induction with
  | step p each =>
    intro t t' h
    rw [p.visit_eq] at h
    rw [← p.calls_eq]
    exact F.runActions (here p good) (fun q hq => each q hq (below p good q hq)) h

end Frames

theorem Follows.recordsBy (F : Follows R) (p : Part) :
    ∀ a ∈ p.actions, a.RecordsBy R :=
  fun a ha => (records_actions p a ha).mono F.records

theorem Follows.visit (F : Follows R) (p : Part) :
    ∀ t t', p.visit t = .ok t' → R p.calls t t' :=
  F.toFrames.visit (fun _ => True) (fun _ _ _ _ => trivial) (fun p _ => F.recordsBy p) p trivial

/-! ## Calls -/

def AddsCalls (calls : List Expr) (t t' : Tracker) : Prop :=
  t'.calls.map (·.node) = t.calls.map (·.node) ++ calls

theorem AddsCalls.of_same (h : t'.calls = t.calls) : AddsCalls [] t t' := by
  rw [AddsCalls, h, append_nil]

theorem AddsCalls.andThen {as bs : List Expr} {t u v : Tracker} (h : AddsCalls as t u)
    (k : AddsCalls bs u v) : AddsCalls (as ++ bs) t v := by
  unfold AddsCalls at h k ⊢
  rw [k, h, append_assoc]

theorem AddsCalls.of_records {p : Part} {calls : List Expr} (h : Records p calls t t') :
    AddsCalls calls t t' := by
  induction h with
  | call t c => simp [AddsCalls]
  | assign | concat | access | names => exact .of_same rfl
  | aside same =>
    have calls := congrArg (fun t : Tracker => t.calls) same
    exact .of_same calls
  | andThen _ _ ih ih' => exact ih.andThen ih'

theorem follows_addsCalls : Follows AddsCalls where
  toFrames := frames_of_log (R := AddsCalls) (fun _ => .of_same rfl) .andThen
  records := .of_records

def AddsTrueCalls (t t' : Tracker) : Prop := (∀ c ∈ t.calls, c.IsTrue) → ∀ c ∈ t'.calls, c.IsTrue

theorem AddsTrueCalls.of_records {p : Part} {calls : List Expr} (h : Records p calls t t') :
    AddsTrueCalls t t' := by
  induction h with
  | call t c here depth said => exact fun old => forall_mem_append.mpr ⟨old, forall_mem_singleton.mpr said⟩
  | assign | concat | access | names => exact id
  | aside same =>
    have calls := congrArg (fun t : Tracker => t.calls) same
    exact fun old => (show _ = _ from calls) ▸ old
  | andThen _ _ ih ih' => exact ih' ∘ ih

theorem follows_addsTrueCalls : Follows fun _ => AddsTrueCalls where
  toFrames := frames_of_log (R := fun _ => AddsTrueCalls) (fun _ => id) fun h k => k ∘ h
  records := .of_records

theorem calls_isTrue {c : Chunk} {lines : List Chars} {t : Tracker}
    (h : visitChunk c lines = .ok t) : ∀ call ∈ t.calls, call.IsTrue :=
  follows_addsTrueCalls.visit (.block c) _ t h nofun

theorem recordedCall?_eq_some {n : Node} {e : Expr} (h : recordedCall? n = some e) : n = .expr e := by
  unfold recordedCall? at h
  split at h
  · exact congrArg Node.expr (Option.some.inj h)
  · split at h
    · exact congrArg Node.expr (Option.some.inj h)
    · cases h
  · cases h

theorem node_mem_walk {c : Chunk} {lines : List Chars} {t : Tracker}
    (h : visitChunk c lines = .ok t) : ∀ call ∈ t.calls, Node.expr call.node ∈ c.walk := by
  have nodes : t.calls.map (·.node) = callsAmong c.walk := follows_addsCalls.visit (.block c) _ t h
  intro call hc
  have among : call.node ∈ callsAmong c.walk := nodes ▸ mem_map_of_mem hc
  obtain ⟨n, hn, recorded⟩ := mem_filterMap.mp among
  exact recordedCall?_eq_some recorded ▸ hn

/-- The calls recorded are those of methods and those whose callee is a name or a field of a name,
wherever they stand: each node of the tree that is such a call is recorded once, in the order of the
nodes. -/
theorem calls_recorded_once {c : Chunk} {lines : List Chars} {t : Tracker}
    (h : visitChunk c lines = .ok t) : t.calls.map (·.node) = c.walk.filterMap recordedCall? := by
  have added : t.calls.map (·.node) = callsAmong (walkStats c) :=
    follows_addsCalls.visit (.block c) _ t h
  rw [added]
  rfl

/-- Calls in tests, bounds, targets, keys and functions without a name; the last two are calls of
something else than a name. -/
def scatteredCalls : Chunk :=
  (Chunk.parse? ("if f() then elseif a:b() then for i = f(), g.h() do t[f()] = " ++
    "\x7b[f()] = function() return f(f)(f()) end\x7d end else a.b.c() end\n").toList).getD []

theorem scatteredCalls_recorded : ∃ t, visitChunk scatteredCalls [] = .ok t ∧ t.calls.length = 8 ∧
    t.calls.map (·.node) = scatteredCalls.walk.filterMap recordedCall? := by
  have ends : (visitChunk scatteredCalls []).isOk := by decide +kernel
  have number : (scatteredCalls.walk.filterMap recordedCall?).length = 8 := by decide +kernel
  cases visit : visitChunk scatteredCalls [] with
  | error e =>
    rw [visit] at ends
    cases ends
  | ok t =>
    have recorded := calls_recorded_once visit
    exact ⟨t, rfl, by rw [← number, ← recorded, length_map], recorded⟩

end LuaTune.Analysis
