import LuaTune.Proofs.Analysis.Context
import LuaTune.Proofs.Finding.Kinds

/-!
# Assignments to global names

An assignment is reported unless its target is local to an open scope. No scope is opened for
functions without a name, so it is their parameters, and no other local names, that are taken for
global ones.
-/

namespace LuaTune.Lua

/-- The names that are bound at a place: by declarations, loops and named functions, and as parameters
of functions without a name. -/
structure Bound where
  declared : List String := []
  passed : List String := []

def Bound.declare (b : Bound) (names : List String) : Bound := { b with declared := names ++ b.declared }

def Bound.pass (b : Bound) (names : List String) : Bound := { b with passed := names ++ b.passed }

/-- An assignment to a name, with what is bound where it stands. -/
structure Write where
  name : String
  line : Nat
  bound : Bound

def writeTo? (b : Bound) (line : Nat) : Expr → Option Write
  | .name id => some ⟨id.name, line, b⟩
  | _ => none

/-- The names that a statement declares for those after it in its block. -/
def Stat.declared : Stat → List String
  | .localAssign _ targets _ => targets.map (·.name)
  | .localFunction _ _ id _ _ => [id.name]
  | _ => []

mutual

def Expr.writes (b : Bound) : Expr → List Write
  | .index _ base key => base.writes b ++ key.writes b
  | .call callee args _ => callee.writes b ++ exprsWrite b args
  | .invoke source _ args => source.writes b ++ exprsWrite b args
  | .function _ _ params body => statsWrite (b.pass (Param.names params)) body
  | .table _ fields => fieldsWrite b fields
  | .binary _ left right => left.writes b ++ right.writes b
  | .unary _ _ operand => operand.writes b
  | .nil _ | .bool _ _ | .number _ _ | .string _ _ _ | .varargs | .name _ => []

def exprsWrite (b : Bound) : List Expr → List Write
  | [] => []
  | e :: es => e.writes b ++ exprsWrite b es

def fieldsWrite (b : Bound) : List Field → List Write
  | [] => []
  | f :: fs => f.writes b ++ fieldsWrite b fs

def Field.writes (b : Bound) : Field → List Write
  | .mk key value => key.writes b ++ value.writes b

def Stat.writes (b : Bound) : Stat → List Write
  | .assign first _ targets values =>
    targets.filterMap (writeTo? b first.line) ++ (exprsWrite b targets ++ exprsWrite b values)
  | .localAssign _ _ values | .returnValues _ _ values => exprsWrite b values
  | .expr e => e.writes b
  | .whileLoop test body => test.writes b ++ statsWrite b body
  | .repeatLoop body test =>
    statsWrite b body ++ test.writes (b.declare (body.flatMap Stat.declared))
  | .ifThen test body orelse => test.writes b ++ (statsWrite b body ++ orelse.writes b)
  | .numericFor target bounds body => exprsWrite b bounds ++ statsWrite (b.declare [target.name]) body
  | .genericFor targets iterators body =>
    exprsWrite b iterators ++ statsWrite (b.declare (targets.map (·.name))) body
  | .function _ _ _ _ params body => statsWrite (b.declare (Param.names params)) body
  | .method _ _ _ _ _ params body => statsWrite (b.declare ("self" :: Param.names params)) body
  | .localFunction _ _ id params body =>
    statsWrite ((b.declare [id.name]).declare (Param.names params)) body
  | .block body => statsWrite b body
  | .breakLoop | .goto _ | .label _ | .semicolon | .returnNothing _ _ => []

def statsWrite (b : Bound) : List Stat → List Write
  | [] => []
  | s :: ss => s.writes b ++ statsWrite (b.declare s.declared) ss

def Orelse.writes (b : Bound) : Orelse → List Write
  | .none => []
  | .elseif test body orelse => test.writes b ++ (statsWrite b body ++ orelse.writes b)
  | .block body => statsWrite b body

end

abbrev Chunk.writes (c : Chunk) : List Write := statsWrite {} c

/-- The assignments to names that are bound by nothing but functions without a name. -/
def undeclared (ws : List Write) : List (String × Nat) :=
  (ws.filter fun w => !w.bound.declared.contains w.name).map fun w => (w.name, w.line)

theorem undeclared_append (ws ws' : List Write) : undeclared (ws ++ ws') = undeclared ws ++ undeclared ws' := by
  simp [undeclared]

end LuaTune.Lua

namespace LuaTune.Analysis

open Lua List

/-! ## Names that stay local -/

def Widens (old new : List Scope) : Prop := ∀ (i : Nat) (s : Scope), old[i]? = some s →
    ∃ s', new[i]? = some s' ∧ s'.parent = s.parent ∧ s.locals ⊆ s'.locals

theorem Widens.refl (scopes : List Scope) : Widens scopes scopes :=
  fun _ s hs => ⟨s, hs, rfl, List.Subset.refl _⟩

theorem Widens.trans {a b c : List Scope} (h : Widens a b) (k : Widens b c) : Widens a c := by
  intro i s hs
  obtain ⟨s', hs', parent, locals⟩ := h i s hs
  obtain ⟨s'', hs'', parent', locals'⟩ := k i s' hs'
  exact ⟨s'', hs'', parent'.trans parent, List.Subset.trans locals locals'⟩

theorem widens_modify (scopes : List Scope) (n : Nat) {f : Scope → Scope}
    (hf : ∀ s, (f s).parent = s.parent ∧ s.locals ⊆ (f s).locals) : Widens scopes (scopes.modify n f) := by
  intro i s hs
  rw [getElem?_modify, hs]
  split
  · exact ⟨f s, rfl, hf s⟩
  · exact ⟨s, rfl, rfl, List.Subset.refl _⟩

theorem widens_append (scopes more : List Scope) : Widens scopes (scopes ++ more) := by
  intro i s hs
  exact ⟨s, by rw [List.getElem?_append_left (List.getElem?_eq_some_iff.mp hs).1, hs], rfl, List.Subset.refl _⟩

theorem any_chainWithin {a b : List Scope} (h : Widens a b) {x : String} {n m id : Nat} (order : n ≤ m)
    (found : (chainWithin a n id).any fun p => p.2.locals.contains x) :
    (chainWithin b m id).any fun p => p.2.locals.contains x := by
  induction n generalizing m id with
  | zero => cases found
  | succ n ih =>
    obtain ⟨m, rfl⟩ : ∃ k, m = k + 1 := Nat.exists_eq_succ_of_ne_zero (by omega)
    cases here : a[id]? with
    | none => simp [chainWithin, here] at found
    | some s =>
      obtain ⟨s', here', parent, locals⟩ := h id s here
      have keep : s.locals.contains x → s'.locals.contains x := by
        simpa only [contains_iff_mem] using @locals x
      simp only [chainWithin, here, here', parent] at found ⊢
      cases up : s.parent with
      | none =>
        simp only [up, any_cons, any_nil, Bool.or_false] at found ⊢
        exact keep found
      | some p =>
        simp only [up, any_cons, Bool.or_eq_true] at found ⊢
        exact found.imp keep (ih (by omega))

def Sees (b : Bound) (t : Tracker) : Prop :=
  t.current < t.scopes.length ∧ ∀ x ∈ b.declared, isLocal t.scopes t.current x

structure Extends (t t' : Tracker) : Prop where
  current : t'.current = t.current
  scopes : Widens t.scopes t'.scopes

theorem Extends.trans {t u v : Tracker} (h : Extends t u) (k : Extends u v) : Extends t v :=
  ⟨k.current.trans h.current, h.scopes.trans k.scopes⟩

theorem Extends.sees {b : Bound} {t t' : Tracker} (h : Extends t t') (sees : Sees b t) : Sees b t' := by
  obtain ⟨inside, declared⟩ := sees
  obtain ⟨s', found, -⟩ := h.scopes _ _ (getElem?_eq_getElem inside)
  rw [Sees, h.current]
  exact ⟨(List.getElem?_eq_some_iff.mp found).1, fun x hx => any_chainWithin h.scopes (Nat.le_refl _) (declared x hx)⟩

theorem extends_declare (t : Tracker) (name : String) : Extends t (t.declare name) where
  current := rfl
  scopes := widens_modify _ _ fun s => ⟨rfl, fun x hx => by
    unfold insertNew
    split
    · exact hx
    · exact mem_append_left _ hx⟩

theorem extends_declareAll (t : Tracker) (names : List String) : Extends t (t.declareAll names) := by
  unfold Tracker.declareAll
  induction names generalizing t with
  | nil => exact ⟨rfl, .refl _⟩
  | cons name names ih => exact (extends_declare t name).trans (ih _)

variable {t : Tracker}

theorem isLocal_declare (inside : t.current < t.scopes.length) (name : String) :
    isLocal (t.declare name).scopes t.current name := by
  have here : (t.declare name).scopes[t.current]? =
      some { t.scopes[t.current] with locals := insertNew name t.scopes[t.current].locals } := by
    simp [Tracker.declare, Tracker.updateScope, inside]
  have mem : (insertNew name t.scopes[t.current].locals).contains name := by
    unfold insertNew
    split
    · assumption
    · simp
  unfold isLocal chain
  rw [chainWithin, here]
  dsimp only
  split <;> simp only [any_cons, mem, Bool.true_or]

theorem Sees.declareAll {b : Bound} (h : Sees b t) (names : List String) :
    Sees (b.declare names) (t.declareAll names) := by
  induction names generalizing t with
  | nil => exact h
  | cons name names ih =>
    have one := (extends_declare t name).sees h
    obtain ⟨inside, others⟩ := ih one
    refine ⟨inside, fun x hx => ?_⟩
    rcases mem_cons.mp hx with rfl | hx
    · have first : isLocal (t.declare x).scopes (t.declare x).current x := isLocal_declare h.1 x
      have rest := extends_declareAll (t.declare x) names
      have later := any_chainWithin rest.scopes (Nat.le_refl _) first
      rwa [← rest.current] at later
    · exact others x hx

theorem Sees.enter {b : Bound} (h : Sees b t) (name : String) (line : Nat) (kind : ScopeKind)
    (hot : Bool) : Sees b (t.enter name line kind hot) := by
  obtain ⟨inside, declared⟩ := h
  refine ⟨by simp [Tracker.enter], fun x hx => ?_⟩
  have around (s : Scope) :=
    any_chainWithin (widens_append t.scopes [s]) (m := t.scopes.length) inside (declared x hx)
  unfold isLocal chain Tracker.enter
  simp only [chainWithin, getElem?_concat_length, any_cons, Bool.or_eq_true]
  exact .inr (around _)

variable {name : String}

theorem Extends.exit {t v : Tracker} {line : Nat} {kind : ScopeKind} {hot : Bool}
    {names : List String} (h : Extends ((t.enter name line kind hot).declareAll names) v) (last : Nat) :
    Extends t (v.exit last) := by
  have inner := (extends_declareAll (t.enter name line kind hot) names).trans h
  obtain ⟨s, found, parent, -⟩ := inner.scopes t.scopes.length _ getElem?_concat_length
  have here : v.current = t.scopes.length := inner.current
  rw [exit_eq (here ▸ found) parent]
  refine ⟨rfl, ((widens_append _ _).trans inner.scopes).trans ?_⟩
  exact widens_modify _ _ fun s => ⟨rfl, List.Subset.refl _⟩

/-! ## What a visit reports -/

/-- Between two states no assignments are reported but those to names that no declaration binds. -/
structure Reports (b : Bound) (ws : List Write) (t t' : Tracker) : Prop where
  stays : Extends t t'
  reported : Sees b t → ∃ new, t'.globalWrites = t.globalWrites ++ new ∧ new.Sublist (undeclared ws)

namespace Reports

variable {b : Bound} {ws ws' : List Write} {t u v : Tracker}

theorem followedBy {b' : Bound} (h : Reports b ws t u) (sees : Sees b t → Sees b' u) (k : Reports b' ws' u v) :
    Reports b (ws ++ ws') t v where
  stays := h.stays.trans k.stays
  reported here := by
    obtain ⟨new, first, sub⟩ := h.reported here
    obtain ⟨new', next, sub'⟩ := k.reported (sees here)
    refine ⟨new ++ new', by rw [next, first, append_assoc], ?_⟩
    rw [undeclared_append]
    exact sub.append sub'

theorem andThen (h : Reports b ws t u) (k : Reports b ws' u v) : Reports b (ws ++ ws') t v :=
  h.followedBy h.stays.sees k

theorem declaring (h : Reports b ws t u) : Reports b ws t u ∧ (Sees b t → Sees (b.declare []) u) :=
  ⟨h, h.stays.sees⟩

theorem nothing (stays : Extends t u) (same : u.globalWrites = t.globalWrites) : Reports b [] t u :=
  ⟨stays, fun _ => ⟨[], by rw [same, append_nil], .slnil⟩⟩

theorem aside (current : u.current = t.current) (scopes : u.scopes = t.scopes)
    (same : u.globalWrites = t.globalWrites) : Reports b [] t u :=
  nothing ⟨current, scopes ▸ .refl _⟩ same

theorem globalWrites_declareAll (t : Tracker) (names : List String) :
    (t.declareAll names).globalWrites = t.globalWrites :=
  (congrArg Tracker.globalWrites (log_declareAll t names) :)

theorem globalWrites_exit (t : Tracker) (last : Nat) : (t.exit last).globalWrites = t.globalWrites :=
  (congrArg Tracker.globalWrites (log_exit t last) :)

theorem scope {line : Nat} {kind : ScopeKind} {hot : Bool} {names : List String}
    (h : Reports (b.declare names) ws ((t.enter name line kind hot).declareAll names) v) (last : Nat) :
    Reports b ws t (v.exit last) where
  stays := h.stays.exit last
  reported sees := by
    have written := h.reported ((sees.enter name line kind hot).declareAll names)
    rw [globalWrites_declareAll] at written
    rw [globalWrites_exit]
    exact written

theorem loop {vars : List String} (h : Reports (b.declare vars) ws (t.enterLoop name vars) v) :
    Reports b ws t v.exitLoop := by
  have inner : Reports b ws { t with loopDepth := t.loopDepth + 1 } (v.exit 0) := h.scope 0
  exact ⟨⟨inner.stays.current, inner.stays.scopes⟩, inner.reported⟩

theorem function {line : Nat} {params : List String}
    (h : Reports (b.declare params) ws (t.enterFunction name line params) v) (last : Nat) :
    Reports b ws t (v.exitFunction last) := by
  have inner : Reports b ws { t with functionDepth := t.functionDepth + 1 } (v.exit last) := h.scope last
  exact ⟨⟨inner.stays.current, inner.stays.scopes⟩, inner.reported⟩

/-! Records other than those of assignments report nothing. -/

theorem checkNilAccess (t : Tracker) (source : Expr) (call : String) (line : Nat) :
    Reports b [] t (t.checkNilAccess source call line) := by
  unfold Tracker.checkNilAccess Tracker.setNilSource
  dsimp only
  repeat' split
  all_goals exact aside rfl rfl rfl

theorem recordAssignment (t : Tracker) (target : String) (value : Expr) (line : Nat) (isLocal : Bool) :
    Reports b [] t (t.recordAssignment target value line isLocal) := by
  unfold Tracker.recordAssignment Tracker.recordConcat Tracker.setNilSource Tracker.clearNilSource
  dsimp only
  repeat' split
  all_goals exact aside rfl rfl rfl

theorem recordCopy (t : Tracker) (value : Expr) : Reports b [] t (t.recordCopy value) := by
  have marked (name : String) : Reports b [] t (t.markCached name) :=
    nothing ⟨rfl, widens_modify _ _ fun s => ⟨rfl, List.Subset.refl _⟩⟩ rfl
  unfold Tracker.recordCopy
  repeat' split
  all_goals first | exact marked _ | exact aside rfl rfl rfl

theorem recordLocal (t : Tracker) (targets : List Ident) (values : List Expr) (line : Nat) :
    Reports b [] (t.declareAll (targets.map (·.name))) (t.recordLocal targets values line) := by
  unfold Tracker.recordLocal
  dsimp only
  split
  · exact (recordCopy _ _).andThen (recordAssignment _ _ _ _ _)
  · exact aside rfl rfl rfl

theorem recordLoopFunction (t : Tracker) (name : String) (s : Stat) :
    Reports b [] t (t.recordLoopFunction name s) := by
  unfold Tracker.recordLoopFunction
  split <;> exact aside rfl rfl rfl

theorem recordTarget (t : Tracker) (values : List Expr) (line : Nat) (target : Expr) :
    Reports b (writeTo? b line target).toList t (t.recordTarget values line target) := by
  unfold Tracker.recordTarget
  cases target with
  | name id =>
    have written : Reports b [⟨id.name, line, b⟩] t (if isLocal t.scopes t.current id.name then t
        else { t with globalWrites := t.globalWrites ++ [(id.name, line)] }) := by
      by_cases here : isLocal t.scopes t.current id.name
      · rw [if_pos here]
        exact ⟨⟨rfl, .refl _⟩, fun _ => ⟨[], (append_nil _).symm, nil_sublist _⟩⟩
      · rw [if_neg here]
        refine ⟨⟨rfl, .refl _⟩, fun sees => ⟨[(id.name, line)], rfl, ?_⟩⟩
        have free : id.name ∉ b.declared := fun mem => here (sees.2 _ mem)
        simp [undeclared, free]
    dsimp only
    split
    · exact written.andThen (recordAssignment _ _ _ _ _)
    · exact written
  | _ => exact aside rfl rfl rfl

theorem recordTargets (t : Tracker) (values : List Expr) (line : Nat) (targets : List Expr) :
    Reports b (targets.filterMap (writeTo? b line)) t (targets.foldl (Tracker.recordTarget · values line) t) := by
  induction targets generalizing t with
  | nil => exact aside rfl rfl rfl
  | cons target targets ih =>
    have both := (recordTarget t values line target).andThen (ih (t.recordTarget values line target))
    have split : (target :: targets).filterMap (writeTo? b line) =
        (writeTo? b line target).toList ++ targets.filterMap (writeTo? b line) := by
      cases target <;> rfl
    rw [split]
    exact both

theorem writing {es : List Expr} {t u : Tracker} (h : writing es t = .ok u) : Reports b [] t u := by
  cases writing_eq_ok h
  exact aside rfl rfl rfl

end Reports

/-! ## Visits -/

mutual

theorem visitExpr_reports {b : Bound} : ∀ (e : Expr) {t t' : Tracker}, visitExpr e t = .ok t' →
    Reports b (e.writes b) t t'
  | .nil _, t, t', h | .bool _ _, t, t', h | .number _ _, t, t', h | .string _ _ _, t, t', h
  | .varargs, t, t', h | .name _, t, t', h => by
    cases h
    exact .aside rfl rfl rfl
  | .index _ base key, t, t', h => by
    obtain ⟨u, first, rest⟩ := step_eq_ok h
    exact (visitExpr_reports base first).andThen (visitExpr_reports key rest)
  | .call callee args last, t, t', h => by
    obtain ⟨u, first, rest⟩ := step_eq_ok h
    have recorded : Reports b [] t (recordNamed callee args last t) := by
      unfold recordNamed
      split <;> exact .aside rfl rfl rfl
    exact recorded.andThen ((visitExpr_reports callee first).andThen (visitExprs_reports args rest))
  | .invoke source method args, t, t', h => by
    obtain ⟨u, written, h⟩ := step_eq_ok h
    obtain ⟨v, first, rest⟩ := step_eq_ok h
    have called : Reports b [] u (u.recordCall (source.text ++ ":" ++ method.name) source.text method.name args
      (.invoke source method args)) := .aside rfl rfl rfl
    exact (Reports.writing written).andThen (called.andThen ((Reports.checkNilAccess _ _ _ _).andThen
      ((visitExpr_reports source first).andThen (visitExprs_reports args rest))))
  | .function _ _ params body, t, t', h => by
    have inner := visitStats_reports (b := b.pass (Param.names params)) body h
    exact ⟨inner.1.stays, inner.1.reported⟩
  | .table _ fields, t, t', h => visitFields_reports fields h
  | .binary op left right, t, t', h => by
    obtain ⟨u, first, rest⟩ := step_eq_ok h
    have recorded : Reports b [] t (if op = .concat then t.recordLoopConcat left else t) := by
      unfold Tracker.recordLoopConcat
      split
      · split <;> exact .aside rfl rfl rfl
      · exact .aside rfl rfl rfl
    exact recorded.andThen ((visitExpr_reports left first).andThen (visitExpr_reports right rest))
  | .unary op token operand, t, t', h => by
    rw [visitExpr] at h
    split at h
    · obtain ⟨u, written, rest⟩ := step_eq_ok h
      have recorded : Reports b [] u (u.recordLength token operand) := by
        unfold Tracker.recordLength
        split <;> exact .aside rfl rfl rfl
      exact (Reports.writing written).andThen (recorded.andThen (visitExpr_reports operand rest))
    · exact visitExpr_reports operand h

theorem visitExprs_reports {b : Bound} : ∀ (es : List Expr) {t t' : Tracker}, visitExprs es t = .ok t' →
    Reports b (exprsWrite b es) t t'
  | [], t, t', h => by
    cases h
    exact .aside rfl rfl rfl
  | e :: es, t, t', h => by
    obtain ⟨u, first, rest⟩ := step_eq_ok h
    exact (visitExpr_reports e first).andThen (visitExprs_reports es rest)

theorem visitFields_reports {b : Bound} : ∀ (fs : List Field) {t t' : Tracker}, visitFields fs t = .ok t' →
    Reports b (fieldsWrite b fs) t t'
  | [], t, t', h => by
    cases h
    exact .aside rfl rfl rfl
  | .mk key value :: fs, t, t', h => by
    obtain ⟨u, field, rest⟩ := step_eq_ok h
    obtain ⟨v, first, second⟩ := step_eq_ok field
    exact ((visitExpr_reports key first).andThen (visitExpr_reports value second)).andThen
      (visitFields_reports fs rest)

theorem visitStat_reports {b : Bound} : ∀ (s : Stat) {t t' : Tracker}, visitStat s t = .ok t' →
    Reports b (s.writes b) t t' ∧ (Sees b t → Sees (b.declare s.declared) t')
  | .assign first _ targets values, t, t', h => by
    obtain ⟨u, written, h⟩ := step_eq_ok h
    obtain ⟨v, left, right⟩ := step_eq_ok h
    exact ((Reports.writing (b := b) written).andThen ((Reports.recordTargets _ _ _ _).andThen
      ((visitExprs_reports targets left).andThen (visitExprs_reports values right)))).declaring
  | .localAssign first targets values, t, t', h => by
    obtain ⟨u, written, rest⟩ := step_eq_ok h
    cases writing_eq_ok written
    have after := (Reports.recordLocal t targets values first.line).andThen (visitExprs_reports (b := b) values rest)
    have noted : Reports b [] t (t.declareAll (targets.map (·.name))) :=
      .nothing (extends_declareAll _ _) (Reports.globalWrites_declareAll _ _)
    exact ⟨noted.andThen after, fun sees => after.stays.sees (sees.declareAll _)⟩
  | .expr e, t, t', h => (visitExpr_reports e h).declaring
  | .whileLoop test body, t, t', h => by
    obtain ⟨u, first, h⟩ := step_eq_ok h
    obtain ⟨v, inner, rest⟩ := step_eq_ok h
    cases rest
    exact ((visitExpr_reports test first).andThen (visitStats_reports (b := b.declare []) body inner).1.loop).declaring
  | .repeatLoop body test, t, t', h => by
    obtain ⟨u, inner, h⟩ := step_eq_ok h
    obtain ⟨v, last, rest⟩ := step_eq_ok h
    cases rest
    obtain ⟨first, sees⟩ := visitStats_reports (b := b.declare []) body inner
    exact (first.followedBy sees (visitExpr_reports test last)).loop.declaring
  | .ifThen test body orelse, t, t', h => by
    obtain ⟨u, first, h⟩ := step_eq_ok h
    obtain ⟨v, second, h⟩ := step_eq_ok h
    obtain ⟨w, third, rest⟩ := step_eq_ok h
    cases rest
    have tested := visitExpr_reports (b := b) test first
    have opened : Reports b (test.writes b) t { u with branch := 0 } :=
      ⟨⟨tested.stays.current, tested.stays.scopes⟩, tested.reported⟩
    have whole := opened.andThen ((visitStats_reports body second).1.andThen (visitOrelse_reports orelse third))
    exact ⟨⟨⟨whole.stays.current, whole.stays.scopes⟩, whole.reported⟩, whole.stays.sees⟩
  | .numericFor target bounds body, t, t', h => by
    obtain ⟨u, first, h⟩ := step_eq_ok h
    obtain ⟨v, inner, rest⟩ := step_eq_ok h
    cases rest
    exact ((visitExprs_reports bounds first).andThen (visitStats_reports body inner).1.loop).declaring
  | .genericFor targets iterators body, t, t', h => by
    obtain ⟨u, first, h⟩ := step_eq_ok h
    obtain ⟨v, inner, rest⟩ := step_eq_ok h
    cases rest
    have recorded : Reports b [] t (t.recordIterator targets iterators) := by
      unfold Tracker.recordIterator
      split <;> exact .aside rfl rfl rfl
    exact (recorded.andThen ((visitExprs_reports iterators first).andThen
      (visitStats_reports body inner).1.loop)).declaring
  | .function first last base path params body, t, t', h => by
    obtain ⟨u, inner, rest⟩ := step_eq_ok h
    cases rest
    exact ((Reports.recordLoopFunction _ _ _).andThen
      ((visitStats_reports body inner).1.function last.line)).declaring
  | .method first last base path name params body, t, t', h => by
    obtain ⟨u, inner, rest⟩ := step_eq_ok h
    cases rest
    exact ((visitStats_reports body inner).1.function last.line).declaring
  | .localFunction first last name params body, t, t', h => by
    obtain ⟨u, inner, rest⟩ := step_eq_ok h
    cases rest
    have noted := Reports.recordLoopFunction (b := b) t name.name (.localFunction first last name params body)
    have named := noted.andThen (.nothing (extends_declare _ name.name) rfl)
    have sees (here : Sees b t) := (noted.stays.sees here).declareAll [name.name]
    have inner := (visitStats_reports (b := (b.declare [name.name]).declare (Param.names params)) body
      inner).1.function last.line
    exact ⟨named.followedBy sees inner, fun here => inner.stays.sees (sees here)⟩
  | .block body, t, t', h => (visitStats_reports body h).1.declaring
  | .breakLoop, t, t', h | .goto _, t, t', h | .label _, t, t', h | .semicolon, t, t', h => by
    cases h
    exact ⟨.aside rfl rfl rfl, id⟩
  | .returnNothing _ _, t, t', h => by cases h
  | .returnValues _ _ values, t, t', h => (visitExprs_reports values h).declaring

theorem visitStats_reports {b : Bound} : ∀ (ss : List Stat) {t t' : Tracker}, visitStats ss t = .ok t' →
    Reports b (statsWrite b ss) t t' ∧ (Sees b t → Sees (b.declare (ss.flatMap Stat.declared)) t')
  | [], t, t', h => by
    cases h
    exact ⟨.aside rfl rfl rfl, id⟩
  | s :: ss, t, t', h => by
    obtain ⟨u, first, rest⟩ := step_eq_ok h
    obtain ⟨one, sees⟩ := visitStat_reports (b := b) s first
    obtain ⟨others, more⟩ := visitStats_reports (b := b.declare s.declared) ss rest
    refine ⟨one.followedBy sees others, fun here => ?_⟩
    obtain ⟨inside, declared⟩ := more (sees here)
    refine ⟨inside, fun x hx => declared x ?_⟩
    simp only [Bound.declare, flatMap_cons, mem_append] at hx ⊢
    tauto

theorem visitOrelse_reports {b : Bound} : ∀ (o : Orelse) {n : Int} {t t' : Tracker},
    visitOrelse o n t = .ok t' → Reports b (o.writes b) t t'
  | .none, n, t, t', h => by
    cases h
    exact .aside rfl rfl rfl
  | .elseif test body orelse, n, t, t', h => by
    obtain ⟨u, first, h⟩ := step_eq_ok h
    obtain ⟨v, second, third⟩ := step_eq_ok h
    have tested := visitExpr_reports (b := b) test first
    have opened : Reports b (test.writes b) t u := ⟨⟨tested.stays.current, tested.stays.scopes⟩, tested.reported⟩
    exact opened.andThen ((visitStats_reports body second).1.andThen (visitOrelse_reports orelse third))
  | .block body, n, t, t', h => by
    have inner := (visitStats_reports (b := b) body h).1
    exact ⟨⟨inner.stays.current, inner.stays.scopes⟩, inner.reported⟩

end

theorem visitChunk_reports {c : Chunk} {lines : List Chars} (h : visitChunk c lines = .ok t) :
    t.globalWrites.Sublist (undeclared c.writes) := by
  have sees : Sees {} (.start lines) := ⟨Nat.zero_lt_one, nofun⟩
  obtain ⟨new, written, sub⟩ := (visitStats_reports c h).1.reported sees
  rw [written]
  exact sub

end LuaTune.Analysis

namespace LuaTune

open Lua Analysis Rules List

/-! ## Findings -/

variable {settings : Settings} {t : Tracker} {lines : List Chars}

theorem filter_globalWrites (a : Analyzed) :
    (a.findings settings).filter (·.pattern == "global_write") =
      a.tracker.globalWrites.filterMap (globalWriteFinding? a.tracker.lines) := by
  rw [filter_findings (by decide)]
  simp

def Finding.write (f : Finding) : Option String × Int := (f.details.text? "variable", f.line)

theorem globalWriteFinding?_write (w : String × Nat) : (globalWriteFinding? lines w).map Finding.write =
      if isMeantGlobal w.1 then none else some (some w.1, (w.2 : Int)) := by
  simp only [globalWriteFinding?]
  split
  · rfl
  · rfl

/-- In order, the reported assignments are among those to names that are bound by nothing, or as
parameters of functions without a name only: declarations, loops and named functions are respected. -/
theorem reported_writes_undeclared {source : Chars} {tree : Chunk} {findings : List Finding}
    (parsed : Chunk.parse? source = some tree) (analyzed : analyzeSource settings source = .ok findings) :
    ((findings.filter (·.pattern == "global_write")).map Finding.write).Sublist
      ((tree.writes.filter fun w => !w.bound.declared.contains w.name).map fun w => (some w.name, (w.line : Int))) := by
  obtain ⟨t, visited, same⟩ := exists_visit parsed analyzed
  rw [← same]
  have written : (t.globalWrites.filterMap (globalWriteFinding? t.lines)).map Finding.write =
      (t.globalWrites.filter fun w => !isMeantGlobal w.1).map fun w => (some w.1, (w.2 : Int)) := by
    rw [map_filterMap, ← filterMap_eq_map, ← filterMap_eq_filter, filterMap_filterMap]
    congr 1
    funext w
    rw [globalWriteFinding?_write]
    cases meant : isMeantGlobal w.1 <;> simp [meant, Option.guard]
  have kept := (filter_sublist (p := fun w => !isMeantGlobal w.1)).trans (visitChunk_reports visited)
  rw [filter_globalWrites, written]
  simpa [undeclared, Function.comp_def] using kept.map fun w : String × Nat => (some w.1, (w.2 : Int))

def assignedTwice : Chars := "local a = 1\na = 2\nb = 3\n".toList

theorem assignedTwice_reported : ∃ tree findings, Chunk.parse? assignedTwice = some tree ∧
    analyzeSource {} assignedTwice = .ok findings ∧ tree.writes.map (·.name) = ["a", "b"] ∧
    (findings.filter (·.pattern == "global_write")).length = 1 ∧
    ((findings.filter (·.pattern == "global_write")).map Finding.write).Sublist [(some "b", 3)] := by
  have checked : analysisPasses assignedTwice fun tree findings =>
      decide (tree.writes.map (·.name) = ["a", "b"]) &&
        (findings.filter (·.pattern == "global_write")).length == 1 &&
        decide (undeclared tree.writes = [("b", 3)]) := by decide +kernel
  obtain ⟨tree, findings, parsed, analyzed, passed⟩ := of_analysisPasses checked
  simp only [Bool.and_eq_true, decide_eq_true_eq, beq_iff_eq] at passed
  obtain ⟨⟨names, one⟩, unbound⟩ := passed
  refine ⟨tree, findings, parsed, analyzed, names, one, (reported_writes_undeclared parsed analyzed).trans ?_⟩
  have written := congrArg (List.map fun w : String × Nat => (some w.1, (w.2 : Int))) unbound
  rw [undeclared, map_map] at written
  exact written ▸ .refl _

def assignedParameter : Chars := "f(function(x) x = 1 end)\n".toList

theorem assignedParameter_reported : ∃ tree findings, Chunk.parse? assignedParameter = some tree ∧
    tree.writes.map (fun w => (w.name, w.bound.passed)) = [("x", ["x"])] ∧
    analyzeSource {} assignedParameter = .ok findings ∧
    (findings.filter (·.pattern == "global_write")).map Finding.write = [(some "x", 1)] := by
  have checked : analysisPasses assignedParameter fun tree findings =>
      decide (tree.writes.map (fun w => (w.name, w.bound.passed)) = [("x", ["x"])]) &&
        decide ((findings.filter (·.pattern == "global_write")).map Finding.write = [(some "x", 1)]) := by
    decide +kernel
  obtain ⟨tree, findings, parsed, analyzed, passed⟩ := of_analysisPasses checked
  simp only [Bool.and_eq_true, decide_eq_true_eq] at passed
  exact ⟨tree, findings, parsed, passed.1, analyzed, passed.2⟩

end LuaTune
