import LuaTune.Proofs.Finding.BranchCounts

/-!
# Calls on a path

A path takes one branch of each conditional, or none, after the tests up to it. A call in the first
test is recorded with the branch around the conditional, and one in a later test with that of the
test, though all the branches after a test are reached through it. So the count that tells branches
apart may fall short of a path, but by no more than the calls that stand in such tests.
-/

namespace LuaTune.Analysis

open Lua LuaTune.Analysis.Action List

/-! ## Where calls stand -/

/-- A place in a conditional: one of its tests, what follows a test, or what comes if no test holds. -/
inductive Spot where
  | test (i : Nat)
  | body (i : Nat)
  | orelse

/-- A conditional around a call; conditionals are numbered in the order in which they are met. -/
structure Guard where
  conditional : Nat
  place : Spot

/-- A call that is recorded, and the conditionals around it, the innermost one first. -/
structure Site where
  call : Expr
  guards : List Guard

/-- Sites in order, given the number of the next conditional, and the number of the one after them. -/
abbrev Sites := Nat → List Site × Nat

namespace Sites

def none : Sites := fun n => ([], n)

def andThen (f g : Sites) : Sites := fun n =>
  ((f n).1 ++ (g (f n).2).1, (g (f n).2).2)

def ofCalls (gs : List Guard) (calls : List Expr) : Sites := fun n => (calls.map (⟨·, gs⟩), n)

end Sites

mutual

def exprSites (gs : List Guard) : Expr → Sites
  | .index _ base key => (exprSites gs base).andThen (exprSites gs key)
  | .call callee args last =>
    (Sites.ofCalls gs (if isDirectCallee callee then [.call callee args last] else [])).andThen
      ((exprSites gs callee).andThen (exprsSites gs args))
  | .invoke source method args =>
    (Sites.ofCalls gs [.invoke source method args]).andThen
      ((exprSites gs source).andThen (exprsSites gs args))
  | .function _ _ _ body => statsSites gs body
  | .table _ fields => fieldsSites gs fields
  | .binary _ left right => (exprSites gs left).andThen (exprSites gs right)
  | .unary _ _ operand => exprSites gs operand
  | .nil _ | .bool _ _ | .number _ _ | .string _ _ _ | .varargs | .name _ => .none

def exprsSites (gs : List Guard) : List Expr → Sites
  | [] => .none
  | e :: es => (exprSites gs e).andThen (exprsSites gs es)

def fieldsSites (gs : List Guard) : List Field → Sites
  | [] => .none
  | f :: fs => (fieldSites gs f).andThen (fieldsSites gs fs)

def fieldSites (gs : List Guard) : Field → Sites
  | .mk key value => (exprSites gs key).andThen (exprSites gs value)

def statSites (gs : List Guard) : Stat → Sites
  | .assign _ _ targets values => (exprsSites gs targets).andThen (exprsSites gs values)
  | .localAssign _ _ values | .returnValues _ _ values => exprsSites gs values
  | .expr e => exprSites gs e
  | .whileLoop test body => (exprSites gs test).andThen (statsSites gs body)
  | .repeatLoop body test => (statsSites gs body).andThen (exprSites gs test)
  | .ifThen test body orelse => fun n =>
    (exprSites (⟨n, .test 0⟩ :: gs) test).andThen
      ((statsSites (⟨n, .body 0⟩ :: gs) body).andThen (orelseSites gs n 1 orelse)) (n + 1)
  | .numericFor _ bounds body => (exprsSites gs bounds).andThen (statsSites gs body)
  | .genericFor _ iterators body => (exprsSites gs iterators).andThen (statsSites gs body)
  | .function _ _ _ _ _ body | .method _ _ _ _ _ _ body | .localFunction _ _ _ _ body | .block body =>
    statsSites gs body
  | .breakLoop | .goto _ | .label _ | .semicolon | .returnNothing _ _ => .none

def statsSites (gs : List Guard) : List Stat → Sites
  | [] => .none
  | s :: ss => (statSites gs s).andThen (statsSites gs ss)

def orelseSites (gs : List Guard) (n i : Nat) : Orelse → Sites
  | .none => .none
  | .elseif test body orelse =>
    (exprSites (⟨n, .test i⟩ :: gs) test).andThen
      ((statsSites (⟨n, .body i⟩ :: gs) body).andThen (orelseSites gs n (i + 1) orelse))
  | .block body => statsSites (⟨n, .orelse⟩ :: gs) body

end

def callSites (c : Chunk) : List Site := (statsSites [] c 0).1

/-! ## Paths -/

inductive Taken where
  | branch (i : Nat)
  | orelse
  | none

/-- A branch is taken if its test holds and none of those before it. -/
def Taken.admits : Taken → Spot → Bool
  | .branch k, .test i => i ≤ k
  | .branch k, .body i => i == k
  | .branch _, .orelse => false
  | _, .test _ => true
  | _, .body _ => false
  | .orelse, .orelse => true
  | .none, .orelse => false

def Taken.number : Taken → Int
  | .branch i => i
  | _ => -1

abbrev Route := Nat → Taken

def Site.isOn (r : Route) (s : Site) : Bool := s.guards.all fun g => (r g.conditional).admits g.place

/-- The number of the branch with which a call is recorded. -/
def branchAt : List Guard → Int
  | [] => -1
  | ⟨_, .test 0⟩ :: gs => branchAt gs
  | ⟨_, .test i⟩ :: _ | ⟨_, .body i⟩ :: _ => i
  | ⟨_, .orelse⟩ :: _ => -1

/-- The call stands in a test, and is recorded with another branch than the one that is taken. -/
def Site.strays (r : Route) (s : Site) : Bool :=
  match s.guards with
  | ⟨n, .test i⟩ :: gs => branchAt (⟨n, .test i⟩ :: gs) != (r n).number
  | _ => false

/-- The calls of a name in a function that lie on a path, with the places where they stand. -/
def callsOn (r : Route) (c : Chunk) (t : Tracker) (id : ScopeId) (name : String) : List (Call × Site) :=
  (t.calls.zip (callSites c)).filter fun p =>
    (p.1.fullName == name && functionScope t.scopes p.1.scope == id) && p.2.isOn r

/-! ## What is recorded about a site -/

namespace Sites

variable (f g h : Sites)

@[simp]
theorem none_andThen : none.andThen f = f := rfl

@[simp]
theorem andThen_none : f.andThen none = f := by
  funext n
  simp [andThen, none]

@[simp]
theorem andThen_assoc : (f.andThen g).andThen h = f.andThen (g.andThen h) := by
  funext n
  simp [andThen]

@[simp]
theorem ofCalls_nil (gs : List Guard) : ofCalls gs [] = none := rfl

end Sites

def Site.label (s : Site) : Expr × Option Nat × Int :=
  (s.call, s.guards.head?.map (·.conditional), branchAt s.guards)

def Call.label (c : Call) : Expr × Option Nat × Int := (c.node, c.conditional, c.branch)

structure Stands (gs : List Guard) (t : Tracker) : Prop where
  conditional : t.conditional = gs.head?.map (·.conditional)
  branch : t.branch = branchAt gs

structure Adds (f : Sites) (t t' : Tracker) : Prop where
  calls : t'.calls.map Call.label = t.calls.map Call.label ++ (f t.conditionals).1.map Site.label
  conditionals : t'.conditionals = (f t.conditionals).2
  conditional : t'.conditional = t.conditional
  branch : t'.branch = t.branch

section

variable {f g : Sites} {t u v t' : Tracker} {gs : List Guard}

theorem Stands.after (h : Stands gs t) (k : Adds f t u) : Stands gs u :=
  ⟨k.conditional.trans h.conditional, k.branch.trans h.branch⟩

namespace Adds

theorem andThen (h : Adds f t u) (k : Adds g u v) : Adds (f.andThen g) t v where
  calls := by
    rw [k.calls, h.calls, h.conditionals, Sites.andThen, map_append, append_assoc]
  conditionals := by rw [k.conditionals, h.conditionals, Sites.andThen]
  conditional := k.conditional.trans h.conditional
  branch := k.branch.trans h.branch

theorem nothing (calls : t'.calls = t.calls) (conditionals : t'.conditionals = t.conditionals)
    (conditional : t'.conditional = t.conditional) (branch : t'.branch = t.branch) : Adds .none t t' :=
  ⟨by rw [calls, Sites.none, map_nil, append_nil], conditionals, conditional, branch⟩

theorem of_records {p : Part} {calls : List Expr} (h : Records p calls t t') (stands : Stands gs t) :
    Adds (.ofCalls gs calls) t t' := by
  induction h with
  | call t c _ _ _ _ conditional branch =>
    refine ⟨?_, rfl, rfl, rfl⟩
    simp [Sites.ofCalls, Site.label, Call.label, conditional, branch, stands.conditional, stands.branch]
  | assign | concat | access | names => exact nothing rfl rfl rfl rfl
  | aside same =>
    have calls := congrArg (fun t : Tracker => t.calls) same
    have conditionals := congrArg (fun t : Tracker => t.conditionals) same
    have conditional := congrArg (fun t : Tracker => t.conditional) same
    have branch := congrArg (fun t : Tracker => t.branch) same
    exact nothing calls conditionals conditional branch
  | @andThen as bs _ _ _ _ _ ih ih' =>
    have first := ih stands
    have both := first.andThen (ih' (stands.after first))
    have together : (Sites.ofCalls gs as).andThen (.ofCalls gs bs) = .ofCalls gs (as ++ bs) := by
      funext n
      simp [Sites.andThen, Sites.ofCalls]
    rwa [together] at both

theorem withBranch (h : Adds f t v) (b : Int) : Adds f { t with branch := b } { v with branch := b } :=
  ⟨h.calls, h.conditionals, h.conditional, rfl⟩

end Adds

theorem adds_enterLoop (stands : Stands gs t) (name : String) (vars : List String) :
    Adds .none t (t.enterLoop name vars) := by
  have opened : Adds .none t (Tracker.enter { t with loopDepth := t.loopDepth + 1 } name 0 .loop false) :=
    .nothing rfl rfl rfl rfl
  exact opened.andThen (.of_records (.declareAll (p := .block []) _ vars) (stands.after opened))

theorem adds_enterFunction (stands : Stands gs t) (name : String) (first : Nat) (params : List String) :
    Adds .none t (t.enterFunction name first params) := by
  have opened : Adds .none t (Tracker.enter { t with functionDepth := t.functionDepth + 1 } name first
      .function (Vocabulary.hotCallbacks.contains name)) := .nothing rfl rfl rfl rfl
  exact opened.andThen (.of_records (.declareAll (p := .block []) _ params) (stands.after opened))

theorem adds_exit (t : Tracker) (line : Nat) : Adds .none t (t.exit line) := by
  unfold Tracker.exit
  dsimp only
  split <;> exact .nothing rfl rfl rfl rfl

theorem Adds.within (entered : Adds .none t u) (h : Adds f u v) (left : Adds .none v t') : Adds f t t' := by
  simpa using entered.andThen (h.andThen left)

end

/-! ## Every visit -/

def Part.sites (gs : List Guard) : Part → Sites
  | .expr e => exprSites gs e
  | .field f => fieldSites gs f
  | .stat s => statSites gs s
  | .block body => statsSites gs body

def partsSites (gs : List Guard) : List Part → Sites
  | [] => .none
  | p :: ps => (p.sites gs).andThen (partsSites gs ps)

def Action.sites (gs : List Guard) : Action → Sites
  | .record calls _ => .ofCalls gs calls
  | .visit p => p.sites gs
  | .loop _ _ parts => partsSites gs parts
  | .function _ _ _ _ body => statsSites gs body
  | .conditional _ _ => .none

def actionsSites (gs : List Guard) : List Action → Sites
  | [] => .none
  | a :: as => (a.sites gs).andThen (actionsSites gs as)

def RecordsSites (p : Part) : Prop :=
  ∀ {gs : List Guard} {t t' : Tracker}, Stands gs t → p.visit t = .ok t' → Adds (p.sites gs) t t'

def Action.isConditional : Action → Bool
  | .conditional _ _ => true
  | _ => false

section

variable {gs : List Guard} {t t' : Tracker}

theorem adds_visitParts {ps : List Part} (each : ∀ p ∈ ps, RecordsSites p) (stands : Stands gs t)
    (h : visitParts ps t = .ok t') : Adds (partsSites gs ps) t t' := by
  induction ps generalizing t with
  | nil =>
    cases h
    exact .nothing rfl rfl rfl rfl
  | cons p ps ih =>
    obtain ⟨u, first, rest⟩ := step_eq_ok h
    rw [forall_mem_cons] at each
    have first := each.1 stands first
    exact first.andThen (ih each.2 (stands.after first) rest)

theorem adds_run {p : Part} {a : Action} (here : a.RecordsBy (Records p))
    (each : ∀ q ∈ a.parts, RecordsSites q) (plain : a.isConditional = false) (stands : Stands gs t)
    (h : a.run t = .ok t') : Adds (a.sites gs) t t' := by
  cases a with
  | record calls f => exact .of_records (here t t' h) stands
  | visit q => exact each q mem_cons_self stands h
  | loop name vars parts =>
    obtain ⟨u, inner, rest⟩ := step_eq_ok h
    cases rest
    have entered := adds_enterLoop stands name vars
    have left := adds_exit u 0
    have closed : Adds .none u u.exitLoop := ⟨left.calls, left.conditionals, left.conditional, left.branch⟩
    exact entered.within (adds_visitParts each (stands.after entered) inner) closed
  | function name first last params body =>
    obtain ⟨u, inner, rest⟩ := step_eq_ok h
    cases rest
    have entered := adds_enterFunction stands name first params
    have left := adds_exit u last
    have closed : Adds .none u (u.exitFunction last) :=
      ⟨left.calls, left.conditionals, left.conditional, left.branch⟩
    exact entered.within (each (.block body) mem_cons_self (stands.after entered) inner) closed
  | conditional => cases plain

theorem adds_runActions {p : Part} {as : List Action} (here : ∀ a ∈ as, a.RecordsBy (Records p))
    (each : ∀ q ∈ as.flatMap Action.parts, RecordsSites q) (plain : ∀ a ∈ as, a.isConditional = false)
    (stands : Stands gs t) (h : runActions as t = .ok t') : Adds (actionsSites gs as) t t' := by
  induction as generalizing t with
  | nil =>
    cases h
    exact .nothing rfl rfl rfl rfl
  | cons a as ih =>
    obtain ⟨u, first, rest⟩ := step_eq_ok h
    rw [forall_mem_cons] at here plain
    rw [flatMap_cons, forall_mem_append] at each
    have first := adds_run here.1 each.1 plain.1 stands first
    exact first.andThen (ih here.2 each.2 plain.2 (stands.after first) rest)

theorem adds_branchesOf {n : Nat} : ∀ (o : Orelse) (i : Nat) {t t' : Tracker},
    (∀ q ∈ (branchesOf o (i + 1 : Nat)).flatMap (·.2), RecordsSites q) → t.conditional = some n →
    visitBranches (branchesOf o (i + 1 : Nat)) t = .ok t' →
    Adds (orelseSites gs n (i + 1) o) t { t' with branch := t.branch }
  | .none, i, t, t', each, inside, h => by
    cases h
    exact .nothing rfl rfl rfl rfl
  | .elseif test body orelse, i, t, t', each, inside, h => by
    simp only [branchesOf, flatMap_cons, cons_append, nil_append, forall_mem_cons] at each
    obtain ⟨v, branch, rest⟩ := step_eq_ok h
    obtain ⟨u, tested, branch⟩ := step_eq_ok branch
    rw [visitParts_singleton] at branch
    have tested : Adds (exprSites (⟨n, .test (i + 1)⟩ :: gs) test) { t with branch := (i + 1 : Nat) } u :=
      each.1 ⟨inside, rfl⟩ tested
    have branch : Adds (statsSites (⟨n, .body (i + 1)⟩ :: gs) body) u v :=
      each.2.1 ⟨tested.conditional.trans inside, tested.branch⟩ branch
    have rest := adds_branchesOf orelse (i + 1) each.2.2
      (branch.conditional.trans (tested.conditional.trans inside)) rest
    exact (tested.andThen (branch.andThen rest)).withBranch t.branch
  | .block body, i, t, t', each, inside, h => by
    obtain ⟨v, branch, rest⟩ := step_eq_ok h
    cases rest
    rw [visitParts_singleton] at branch
    have branch : Adds (statsSites (⟨n, .orelse⟩ :: gs) body) { t with branch := -1 } t' :=
      each (.block body) mem_cons_self ⟨inside, rfl⟩ branch
    exact branch.withBranch t.branch

theorem adds_ifThen {test : Expr} {body : List Stat} {orelse : Orelse}
    (each : ∀ q ∈ Part.parts (.stat (.ifThen test body orelse)), RecordsSites q) (stands : Stands gs t)
    (h : runActions (statActions (.ifThen test body orelse)) t = .ok t') :
    Adds (statSites gs (.ifThen test body orelse)) t t' := by
  have each : RecordsSites (.expr test) ∧ RecordsSites (.block body) ∧
      ∀ q ∈ (branchesOf orelse 1).flatMap (·.2), RecordsSites q := by
    simpa [Part.parts, Part.actions, statActions, Action.parts] using each
  rw [statActions, runActions_singleton] at h
  obtain ⟨u, tested, h⟩ := step_eq_ok h
  obtain ⟨w, branches, h⟩ := step_eq_ok h
  obtain ⟨v, first, rest⟩ := step_eq_ok branches
  cases h
  rw [visitParts_singleton] at first
  -- the first test is visited before a branch is entered, so it has the branch around the conditional
  have tested : Adds (exprSites (⟨t.conditionals, .test 0⟩ :: gs) test) t.openConditional u :=
    each.1 ⟨rfl, stands.branch⟩ tested
  have first : Adds (statsSites (⟨t.conditionals, .body 0⟩ :: gs) body) { u with branch := 0 } v :=
    each.2.1 ⟨tested.conditional, rfl⟩ first
  have rest : Adds (orelseSites gs t.conditionals 1 orelse) v { w with branch := v.branch } :=
    adds_branchesOf orelse 0 each.2.2 (first.conditional.trans tested.conditional) rest
  have all := tested.andThen ((first.andThen rest).withBranch u.branch)
  exact ⟨all.calls, all.conditionals, rfl, rfl⟩

end

/-! ## All sites are recorded -/

section

variable (gs : List Guard)

@[simp]
theorem actionsSites_nil : actionsSites gs [] = .none := rfl

@[simp]
theorem actionsSites_cons (a : Action) (as : List Action) :
    actionsSites gs (a :: as) = (a.sites gs).andThen (actionsSites gs as) := rfl

theorem actionsSites_append (as bs : List Action) :
    actionsSites gs (as ++ bs) = (actionsSites gs as).andThen (actionsSites gs bs) := by
  induction as with
  | nil => rfl
  | cons a as ih => rw [cons_append, actionsSites_cons, actionsSites_cons, ih, Sites.andThen_assoc]

variable {gs} in
theorem actionsSites_map {α : Type} {part : α → Part} {sites : List α → Sites} (nil : sites [] = .none)
    (cons : ∀ x xs, sites (x :: xs) = ((part x).sites gs).andThen (sites xs)) (xs : List α) :
    actionsSites gs (xs.map fun x => .visit (part x)) = sites xs := by
  induction xs with
  | nil => exact nil.symm
  | cons x xs ih =>
    rw [cons, ← ih]
    rfl

@[simp]
theorem actionsSites_visits (es : List Expr) : actionsSites gs (visits es) = exprsSites gs es :=
  actionsSites_map rfl (fun _ _ => rfl) es

theorem actionsSites_fields (fs : List Field) :
    actionsSites gs (fs.map fun f => .visit (.field f)) = fieldsSites gs fs :=
  actionsSites_map rfl (fun _ _ => rfl) fs

theorem actionsSites_stats (ss : List Stat) :
    actionsSites gs (ss.map fun s => .visit (.stat s)) = statsSites gs ss :=
  actionsSites_map rfl (fun _ _ => rfl) ss

theorem exprsSites_append (es fs : List Expr) :
    exprsSites gs (es ++ fs) = (exprsSites gs es).andThen (exprsSites gs fs) := by
  induction es with
  | nil => rfl
  | cons e es ih => rw [cons_append, exprsSites, exprsSites, ih, Sites.andThen_assoc]

theorem actionsSites_expr (e : Expr) : actionsSites gs (exprActions e) = exprSites gs e := by
  cases e with
  | nil | bool | number | string | varargs | name => rfl
  | table first fields => rw [exprActions, actionsSites_fields, exprSites]
  | index | call | invoke | function | binary | unary =>
    simp [exprActions, exprSites, exprsSites, Action.sites, Part.sites, note]

theorem actionsSites_stat {s : Stat} (plain : ∀ test body orelse, s ≠ .ifThen test body orelse) :
    actionsSites gs (statActions s) = statSites gs s := by
  cases s with
  | ifThen test body orelse => exact absurd rfl (plain test body orelse)
  | breakLoop | goto | label | semicolon | returnNothing => rfl
  | _ =>
    simp [statActions, statSites, exprsSites, exprsSites_append, actionsSites_append, partsSites, Action.sites,
      Part.sites, note]

end

theorem isConditional_exprActions (e : Expr) : ∀ a ∈ exprActions e, a.isConditional = false := by
  cases e <;> simp [exprActions, visits, note, Action.isConditional]

theorem isConditional_statActions {s : Stat} (plain : ∀ test body orelse, s ≠ .ifThen test body orelse) :
    ∀ a ∈ statActions s, a.isConditional = false := by
  cases s with
  | ifThen test body orelse => exact absurd rfl (plain test body orelse)
  | _ => simp [statActions, visits, note, Action.isConditional, or_imp, forall_and]

theorem recordsSites (p : Part) : RecordsSites p := by
  induction p using Part.induction with
  | step p each =>
    intro gs t t' stands h
    rw [p.visit_eq] at h
    have plainly (plain : ∀ a ∈ p.actions, a.isConditional = false)
        (sites : actionsSites gs p.actions = p.sites gs) : Adds (p.sites gs) t t' :=
      sites ▸ adds_runActions (records_actions p) each plain stands h
    cases p with
    | expr e => exact plainly (isConditional_exprActions e) (actionsSites_expr gs e)
    | field f =>
      obtain ⟨key, value⟩ := f
      refine plainly ?_ ?_
      · simp [Part.actions, visits, Action.isConditional]
      · simp [Part.actions, Part.sites, fieldSites, exprsSites]
    | block body =>
      refine plainly ?_ (actionsSites_stats gs body)
      simp [Part.actions, Action.isConditional]
    | stat s =>
      by_cases conditional : ∃ test body orelse, s = .ifThen test body orelse
      · obtain ⟨test, body, orelse, rfl⟩ := conditional
        exact adds_ifThen each stands h
      · have plain := fun test body orelse same => conditional ⟨test, body, orelse, same⟩
        exact plainly (isConditional_statActions plain) (actionsSites_stat gs plain)

theorem label_callSites {c : Chunk} {lines : List Chars} {t : Tracker} (h : visitChunk c lines = .ok t) :
    t.calls.map Call.label = (callSites c).map Site.label :=
  (recordsSites (.block c) ⟨rfl, rfl⟩ h).calls

/-! ## The bound -/

open Rules

theorem isMade_of_isOn {r : Route} {c : Call} {s : Site} (label : c.label = s.label) (on : s.isOn r)
    (stays : s.strays r = false) : isMade (fun n => (r n).number) c := by
  obtain ⟨call, guards⟩ := s
  simp only [Call.label, Site.label, Prod.mk.injEq] at label
  obtain ⟨-, conditional, branch⟩ := label
  rw [isMade, conditional]
  cases guards with
  | nil => rfl
  | cons g gs =>
    obtain ⟨n, place⟩ := g
    have taken : (r n).admits place := (all_eq_true.mp on) ⟨n, place⟩ mem_cons_self
    rw [List.head?_cons, Option.map_some, Option.all_some, beq_iff_eq, branch]
    cases place with
    | test i => simpa [Site.strays] using stays
    | body i =>
      cases chosen : r n with
      | branch k =>
        rw [chosen] at taken
        rw [eq_of_beq taken]
        rfl
      | orelse | none =>
        rw [chosen] at taken
        cases taken
    | orelse =>
      cases chosen : r n with
      | orelse => rfl
      | branch | none =>
        rw [chosen] at taken
        cases taken

theorem eq_of_mem_zip {α β γ : Type} {f : α → γ} {g : β → γ} {as : List α} {bs : List β}
    (h : as.map f = bs.map g) : ∀ p ∈ as.zip bs, f p.1 = g p.2 := by
  intro p hp
  obtain ⟨i, inside, rfl⟩ := getElem_of_mem hp
  have both := Nat.lt_min.mp (length_zip ▸ inside)
  have same := congrArg (·[i]?) h
  simpa [both] using same

/-- In every script that can be visited, and for every function and name: on a path there are at most
as many calls of the name as are counted with branches told apart, and those of them that stand in a
test and are recorded with another branch than the one that is taken. -/
theorem callsOn_le {c : Chunk} {lines : List Chars} {t : Tracker} (h : visitChunk c lines = .ok t)
    (r : Route) (id : ScopeId) (name : String) :
    t.calls.map (·.node) = (callSites c).map (·.call) ∧
      (callsOn r c t id name).length ≤ branchAwareCount (callsIn t id name) +
        (callsOn r c t id name).countP fun p => p.2.strays r := by
  have labels := label_callSites h
  have length : t.calls.length = (callSites c).length := by simpa using congrArg List.length labels
  have nodes : t.calls.map (·.node) = (callSites c).map (·.call) := by
    simpa [Function.comp_def, Call.label, Site.label] using congrArg (List.map Prod.fst) labels
  refine ⟨nodes, ?_⟩
  have counted : (callsIn t id name).countP (isMade fun n => (r n).number) =
      (t.calls.zip (callSites c)).countP fun p => isMade (fun n => (r n).number) p.1 &&
        (p.1.fullName == name && functionScope t.scopes p.1.scope == id) := by
    have firsts : (t.calls.zip (callSites c)).map Prod.fst = t.calls := map_fst_zip (Nat.le_of_eq length)
    rw [callsIn, countP_filter]
    conv_lhs => rw [← firsts, countP_map]
    rfl
  have made : ((callsOn r c t id name).countP fun p => !p.2.strays r) ≤
      (callsIn t id name).countP (isMade fun n => (r n).number) := by
    rw [counted, callsOn, countP_filter]
    refine countP_mono_left fun p hp on => ?_
    simp only [Bool.and_eq_true, Bool.not_eq_true'] at on ⊢
    exact ⟨isMade_of_isOn (eq_of_mem_zip labels p hp) on.2.2 on.1, on.2.1⟩
  have bound := countP_isMade_le (fun n => (r n).number) (callsIn t id name)
  have split : (callsOn r c t id name).length = ((callsOn r c t id name).countP fun p => p.2.strays r) +
      (callsOn r c t id name).countP fun p => !p.2.strays r := by
    rw [length_eq_countP_add_countP fun p : Call × Site => p.2.strays r]
    simp only [Bool.not_eq_true, Bool.decide_eq_false]
  omega

theorem of_any_visit {c : Chunk} {lines : List Chars} {test : Tracker → Bool}
    (h : (visitChunk c lines).toOption.any test) : ∃ t, visitChunk c lines = .ok t ∧ test t := by
  cases visited : visitChunk c lines with
  | error fault =>
    rw [visited] at h
    cases h
  | ok t =>
    rw [visited] at h
    exact ⟨t, rfl, h⟩

/-- Calls outside of a conditional, in both its branches and in its second test, and in a conditional
in the second branch. -/
def spreadCalls : Chunk :=
  (Chunk.parse? ("function f()\n  f()\n  if a then\n    f()\n  elseif f() then\n    for i = 1, 2 do f() end\n" ++
    "    if b then f() else f() end\n  end\nend\n").toList).getD []

def spreadRoute : Route
  | 0 => .branch 1
  | _ => .orelse

theorem spreadCalls_callsOn : ∃ t, visitChunk spreadCalls [] = .ok t ∧
    (callsOn spreadRoute spreadCalls t 1 "f").length = 4 ∧
    ((callsOn spreadRoute spreadCalls t 1 "f").countP fun p => p.2.strays spreadRoute) = 0 ∧
    4 ≤ branchAwareCount (callsIn t 1 "f") := by
  have calls : (visitChunk spreadCalls []).toOption.any fun t =>
      (callsOn spreadRoute spreadCalls t 1 "f").length == 4 &&
        ((callsOn spreadRoute spreadCalls t 1 "f").countP fun p => p.2.strays spreadRoute) == 0 := by
    decide +kernel
  obtain ⟨t, visited, calls⟩ := of_any_visit calls
  obtain ⟨four, none⟩ := Bool.and_eq_true_iff.mp calls
  have bound := (callsOn_le visited spreadRoute 1 "f").2
  rw [beq_iff_eq] at four none
  rw [four, none] at bound
  exact ⟨t, visited, four, none, bound⟩

def testedPed : Chunk :=
  (Chunk.parse? "function f()\n  if PlayerPedId() then\n    PlayerPedId()\n  end\nend\n".toList).getD []

/-- Both calls lie on the path on which the test holds, but only one is counted. -/
theorem testedPed_undercounted : ∃ t, visitChunk testedPed [] = .ok t ∧
    (callsOn (fun _ => .branch 0) testedPed t 1 "PlayerPedId").length = 2 ∧
    branchAwareCount (callsIn t 1 "PlayerPedId") = 1 := by
  have calls : (visitChunk testedPed []).toOption.any fun t =>
      (callsOn (fun _ => .branch 0) testedPed t 1 "PlayerPedId").length == 2 &&
        branchAwareCount (callsIn t 1 "PlayerPedId") == 1 := by decide +kernel
  obtain ⟨t, visited, calls⟩ := of_any_visit calls
  obtain ⟨two, one⟩ := Bool.and_eq_true_iff.mp calls
  exact ⟨t, visited, eq_of_beq two, eq_of_beq one⟩

end LuaTune.Analysis
