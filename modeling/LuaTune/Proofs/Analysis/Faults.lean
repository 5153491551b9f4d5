import LuaTune.Proofs.Analysis.Context
import LuaTune.Proofs.Analysis.Spelling

/-!
# When a visit fails

Two things stop a visit: a `return` without values, and a whole number that is too long to be
written where the text of an expression is recorded. Some texts are recorded only in a loop.
`Part.visitFits` says that the nodes which should stop a visit do, and that no others do.
-/

namespace LuaTune.Analysis

open Lua LuaTune.Analysis.Action List

/-! ## What stops a visit -/

def isBareReturn : Node → Bool
  | .stat (.returnNothing _ _) => true
  | _ => false

/-- The nodes in the loop that a node is: its body, and the test of a `repeat`. -/
def loopNodes : Node → List Node
  | .stat (.whileLoop _ body) | .stat (.numericFor _ _ body) | .stat (.genericFor _ _ body) =>
    walkStats body
  | .stat (.repeatLoop body test) => walkStats body ++ test.walk
  | _ => []

/-- The expressions whose texts the visit of a node records: the object of a method call, and a
single value that is assigned to a name. -/
def recordedTexts : Node → List Expr
  | .expr (.invoke source _ _) => [source]
  | .stat (.assign _ _ targets values) =>
    Tracker.recordedValue (targets.any fun e => (Tracker.nameOf? e).isSome) values
  | .stat (.localAssign _ targets values) => Tracker.recordedValue (targets.length = 1) values
  | _ => []

def measuredTexts : Node → List Expr
  | .expr (.unary .length _ operand) => [operand]
  | _ => []

def Stops (inLoop : Bool) (n : Node) : Fault → Prop
  | .returnWithoutValues => isBareReturn n
  | .numberTooLong =>
    arePrintable (recordedTexts n ++ if inLoop then measuredTexts n else []) = false

/-- The visit of some nodes stops at one of them, or at one in a loop among them. -/
def StopsAmong (inLoop : Bool) (ns : List Node) (f : Fault) : Prop :=
  (∃ n ∈ ns, Stops inLoop n f) ∨ ∃ n ∈ ns.flatMap loopNodes, Stops true n f

theorem arePrintable_append (es ds : List Expr) :
    arePrintable (es ++ ds) = (arePrintable es && arePrintable ds) := by
  induction es with
  | nil => rfl
  | cons e es ih => rw [cons_append, arePrintable, arePrintable, ih, Bool.and_assoc]

section

variable {inLoop : Bool} {f : Fault} {n : Node} {ns : List Node}

theorem Stops.weaken (h : Stops inLoop n f) : Stops true n f := by
  cases f with
  | returnWithoutValues => exact h
  | numberTooLong =>
    simp only [Stops, arePrintable_append] at h ⊢
    cases inLoop
    · simp_all [arePrintable]
    · exact h

@[simp]
theorem stopsAmong_nil : StopsAmong inLoop [] f ↔ False := by
  simp [StopsAmong]

@[simp]
theorem stopsAmong_append {ms : List Node} :
    StopsAmong inLoop (ns ++ ms) f ↔ StopsAmong inLoop ns f ∨ StopsAmong inLoop ms f := by
  simp only [StopsAmong, flatMap_append, mem_append, or_and_right, exists_or]
  exact or_or_or_comm

theorem stopsAmong_cons : StopsAmong inLoop (n :: ns) f ↔
    (Stops inLoop n f ∨ ∃ m ∈ loopNodes n, Stops true m f) ∨ StopsAmong inLoop ns f := by
  simp only [StopsAmong, flatMap_cons, mem_cons, mem_append, or_and_right, exists_or, exists_eq_left]
  exact or_or_or_comm

theorem stopsAmong_loop :
    (∃ n ∈ ns, Stops true n f) ∨ StopsAmong inLoop ns f ↔ StopsAmong true ns f := by
  constructor
  · rintro (here | ⟨n, hn, stops⟩ | inside)
    · exact .inl here
    · exact .inl ⟨n, hn, stops.weaken⟩
    · exact .inr inside
  · rintro (here | inside)
    · exact .inl here
    · exact .inr (.inr inside)

theorem stopsAmong_walkExprs {es : List Expr} :
    StopsAmong inLoop (walkExprs es) f ↔ ∃ e ∈ es, StopsAmong inLoop e.walk f := by
  induction es with
  | nil => simp [walkExprs]
  | cons e es ih => simp [walkExprs, ih]

theorem stopsAmong_walkFields {fs : List Field} :
    StopsAmong inLoop (walkFields fs) f ↔ ∃ d ∈ fs, StopsAmong inLoop d.walk f := by
  induction fs with
  | nil => simp [walkFields]
  | cons d fs ih => simp [walkFields, ih]

theorem stopsAmong_walkStats {ss : List Stat} :
    StopsAmong inLoop (walkStats ss) f ↔ ∃ s ∈ ss, StopsAmong inLoop s.walk f := by
  induction ss with
  | nil => simp [walkStats]
  | cons s ss ih => simp [walkStats, ih]

/-! ### Nodes that stop nothing -/

def isQuiet (n : Node) : Bool :=
  !isBareReturn n && (recordedTexts n).isEmpty && (measuredTexts n).isEmpty

theorem not_stops (h : isQuiet n) : ¬ Stops inLoop n f := by
  simp only [isQuiet, Bool.and_eq_true, List.isEmpty_iff, Bool.not_eq_true'] at h
  obtain ⟨⟨returns, recorded⟩, measured⟩ := h
  cases f with
  | returnWithoutValues => simp [Stops, returns]
  | numberTooLong => simp [Stops, recorded, measured, arePrintable]

theorem stopsAmong_quiet_loop (h : isQuiet n) :
    StopsAmong inLoop (n :: ns) f ↔ (∃ m ∈ loopNodes n, Stops true m f) ∨ StopsAmong inLoop ns f := by
  rw [stopsAmong_cons, or_iff_right (not_stops h)]

theorem stopsAmong_quiet (h : isQuiet n) (plain : loopNodes n = []) :
    StopsAmong inLoop (n :: ns) f ↔ StopsAmong inLoop ns f := by
  rw [stopsAmong_quiet_loop h, plain]
  simp

theorem stopsAmong_plain (h : loopNodes n = []) :
    StopsAmong inLoop (n :: ns) f ↔ Stops inLoop n f ∨ StopsAmong inLoop ns f := by
  rw [stopsAmong_cons, h]
  simp

theorem not_stopsAmong (h : ∀ n ∈ ns, isQuiet n ∧ loopNodes n = []) : ¬ StopsAmong inLoop ns f := by
  induction ns with
  | nil => simp
  | cons n ns ih =>
    obtain ⟨first, rest⟩ := forall_mem_cons.mp h
    rw [stopsAmong_quiet first.1 first.2]
    exact ih rest

@[simp]
theorem stopsAmong_binderNodes (ids : List Ident) : StopsAmong inLoop (binderNodes ids) f ↔ False := by
  refine iff_false_intro (not_stopsAmong fun n hn => ?_)
  obtain ⟨id, -, rfl⟩ := mem_map.mp hn
  exact ⟨rfl, rfl⟩

@[simp]
theorem stopsAmong_paramNodes (ps : List Param) : StopsAmong inLoop (paramNodes ps) f ↔ False := by
  refine iff_false_intro (not_stopsAmong fun n hn => ?_)
  obtain ⟨p, -, rfl⟩ := mem_map.mp hn
  cases p <;> exact ⟨rfl, rfl⟩

theorem isQuiet_dottedName (base : Ident) (path : List Ident) :
    isQuiet (.expr (dottedName base path)) ∧ loopNodes (.expr (dottedName base path)) = [] := by
  refine ⟨?_, rfl⟩
  rcases eq_nil_or_concat path with rfl | ⟨path, id, rfl⟩
  · rfl
  · rw [dottedName, concat_eq_append, foldl_append]
    rfl

@[simp]
theorem stopsAmong_dottedNodes (base : Ident) (path : List Ident) :
    StopsAmong inLoop (dottedNodes base path) f ↔ False := by
  refine iff_false_intro (not_stopsAmong fun n hn => ?_)
  rcases mem_append.mp hn with hn | hn
  · obtain ⟨k, -, rfl⟩ := mem_map.mp hn
    exact isQuiet_dottedName _ _
  · obtain ⟨id, -, rfl⟩ := mem_map.mp hn
    exact ⟨rfl, rfl⟩

theorem stopsAmong_branches : ∀ (o : Orelse) (n : Int),
    (∃ p ∈ (branchesOf o n).flatMap (·.2), StopsAmong inLoop p.walk f) ↔ StopsAmong inLoop o.walk f
  | .none, n => by simp [branchesOf, Orelse.walk]
  | .elseif test body orelse, n => by
    have tested : (Part.expr test).walk = test.walk := rfl
    have held : (Part.block body).walk = walkStats body := rfl
    rw [Orelse.walk, cons_append, cons_append, stopsAmong_quiet rfl rfl, append_assoc,
      stopsAmong_append, cons_append, stopsAmong_quiet rfl rfl, stopsAmong_append,
      ← stopsAmong_branches orelse (n + 1)]
    simp only [branchesOf, flatMap_cons, cons_append, nil_append, mem_cons,
      or_and_right, exists_or, exists_eq_left, tested, held]
  | .block body, n => by
    rw [Orelse.walk, stopsAmong_quiet rfl rfl]
    simp [branchesOf, Part.walk]

end

theorem loopNodes_subset_walk {c : Chunk} {n : Node} (h : n ∈ c.walk) : loopNodes n ⊆ c.walk := by
  refine List.Subset.trans (fun m hm => ?_) (Chunk.walk_subset h)
  unfold loopNodes at hm
  split at hm <;> simp_all [Node.walk, Stat.walk]

/-! ## The visit stops there and nowhere else -/

def Part.node : Part → Node
  | .expr e => .expr e
  | .field f => .field f
  | .stat s => .stat s
  | .block body => .block body

def Action.StopsAt (here : Fault → Prop) (inLoop : Bool) : Action → Fault → Prop
  | .record _ _, f => here f
  | .visit p, f => StopsAmong inLoop p.walk f
  | .loop _ _ parts, f => ∃ p ∈ parts, StopsAmong true p.walk f
  | .function _ _ _ _ body, f => StopsAmong inLoop (walkStats body) f
  | .conditional test branches, f =>
    StopsAmong inLoop test.walk f ∨ ∃ p ∈ branches.flatMap (·.2), StopsAmong inLoop p.walk f

def ActionsStop (here : Fault → Prop) (inLoop : Bool) (as : List Action) (f : Fault) : Prop :=
  ∃ a ∈ as, a.StopsAt here inLoop f

section

variable {here : Fault → Prop} {inLoop : Bool} {f : Fault} {as : List Action}

attribute [local simp] Action.StopsAt exprActions statActions stopsAmong_walkExprs

@[simp]
theorem actionsStop_nil : ActionsStop here inLoop [] f ↔ False := by
  simp [ActionsStop]

@[simp]
theorem actionsStop_append {bs : List Action} : ActionsStop here inLoop (as ++ bs) f ↔
    ActionsStop here inLoop as f ∨ ActionsStop here inLoop bs f := by
  simp only [ActionsStop, mem_append, or_and_right, exists_or]

@[simp]
theorem actionsStop_cons {a : Action} : ActionsStop here inLoop (a :: as) f ↔
    a.StopsAt here inLoop f ∨ ActionsStop here inLoop as f := by
  simp only [ActionsStop, mem_cons, or_and_right, exists_or, exists_eq_left]

@[simp]
theorem actionsStop_visits (es : List Expr) :
    ActionsStop here inLoop (visits es) f ↔ ∃ e ∈ es, StopsAmong inLoop e.walk f := by
  simp [ActionsStop, visits, Part.walk]

@[simp]
theorem stopsAmong_expr_part (e : Expr) :
    StopsAmong inLoop (Part.expr e).walk f ↔ StopsAmong inLoop e.walk f := .rfl

@[simp]
theorem stopsAmong_block_part (body : List Stat) :
    StopsAmong inLoop (Part.block body).walk f ↔ StopsAmong inLoop (walkStats body) f := .rfl

theorem stopsAmong_expr (e : Expr) : StopsAmong inLoop e.walk f ↔
    ActionsStop (Stops inLoop (.expr e)) inLoop (exprActions e) f := by
  cases e with
  | nil | bool | number | string | varargs | name =>
    exact iff_of_false (not_stopsAmong (forall_mem_singleton.mpr ⟨rfl, rfl⟩)) (by simp)
  | index form base key =>
    rw [Expr.walk, cons_append, stopsAmong_quiet rfl rfl]
    simp
  | call callee args last =>
    rw [Expr.walk, cons_append, stopsAmong_plain rfl]
    simp
  | invoke source method args =>
    rw [Expr.walk, cons_append, stopsAmong_plain rfl, stopsAmong_append, stopsAmong_quiet rfl rfl]
    simp
  | function first last params body =>
    rw [Expr.walk, cons_append, stopsAmong_quiet rfl rfl, stopsAmong_append, stopsAmong_quiet rfl rfl]
    simp
  | table first fields =>
    rw [Expr.walk, stopsAmong_quiet rfl rfl, stopsAmong_walkFields]
    simp [ActionsStop, Part.walk]
  | binary op left right =>
    rw [Expr.walk, cons_append, stopsAmong_plain rfl]
    simp [note]
  | unary op token operand =>
    rw [Expr.walk, stopsAmong_plain rfl]
    simp

theorem stopsAmong_stat (s : Stat) : StopsAmong inLoop s.walk f ↔
    ActionsStop (Stops inLoop (.stat s)) inLoop (statActions s) f := by
  cases s with
  | assign first last targets values =>
    rw [Stat.walk, cons_append, stopsAmong_plain rfl, ← walkExprs_append]
    simp
  | localAssign first targets values =>
    rw [Stat.walk, cons_append, stopsAmong_plain rfl]
    simp
  | expr e => simp [Stat.walk]
  | whileLoop test body =>
    rw [Stat.walk, cons_append, stopsAmong_quiet_loop rfl, stopsAmong_append,
      stopsAmong_quiet rfl rfl, or_left_comm]
    simp [loopNodes, stopsAmong_loop]
  | repeatLoop body test =>
    rw [Stat.walk, cons_append, cons_append, stopsAmong_quiet_loop rfl, stopsAmong_quiet rfl rfl]
    simp only [loopNodes, stopsAmong_loop]
    simp
  | ifThen test body orelse =>
    rw [Stat.walk, cons_append, cons_append, stopsAmong_quiet rfl rfl, append_assoc,
      stopsAmong_append, cons_append, stopsAmong_quiet rfl rfl, stopsAmong_append,
      ← stopsAmong_branches orelse 1]
    simp only [statActions, actionsStop_cons, Action.StopsAt, actionsStop_nil, or_false, flatMap_cons,
      cons_append, nil_append, mem_cons, or_and_right, exists_or, exists_eq_left,
      stopsAmong_block_part]
  | numericFor target bounds body =>
    rw [Stat.walk, cons_append, cons_append, stopsAmong_quiet_loop rfl,
      stopsAmong_quiet rfl rfl, stopsAmong_append, stopsAmong_quiet rfl rfl, or_left_comm]
    simp [loopNodes, stopsAmong_loop]
  | genericFor targets iterators body =>
    have quiet : ¬ Stops inLoop (.stat (.genericFor targets iterators body)) f := not_stops rfl
    rw [Stat.walk, cons_append, cons_append, stopsAmong_quiet_loop rfl, stopsAmong_append,
      stopsAmong_append, stopsAmong_quiet rfl rfl, or_left_comm]
    simp [loopNodes, stopsAmong_loop, note, quiet]
  | function first last base path params body =>
    rw [Stat.walk, cons_append, cons_append, stopsAmong_plain rfl, stopsAmong_append,
      stopsAmong_quiet rfl rfl]
    simp [note]
  | method first last base path name params body =>
    rw [Stat.walk, cons_append, cons_append, stopsAmong_quiet rfl rfl, stopsAmong_append,
      stopsAmong_append, stopsAmong_quiet rfl rfl, stopsAmong_quiet rfl rfl]
    simp
  | localFunction first last name params body =>
    rw [Stat.walk, cons_append, cons_append, stopsAmong_plain rfl,
      stopsAmong_quiet rfl rfl, stopsAmong_append, stopsAmong_quiet rfl rfl]
    simp [note]
  | block body =>
    rw [Stat.walk, stopsAmong_quiet rfl rfl, stopsAmong_quiet rfl rfl]
    simp
  | breakLoop | goto | label | semicolon =>
    exact iff_of_false (not_stopsAmong (forall_mem_singleton.mpr ⟨rfl, rfl⟩)) (by simp)
  | returnNothing first last =>
    have alone : (Stat.returnNothing first last).walk = [.stat (.returnNothing first last)] := rfl
    rw [alone, stopsAmong_plain rfl]
    simp
  | returnValues first last values =>
    rw [Stat.walk, stopsAmong_quiet rfl rfl]
    simp

theorem stopsAmong_part (p : Part) :
    StopsAmong inLoop p.walk f ↔ ActionsStop (Stops inLoop p.node) inLoop p.actions f := by
  cases p with
  | expr e => exact stopsAmong_expr e
  | field d =>
    obtain ⟨key, value⟩ := d
    rw [Part.walk, Field.walk, cons_append, stopsAmong_quiet rfl rfl]
    simp [Part.actions]
  | stat s => exact stopsAmong_stat s
  | block body =>
    rw [Part.walk, stopsAmong_walkStats]
    simp [ActionsStop, Part.actions, Part.walk]

end

def Fits {ε α : Type} (faults : ε → Prop) : Except ε α → Prop
  | .ok _ => ∀ f, ¬ faults f
  | .error f => faults f

namespace Fits

variable {ε α β : Type} {p q r : ε → Prop} {x : Except ε α}

theorem congr (h : Fits p x) (same : ∀ f, q f ↔ p f) : Fits q x := by
  rwa [funext fun f => propext (same f)]

theorem andThen {g : α → Except ε β} (first : Fits p x) (next : ∀ a, x = .ok a → Fits q (g a))
    (both : ∀ f, r f ↔ p f ∨ q f) : Fits r (x >>= g) := by
  cases x with
  | error f => exact (both f).mpr (.inl first)
  | ok a => exact (next a rfl).congr fun f => (both f).trans (or_iff_right (first f))

theorem map (h : Fits p x) (g : α → β) : Fits p (x >>= fun a => .ok (g a)) :=
  h.andThen (q := fun _ => False) (fun _ _ _ => id) fun _ => (or_iff_left id).symm

end Fits

variable {n : Node} {t : Tracker} {inLoop : Bool}

/-! ### Records -/

def Tracker.isInLoop (t : Tracker) : Bool := decide (0 < t.loopDepth)

def Action.RecordsFit (n : Node) : Action → Prop
  | .record _ g => ∀ t, Fits (Stops t.isInLoop n) (g t)
  | .visit _ | .loop _ _ _ | .function _ _ _ _ _ | .conditional _ _ => True

theorem fits_writing {es : List Expr} (returns : isBareReturn n = false)
    (texts : recordedTexts n ++ (if t.isInLoop then measuredTexts n else []) = es) :
    Fits (Stops t.isInLoop n) (writing es t) := by
  unfold writing
  split
  · next printable =>
    intro f
    cases f with
    | returnWithoutValues => simp [Stops, returns]
    | numberTooLong => simp [Stops, texts, printable]
  · next unprintable =>
    rw [Bool.not_eq_true] at unprintable
    exact (congrArg arePrintable texts).trans unprintable

theorem recordsFit_quiet (h : isQuiet n) {calls : List Expr} (g : Tracker → Tracker) :
    (Action.record calls fun t => .ok (g t)).RecordsFit n :=
  fun _ _ => not_stops h

theorem recordsFit_visits (n : Node) (es : List Expr) : ∀ a ∈ visits es, a.RecordsFit n := by
  intro a ha
  obtain ⟨e, -, rfl⟩ := mem_map.mp ha
  trivial

theorem recordsFit_exprActions (e : Expr) : ∀ a ∈ exprActions e, a.RecordsFit (.expr e) := by
  cases e with
  | nil | bool | number | string | varargs | name => intro a ha; cases ha
  | index form base key => exact recordsFit_visits _ _
  | call | binary => exact forall_mem_cons.mpr ⟨recordsFit_quiet rfl _, recordsFit_visits _ _⟩
  | invoke source method args =>
    refine forall_mem_cons.mpr ⟨fun t => ?_, recordsFit_visits _ _⟩
    exact (fits_writing rfl (by simp [recordedTexts, measuredTexts])).map _
  | function | table => simp [exprActions, RecordsFit]
  | unary op token operand =>
    refine forall_mem_cons.mpr ⟨fun t => ?_, recordsFit_visits _ _⟩
    unfold recordOperand
    split
    · next length =>
      subst length
      refine (fits_writing rfl ?_).map _
      simp [recordedTexts, measuredTexts, Tracker.isInLoop]
    · next other =>
      refine fun f => not_stops ?_
      cases op <;> first | rfl | exact absurd rfl other

theorem recordsFit_statActions (s : Stat) : ∀ a ∈ statActions s, a.RecordsFit (.stat s) := by
  cases s with
  | assign | localAssign =>
    refine forall_mem_cons.mpr ⟨fun t => ?_, recordsFit_visits _ _⟩
    exact (fits_writing rfl (by simp [recordedTexts, measuredTexts])).map _
  | expr | returnValues => exact recordsFit_visits _ _
  | whileLoop | repeatLoop | ifThen | method | block => simp [statActions, RecordsFit]
  | numericFor target bounds body =>
    exact forall_mem_append.mpr ⟨recordsFit_visits _ _, forall_mem_singleton.mpr trivial⟩
  | genericFor targets iterators body =>
    refine forall_mem_cons.mpr ⟨recordsFit_quiet rfl _, ?_⟩
    exact forall_mem_append.mpr ⟨recordsFit_visits _ _, forall_mem_singleton.mpr trivial⟩
  | function | localFunction =>
    exact forall_mem_cons.mpr ⟨recordsFit_quiet rfl _, forall_mem_singleton.mpr trivial⟩
  | breakLoop | goto | label | semicolon => intro a ha; cases ha
  | returnNothing first last => exact forall_mem_singleton.mpr fun _ => rfl

theorem recordsFit_actions (p : Part) : ∀ a ∈ p.actions, a.RecordsFit p.node := by
  cases p with
  | expr e => exact recordsFit_exprActions e
  | field d =>
    obtain ⟨key, value⟩ := d
    exact recordsFit_visits _ _
  | stat s => exact recordsFit_statActions s
  | block body => simp [Part.actions, RecordsFit]

/-! ### Runs -/

def Part.VisitFits (p : Part) : Prop := ∀ t, Fits (StopsAmong t.isInLoop p.walk) (p.visit t)

theorem Keeps.isInLoop {t' : Tracker} (h : Keeps t t') : t'.isInLoop = t.isInLoop := by
  have depth : t'.loopDepth = t.loopDepth := congrArg Place.loopDepth h.place
  rw [Tracker.isInLoop, Tracker.isInLoop, depth]

theorem Part.VisitFits.at {p : Part} (h : p.VisitFits)
    (here : t.isInLoop = inLoop) : Fits (StopsAmong inLoop p.walk) (p.visit t) :=
  here ▸ h t

theorem fits_parts {ps : List Part} (h : ∀ p ∈ ps, p.VisitFits) : ∀ {t : Tracker}, t.isInLoop = inLoop →
      Fits (fun f => ∃ p ∈ ps, StopsAmong inLoop p.walk f) (visitParts ps t) := by
  induction ps with
  | nil => exact fun _ f => by simp
  | cons p ps ih =>
    intro t here
    obtain ⟨first, rest⟩ := forall_mem_cons.mp h
    refine (first.at here).andThen (fun u visited => ih rest ?_) fun f => ?_
    · exact (p.keeps visited).isInLoop.trans here
    · simp

theorem fits_branches {bs : Branches} (h : ∀ p ∈ bs.flatMap (·.2), p.VisitFits) :
    ∀ {t : Tracker}, t.isInLoop = inLoop →
      Fits (fun f => ∃ p ∈ bs.flatMap (·.2), StopsAmong inLoop p.walk f) (visitBranches bs t) := by
  induction bs with
  | nil => exact fun _ f => by simp
  | cons b bs ih =>
    intro t here
    rw [flatMap_cons, forall_mem_append] at h
    have first : Fits _ (visitParts b.2 { t with branch := b.1 }) := fits_parts h.1 here
    refine first.andThen (fun u visited => ih h.2 ?_) fun f => ?_
    · have kept := follows_keeps.toFrames.visitParts (fun p _ _ _ => p.keeps) visited
      exact kept.isInLoop.trans here
    · simp only [flatMap_cons, mem_append, or_and_right, exists_or]

theorem isInLoop_enterLoop (t : Tracker) (name : String) (vars : List String) :
    (t.enterLoop name vars).isInLoop = true := by
  let opened := Tracker.enter { t with loopDepth := t.loopDepth + 1 } name 0 .loop false
  have inside : opened.isInLoop = true := decide_eq_true (Nat.succ_pos t.loopDepth)
  exact (Keeps.declareAll opened vars).isInLoop.trans inside

theorem isInLoop_enterFunction (t : Tracker) (name : String) (first : Nat) (params : List String) :
    (t.enterFunction name first params).isInLoop = t.isInLoop :=
  (Keeps.declareAll _ params).isInLoop

theorem fits_run {a : Action} (here : a.RecordsFit n) (each : ∀ p ∈ a.parts, p.VisitFits)
    (t : Tracker) : Fits (a.StopsAt (Stops t.isInLoop n) t.isInLoop) (a.run t) := by
  cases a with
  | record calls g => exact here t
  | visit p => exact each p mem_cons_self t
  | loop name vars parts => exact (fits_parts each (isInLoop_enterLoop t name vars)).map _
  | function name first last params body =>
    have inside := isInLoop_enterFunction t name first params
    exact ((each (.block body) mem_cons_self).at inside).map _
  | conditional test branches =>
    have tested : Fits _ (visitExpr test t.openConditional) :=
      each (.expr test) mem_cons_self t.openConditional
    refine tested.andThen (fun u visited => ?_) fun f => Iff.rfl
    have kept := ((Part.expr test).keeps visited).isInLoop
    exact (fits_branches (fun p hp => each p (mem_cons_of_mem _ hp)) kept).map _

theorem fits_runActions {p : Part} {as : List Action} (sub : ∀ a ∈ as, a ∈ p.actions)
    (each : ∀ q ∈ as.flatMap Action.parts, q.VisitFits) :
    ∀ {t : Tracker}, t.isInLoop = inLoop →
      Fits (ActionsStop (Stops inLoop p.node) inLoop as) (runActions as t) := by
  induction as with
  | nil => exact fun _ f => by simp
  | cons a as ih =>
    rintro t rfl
    obtain ⟨first, rest⟩ := forall_mem_cons.mp sub
    rw [flatMap_cons, forall_mem_append] at each
    refine (fits_run (recordsFit_actions p a first) each.1 t).andThen (fun u ran => ?_)
      fun f => actionsStop_cons
    have kept := follows_keeps.toFrames.run (follows_keeps.recordsBy p a first)
      (fun q _ _ _ => q.keeps) ran
    exact ih rest each.2 kept.isInLoop

theorem Part.visitFits (p : Part) : p.VisitFits := by
  induction p using Part.induction with
  | step p each =>
    intro t
    rw [p.visit_eq]
    exact (fits_runActions (fun _ => id) each rfl).congr fun f => stopsAmong_part p

theorem fits_visitChunk (c : Chunk) (lines : List Chars) :
    Fits (StopsAmong false c.walk) (visitChunk c lines) := by
  refine ((Part.block c).visitFits (.start lines)).congr fun f => ?_
  rw [Chunk.walk, stopsAmong_quiet rfl rfl, stopsAmong_quiet rfl rfl]
  rfl

/-! ## On a stack with an end -/

inductive StackFault where
  | fault (f : Fault)
  | tooDeep
deriving DecidableEq

/-- A call that is a statement is visited as the call. -/
def Part.inner : Part → Part
  | .stat (.expr e) => .expr e
  | p => p

/-- The run of an action that visits its parts by `visit`. -/
def Action.runBy (visit : Part → Tracker → Except StackFault Tracker) :
    Action → Tracker → Except StackFault Tracker
  | .record _ f, t => (f t).mapError .fault
  | .visit p, t => visit p t
  | .loop name vars parts, t => do
    return (← parts.foldlM (fun t p => visit p t) (t.enterLoop name vars)).exitLoop
  | .function name first last params body, t => do
    return (← visit (.block body) (t.enterFunction name first params)).exitFunction last
  | .conditional test branches, t => do
    let u ← visit (.expr test) t.openConditional
    let u ← branches.foldlM (fun u b => b.2.foldlM (fun t p => visit p t) { u with branch := b.1 }) u
    return { u with conditional := t.conditional, branch := t.branch }

/-- The visit of a part where at most `n` visits can be open at once. -/
def Part.visitWithin : (n : Nat) → Part → Tracker → Except StackFault Tracker
  | 0, _, _ => .error .tooDeep
  | n + 1, p, t => p.inner.actions.foldlM (fun t a => a.runBy (visitWithin n) t) t

/-- More than `n` visits are open at once at some point in the visit of a part. -/
def Part.isDeeperThan : (n : Nat) → Part → Bool
  | 0, _ => true
  | n + 1, p => p.inner.parts.any (isDeeperThan n)

/-- The first outcome is the second one, unless something is too deep for it. -/
def Bounds {α : Type} (deep : Prop) : Except StackFault α → Except Fault α → Prop
  | .ok a, y => y = .ok a ∧ ¬ deep
  | .error (.fault f), y => y = .error f
  | .error .tooDeep, _ => deep

section

variable {α β : Type} {d e r : Prop} {x : Except StackFault α} {y : Except Fault α}

theorem Bounds.andThen {g : α → Except StackFault β} {h : α → Except Fault β} (first : Bounds d x y)
    (next : ∀ a, Bounds e (g a) (h a)) (either : r ↔ d ∨ e) : Bounds r (x >>= g) (y >>= h) := by
  rw [either]
  match x, first with
  | .ok a, first =>
    obtain ⟨rfl, shallow⟩ := first
    rw [propext (or_iff_right shallow)]
    exact next a
  | .error (.fault f), first =>
    cases first
    rfl
  | .error .tooDeep, deep => exact Or.inl deep

theorem Bounds.map (h : Bounds d x y) (g : α → β) :
    Bounds d (x >>= fun a => .ok (g a)) (y >>= fun a => .ok (g a)) :=
  h.andThen (e := False) (fun _ => ⟨rfl, id⟩) (or_iff_left id).symm

variable {visit : Part → Tracker → Except StackFault Tracker} {deep : Part → Prop}

theorem bounds_parts (each : ∀ p t, Bounds (deep p) (visit p t) (p.visit t)) (ps : List Part) :
    ∀ t, Bounds (∃ p ∈ ps, deep p) (ps.foldlM (fun t p => visit p t) t) (visitParts ps t) := by
  induction ps with
  | nil => exact fun t => ⟨rfl, by simp⟩
  | cons p ps ih =>
    intro t
    rw [foldlM_cons]
    exact (each p t).andThen ih (by simp)

theorem bounds_branches (each : ∀ p t, Bounds (deep p) (visit p t) (p.visit t)) (bs : Branches) :
    ∀ t, Bounds (∃ p ∈ bs.flatMap (·.2), deep p)
      (bs.foldlM (fun t b => b.2.foldlM (fun t p => visit p t) { t with branch := b.1 }) t)
      (visitBranches bs t) := by
  induction bs with
  | nil => exact fun t => ⟨rfl, by simp⟩
  | cons b bs ih =>
    intro t
    rw [foldlM_cons]
    refine (bounds_parts each b.2 { t with branch := b.1 }).andThen ih ?_
    simp only [flatMap_cons, mem_append, or_and_right, exists_or]

theorem bounds_run (each : ∀ p t, Bounds (deep p) (visit p t) (p.visit t)) (a : Action) (t : Tracker) :
    Bounds (∃ p ∈ a.parts, deep p) (a.runBy visit t) (a.run t) := by
  cases a with
  | record calls f =>
    rw [Action.runBy, Action.run]
    cases f t with
    | ok u => exact ⟨rfl, by simp [Action.parts]⟩
    | error f => rfl
  | visit p =>
    simp only [Action.parts, mem_singleton, exists_eq_left]
    exact each p t
  | loop name vars parts => exact (bounds_parts each parts _).map _
  | function name first last params body =>
    simp only [Action.parts, mem_singleton, exists_eq_left]
    exact (each (.block body) (t.enterFunction name first params)).map _
  | conditional test branches =>
    refine (each (.expr test) t.openConditional).andThen
      (fun u => (bounds_branches each branches u).map _) ?_
    simp only [Action.parts, mem_cons, or_and_right, exists_or, exists_eq_left]

theorem bounds_actions (each : ∀ p t, Bounds (deep p) (visit p t) (p.visit t)) (as : List Action) :
    ∀ t, Bounds (∃ p ∈ as.flatMap Action.parts, deep p)
      (as.foldlM (fun t a => a.runBy visit t) t) (runActions as t) := by
  induction as with
  | nil => exact fun t => ⟨rfl, by simp⟩
  | cons a as ih =>
    intro t
    rw [foldlM_cons]
    refine (bounds_run each a t).andThen ih ?_
    simp only [flatMap_cons, mem_append, or_and_right, exists_or]

end

theorem Part.visit_inner (p : Part) (t : Tracker) : p.inner.visit t = p.visit t := by
  unfold Part.inner
  split <;> rfl

/-- A visit on a stack with an end goes wrong as one without, or because it gets too deep. -/
theorem Part.visitWithin_bounds (n : Nat) (p : Part) (t : Tracker) :
    Bounds (p.isDeeperThan n) (p.visitWithin n t) (p.visit t) := by
  induction n generalizing p t with
  | zero => rfl
  | succ n ih =>
    rw [← p.visit_inner, p.inner.visit_eq, Part.isDeeperThan, any_eq_true]
    exact bounds_actions ih p.inner.actions t

end LuaTune.Analysis
