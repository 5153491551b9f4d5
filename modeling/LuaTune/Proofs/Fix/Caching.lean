import LuaTune.Proofs.Fix.Bounds
import LuaTune.Proofs.Lua.Bare

/-!
# Copies of results and the calls that they stand for

Which calls are replaced by a copy of their result depends on their name, their function and their
lines, and not on their arguments; the declaration that is inserted has fixed arguments. So a call
is replaced by its own result only as far as the arguments happen to agree.
-/

namespace LuaTune.Fix

open Lua Analysis Text List

variable {name : String} {source : Chars} {copy : ResultCopy}

/-! ## What the copy is declared as -/

def ResultCopy.callsOnly (copy : ResultCopy) (name : String) : Bool :=
  match Chunk.parse? copy.declaration with
  | some [.localAssign _ [id] [.call (.name fn) _ _]] =>
    id.name.toList == copy.name && fn.name == name
  | _ => false

theorem declarations_callOnly :
    (nativeCopies.all fun row => row.1.toList.contains '.' || row.2.callsOnly row.1) = true := by
  decide +kernel

theorem rows_haveNoUnderscore : (nativeCopies.all fun row => !row.1.toList.contains '_') = true := by
  decide +kernel

theorem expensiveCalls_arePlain : (Vocabulary.expensiveCalls.all fun name =>
      !name.toList.contains '(' && !name.toList.contains ':') = true := by
  decide +kernel

theorem splitMethod?_eq_none {cs : Chars} (h : '(' ∉ cs) (object : Chars) :
    splitMethod? object cs = none := by
  induction cs generalizing object with
  | nil => rfl
  | cons c cs ih =>
    have unlisted : (methodCopies.find? fun m => (c :: cs) == '_' :: m.1.toList ++ ['(', ')']) = none := by
      refine List.find?_eq_none.mpr fun m _ same => h ?_
      rw [eq_of_beq same]
      simp
    rw [splitMethod?, unlisted, ite_self, ih (fun hc => h (mem_cons_of_mem c hc)), ite_self]

theorem subject_eq {subject : Chars}
    (pattern : (Rules.repeatedPattern name).toList = "repeated_".toList ++ subject) :
    subject = name.toList.map fun c => if c == '.' || c == ':' then '_' else c := by
  rw [Rules.repeatedPattern, String.toList_append] at pattern
  exact (append_cancel_left pattern).symm.trans (String.toList_ofList)

/-- The pattern of a finding leads to a copy only for a function with a plain name, and to one that is
declared by a call of that function. -/
theorem resultCopy?_eq_some {f : Finding}
    (expensive : name ∈ Vocabulary.expensiveCalls)
    (pattern : f.pattern = Rules.repeatedPattern name) (h : resultCopy? f = some copy) :
    f.pattern = "repeated_" ++ name ∧ '.' ∉ name.toList ∧ ':' ∉ name.toList ∧ copy.callsOnly name := by
  have plain := all_eq_true.mp expensiveCalls_arePlain name expensive
  have noParen : '(' ∉ name.toList := by simpa using (Bool.and_eq_true_iff.mp plain).1
  have noColon : ':' ∉ name.toList := by simpa using (Bool.and_eq_true_iff.mp plain).2
  obtain ⟨subject, stripped, h⟩ := Option.bind_eq_some_iff.mp h
  rw [pattern, stripPrefix?_eq_some] at stripped
  have written := subject_eq stripped
  split at h
  · next row copy found =>
    cases h
    have row_mem := mem_of_find?_eq_some found
    have same : row.toList = subject := by simpa using List.find?_some found
    have noUnderscore : '_' ∉ subject := by
      simpa [same] using all_eq_true.mp rows_haveNoUnderscore _ row_mem
    rw [written] at noUnderscore
    have noDot : '.' ∉ name.toList := fun dot => noUnderscore (mem_map.mpr ⟨'.', dot, rfl⟩)
    have kept : subject = name.toList := by
      rw [written]
      refine (map_congr_left fun c hc => ?_).trans (map_id _)
      have dot : c ≠ '.' := fun same => noDot (same ▸ hc)
      have colon : c ≠ ':' := fun same => noColon (same ▸ hc)
      simp [dot, colon]
    have named : row = name := String.toList_injective (same.trans kept)
    subst named
    have declared := all_eq_true.mp declarations_callOnly _ row_mem
    have isPlain : (row.toList.contains '.') = false := by simpa using noDot
    rw [isPlain, Bool.false_or] at declared
    refine ⟨?_, noDot, noColon, declared⟩
    rw [pattern, ← String.toList_inj, stripped, kept, String.toList_append]
  · have whole : '(' ∉ subject := by
      rw [written]
      intro paren
      obtain ⟨c, hc, mapped⟩ := mem_map.mp paren
      split at mapped
      · cases mapped
      · exact noParen (mapped ▸ hc)
    unfold methodCopy? at h
    rw [splitMethod?_eq_none whole] at h
    cases h

/-! ## Which calls are replaced -/

/-- The copy can be written over a call: its place is known, and its line declares no copy. -/
def IsReplaceable (source : Chars) (copy : ResultCopy) (call : Call) : Prop :=
  (exprSpan source call.node).1.isSome ∧ ¬ (lineText? source call.line).any copy.isDeclaredIn

theorem isSome_resultUse? {call : Call} :
    (resultUse? source copy call).isSome ↔ IsReplaceable source copy call := by
  unfold resultUse? IsReplaceable
  split
  · next declared => simp [declared]
  · next undeclared =>
    rcases exprSpan source call.node with ⟨_ | start, stop⟩
    · simp
    · simpa using undeclared

def CachePlan.replaced (source : Chars) (plan : CachePlan) : List Call :=
  plan.calls.filter fun c => (resultUse? source plan.copy c).isSome

theorem CachePlan.edits_eq (source : Chars) (plan : CachePlan) : plan.edits source =
    plan.inserted.toList ++ (plan.replaced source).filterMap (resultUse? source plan.copy) := by
  rw [edits, replaced, filterMap_filter]
  congr 2
  funext c
  cases resultUse? source plan.copy c <;> rfl

/-- The block of a line that declares a copy does not end before a call. -/
def IsReached (source : Chars) (first call : Call) : Prop :=
  ¬ blockEnds source (lineIndent source first.line).length (first.line + 1) call.line

theorem of_cachePlan? {f : Finding} {plan : CachePlan} (h : cachePlan? source f = some plan) :
    ∃ calls first, f.details.calls? "calls" = some calls ∧ calls.head? = some first ∧
      resultCopy? f = some plan.copy ∧
      ∀ call, call ∈ plan.replaced source ↔ call ∈ calls ∧ IsReplaceable source plan.copy call ∧
        (plan.inserted = none → IsReached source first call) := by
  unfold cachePlan? at h
  obtain ⟨calls, found, h⟩ := Option.bind_eq_some_iff.mp h
  obtain ⟨scope, -, h⟩ := Option.bind_eq_some_iff.mp h
  obtain ⟨first, head, h⟩ := Option.bind_eq_some_iff.mp h
  obtain ⟨last, -, h⟩ := Option.bind_eq_some_iff.mp h
  obtain ⟨copy, asked, h⟩ := Option.bind_eq_some_iff.mp h
  refine ⟨calls, first, found, head, ?_⟩
  split at h
  · cases h
    refine ⟨asked, fun call => ?_⟩
    simp only [CachePlan.replaced, mem_filter, isSome_resultUse?, IsReached, Bool.not_eq_true',
      Bool.not_eq_true]
    tauto
  · obtain ⟨declaration, -, h⟩ := Option.bind_eq_some_iff.mp h
    cases h
    refine ⟨asked, fun call => ?_⟩
    simp [CachePlan.replaced, mem_filter, isSome_resultUse?]

theorem findingEdits_of_plan {f : Finding} {plan : CachePlan}
    (repeated : startsWith f.pattern.toList "repeated_".toList)
    (planned : cachePlan? source f = some plan) (o : Options) : findingEdits o source f =
      plan.inserted.toList ++ (plan.replaced source).filterMap (resultUse? source plan.copy) := by
  rw [findingEdits_of_repeated o repeated, repeatedCallEdits, planned, ← plan.edits_eq]
  rfl

/-- The value that a copy is declared with: in the declaration that is inserted, or in one that stands
on the line of the first call. -/
def CachePlan.DeclaredAs (plan : CachePlan) (c : Chunk) (first : Call) (value : Expr) : Prop :=
  if plan.inserted.isSome then
    ∃ start id, Chunk.parse? plan.copy.declaration = some [.localAssign start [id] [value]] ∧
      id.name.toList = plan.copy.name
  else
    ∃ start id more, Node.stat (.localAssign start [id] (value :: more)) ∈ c.walk ∧
      id.name.toList = plan.copy.name ∧ start.line = first.line

theorem CachePlan.DeclaredAs.unique {plan : CachePlan} {c : Chunk} {first : Call} {value other : Expr}
    (inserted : plan.inserted.isSome) (h : plan.DeclaredAs c first value)
    (h' : plan.DeclaredAs c first other) : value = other := by
  rw [CachePlan.DeclaredAs, if_pos inserted] at h h'
  obtain ⟨start, id, parsed, -⟩ := h
  obtain ⟨start', id', parsed', -⟩ := h'
  cases parsed.symm.trans parsed'
  rfl

theorem ResultCopy.of_callsOnly (h : copy.callsOnly name) : ∃ start id fn args last,
      Chunk.parse? copy.declaration = some [.localAssign start [id] [.call (.name fn) args last]] ∧
        id.name.toList = copy.name ∧ fn.name = name := by
  unfold callsOnly at h
  split at h
  · next start id fn args last parsed =>
    obtain ⟨copied, called⟩ := Bool.and_eq_true_iff.mp h
    exact ⟨start, id, fn, args, last, parsed, eq_of_beq copied, eq_of_beq called⟩
  · cases h

theorem same_call_iff {fn : Ident} {args : List Expr} {last : Option Token} {value : Expr} :
    (Expr.call (.name fn) args last).Same value ↔
      ∃ fn' args' last', value = .call (.name fn') args' last' ∧ fn'.name = fn.name ∧
        bareExprs args = bareExprs args' := by
  constructor
  · intro same
    cases value with
    | call callee args' last' =>
      cases callee with
      | name fn' =>
        simp only [Expr.Same, Expr.bare, Ident.bare, Expr.call.injEq, Expr.name.injEq,
          Ident.mk.injEq] at same
        exact ⟨fn', args', last', rfl, same.1.1.symm, same.2.1⟩
      | _ => simp [Expr.Same, Expr.bare] at same
    | _ => simp [Expr.Same, Expr.bare] at same
  · rintro ⟨fn', args', last', rfl, name, sameArgs⟩
    simp [Expr.Same, Expr.bare, Ident.bare, name, sameArgs]

/-- The fix of repeated calls inserts the declaration of a copy, unless it is there, and replaces all
calls of one name in one function whose places are known, but for those on lines that declare a copy
and those that the declaration does not reach. The arguments play no part, so every replaced call is the expression that the copy is declared with if and
only if that expression is a call of the same name with the arguments of each of them. The declaration
that is inserted is always a call of that name. -/
theorem replaced_calls_agree_iff {settings : Settings} {source : Chars} {findings : List Finding}
    {f : Finding} {c : Chunk} {plan : CachePlan} (parsed : Chunk.parse? source = some c)
    (found : analyzeSource settings source = .ok findings) (hf : f ∈ findings)
    (repeated : startsWith f.pattern.toList "repeated_".toList)
    (planned : cachePlan? source f = some plan) :
    ∃ t name id first, visitChunk c (lines source) = .ok t ∧ f.pattern = "repeated_" ++ name ∧
      (callsIn t id name).head? = some first ∧
      (∀ o, findingEdits o source f =
        plan.inserted.toList ++ (plan.replaced source).filterMap (resultUse? source plan.copy)) ∧
      (∀ call, call ∈ plan.replaced source ↔ call ∈ callsIn t id name ∧
        IsReplaceable source plan.copy call ∧ (plan.inserted = none → IsReached source first call)) ∧
      (plan.inserted.isSome → ∃ fn args last,
        plan.DeclaredAs c first (.call (.name fn) args last) ∧ fn.name = name) ∧
      ∀ value, plan.DeclaredAs c first value →
        ((∀ call ∈ plan.replaced source, call.node.Same value) ↔
          ∀ call ∈ plan.replaced source, ∃ fn args last, value = .call (.name fn) args last ∧
            fn.name = name ∧ bareExprs call.args = bareExprs args) := by
  obtain ⟨calls, first, kept, head, asked, replaced⟩ := of_cachePlan? planned
  obtain ⟨t, visited, found⟩ := exists_visit parsed found
  have rule : f ∈ Rules.repeatedFindings settings t.scopes t.calls := by
    rw [← found] at hf
    have made := Finding.madeOf f hf
    rw [ruleKind_of_repeated repeated] at made
    cases made with
    | repeated found => exact found
    | lengths _ none => cases none.symm.trans kept
  obtain ⟨name, id, scope, expensive, -, pattern, -, listed, -⟩ := mem_repeatedFindings rule
  obtain ⟨plain, noDot, noColon, declared⟩ := resultCopy?_eq_some expensive pattern asked
  cases kept.symm.trans listed
  have node : ∀ call ∈ plan.replaced source, ∃ fn last, call.node = .call (.name fn) call.args last ∧
      fn.name = name := by
    intro call hc
    obtain ⟨recorded, named⟩ := mem_filter.mp ((replaced call).mp hc).1
    have fullName : call.fullName = name := eq_of_beq (Bool.and_eq_true_iff.mp named).1
    rw [← fullName] at noDot noColon
    obtain ⟨fn, last, node, called⟩ := node_of_plainName (calls_isTrue visited call recorded) noDot noColon
    exact ⟨fn, last, node, called.trans fullName⟩
  refine ⟨t, name, id, first, visited, plain, head, findingEdits_of_plan repeated planned, replaced,
    fun inserted => ?_, fun value _ => ?_⟩
  · obtain ⟨start, copyId, fn, args, last, parses, copied, called⟩ := ResultCopy.of_callsOnly declared
    refine ⟨fn, args, last, ?_, called⟩
    rw [CachePlan.DeclaredAs, if_pos inserted]
    exact ⟨start, copyId, parses, copied⟩
  · refine forall₂_congr fun call hc => ?_
    obtain ⟨fn, last, node, called⟩ := node call hc
    rw [node, same_call_iff, called]

/-! ## Scripts where the arguments agree and where they do not -/

def anyPlan (source : Chars) (test : CachePlan → Expr → Bool) : Bool :=
  match Chunk.parse? source, analyzeSource {} source with
  | some _, .ok findings => findings.any fun f =>
    f.severity == .green && startsWith f.pattern.toList "repeated_".toList &&
      match cachePlan? source f with
      | none => false
      | some plan =>
        match Chunk.parse? plan.copy.declaration with
        | some [.localAssign _ [id] [value]] =>
          plan.inserted.isSome && id.name.toList == plan.copy.name && test plan value
        | _ => false
  | _, _ => false

theorem of_anyPlan {test : CachePlan → Expr → Bool} (h : anyPlan source test) :
    ∃ c findings f plan value, Chunk.parse? source = some c ∧
      analyzeSource {} source = .ok findings ∧ f ∈ findings ∧ f.severity = .green ∧
      startsWith f.pattern.toList "repeated_".toList ∧ cachePlan? source f = some plan ∧
      plan.inserted.isSome ∧ (∀ first, plan.DeclaredAs c first value) ∧ test plan value := by
  unfold anyPlan at h
  split at h
  · next c findings parsed found =>
    obtain ⟨f, hf, checked⟩ := any_eq_true.mp h
    obtain ⟨shape, checked⟩ := Bool.and_eq_true_iff.mp checked
    obtain ⟨green, repeated⟩ := Bool.and_eq_true_iff.mp shape
    split at checked
    · cases checked
    · next plan planned =>
      split at checked
      · next start id value declared =>
        obtain ⟨inserts, passed⟩ := Bool.and_eq_true_iff.mp checked
        obtain ⟨inserted, named⟩ := Bool.and_eq_true_iff.mp inserts
        refine ⟨c, findings, f, plan, value, parsed, found, hf, eq_of_beq green, repeated, planned,
          inserted, fun first => ?_, passed⟩
        rw [CachePlan.DeclaredAs, if_pos inserted]
        exact ⟨start, id, declared, eq_of_beq named⟩
      · cases checked
  · cases h

def soleName? : List Expr → Option String
  | [.name id] => some id.name
  | _ => none

def callArgs : Expr → List Expr
  | .call _ args _ => args
  | _ => []

theorem bareExprs_of_soleName? {args : List Expr} (h : soleName? args = some name) :
    bareExprs args = [.name ⟨name, default⟩] := by
  unfold soleName? at h
  split at h
  · cases h
    rfl
  · cases h

theorem bareExprs_of_same {e d : Expr} (same : e.Same d) :
    bareExprs (callArgs e) = bareExprs (callArgs d) := by
  have args : ∀ e : Expr, callArgs e.bare = bareExprs (callArgs e) := by
    intro e
    cases e <;> rfl
  rw [← args, ← args, same]

def ownCoords : Chars :=
  ("f(GetEntityCoords(ped))\nf(GetEntityCoords(ped))\nf(GetEntityCoords(ped))\n" ++
    "f(GetEntityCoords(ped))\n").toList

theorem ownCoords_agree : ∃ c findings f plan value, Chunk.parse? ownCoords = some c ∧
    analyzeSource {} ownCoords = .ok findings ∧ f ∈ findings ∧
    startsWith f.pattern.toList "repeated_".toList ∧ cachePlan? ownCoords f = some plan ∧
    (∀ o, findingEdits o ownCoords f = plan.inserted.toList ++
      (plan.replaced ownCoords).filterMap (resultUse? ownCoords plan.copy)) ∧
    (plan.replaced ownCoords).length = 4 ∧ (∀ first, plan.DeclaredAs c first value) ∧
    ∀ call ∈ plan.replaced ownCoords, call.node.Same value := by
  have checked : anyPlan ownCoords fun plan value => (plan.replaced ownCoords).length == 4 &&
      soleName? (callArgs value) == some "ped" &&
      (plan.replaced ownCoords).all fun call => soleName? call.args == some "ped" := by
    decide +kernel
  obtain ⟨c, findings, f, plan, value, parsed, found, hf, -, repeated, planned, inserted, declared,
    passed⟩ := of_anyPlan checked
  obtain ⟨shape, peds⟩ := Bool.and_eq_true_iff.mp passed
  obtain ⟨four, ped⟩ := Bool.and_eq_true_iff.mp shape
  obtain ⟨t, name, id, first, -, -, -, edits, -, inserts, agree⟩ :=
    replaced_calls_agree_iff parsed found hf repeated planned
  obtain ⟨fn, args, last, called, named⟩ := inserts inserted
  have same := (declared first).unique inserted called
  refine ⟨c, findings, f, plan, value, parsed, found, hf, repeated, planned, edits, eq_of_beq four,
    declared, (agree value (declared first)).mpr fun call hc => ⟨fn, args, last, same, named, ?_⟩⟩
  rw [same] at ped
  exact (bareExprs_of_soleName? (eq_of_beq (all_eq_true.mp peds call hc))).trans
    (bareExprs_of_soleName? (eq_of_beq ped)).symm

def coordsOfOthers : Chars :=
  ("f(GetEntityCoords(a))\nf(GetEntityCoords(b))\nf(GetEntityCoords(c))\n" ++
    "f(GetEntityCoords(d))\n").toList

theorem coordsOfOthers_differ : ∃ c findings f plan value call,
    Chunk.parse? coordsOfOthers = some c ∧ analyzeSource {} coordsOfOthers = .ok findings ∧
    f ∈ findings ∧ f.severity = .green ∧ startsWith f.pattern.toList "repeated_".toList ∧
    cachePlan? coordsOfOthers f = some plan ∧
    (∀ o, findingEdits o coordsOfOthers f = plan.inserted.toList ++
      (plan.replaced coordsOfOthers).filterMap (resultUse? coordsOfOthers plan.copy)) ∧
    plan.inserted.isSome ∧ (∀ first, plan.DeclaredAs c first value) ∧
    call ∈ plan.replaced coordsOfOthers ∧ ¬ call.node.Same value := by
  have checked : anyPlan coordsOfOthers fun plan value =>
      soleName? (callArgs value) == some "ped" &&
      (plan.replaced coordsOfOthers).any fun call => soleName? (callArgs call.node) == some "a" := by
    decide +kernel
  obtain ⟨c, findings, f, plan, value, parsed, found, hf, green, repeated, planned, inserted, declared,
    passed⟩ := of_anyPlan checked
  obtain ⟨ped, others⟩ := Bool.and_eq_true_iff.mp passed
  obtain ⟨call, hc, other⟩ := any_eq_true.mp others
  refine ⟨c, findings, f, plan, value, call, parsed, found, hf, green, repeated, planned,
    findingEdits_of_plan repeated planned, inserted, declared, hc, fun same => ?_⟩
  have names := bareExprs_of_same same
  rw [bareExprs_of_soleName? (eq_of_beq other), bareExprs_of_soleName? (eq_of_beq ped)] at names
  simp at names

end LuaTune.Fix
