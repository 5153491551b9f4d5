import LuaTune.Proofs.Fix.Rows

/-!
# Calls that use a local copy

Which calls use a copy is decided by how often a name is called in a function. What the name is
bound to at a call has no part in it.
-/

namespace LuaTune.Fix

open Lua Analysis Rules Text List

variable {name : String} {g : String × List Call}

/-! ## Calls by name in a function -/

structure IsCopied (settings : Settings) (t : Tracker) (s : Scope) (c : Call) : Prop where
  around : t.scopes[functionScope t.scopes c.scope]? = some s
  inside : s.kind ≠ .global
  cacheable : isCacheable c.fullName
  called : c.fullName ∉ Vocabulary.replacedFunctions
  uncopied : c.fullName ∉ s.cached
  frequent : isFrequent settings s (callsIn t (functionScope t.scopes c.scope) c.fullName)

instance (settings : Settings) (t : Tracker) (s : Scope) (c : Call) : Decidable (IsCopied settings t s c) :=
  decidable_of_iff (t.scopes[functionScope t.scopes c.scope]? = some s ∧ s.kind ≠ .global ∧ isCacheable c.fullName ∧
      c.fullName ∉ Vocabulary.replacedFunctions ∧ c.fullName ∉ s.cached ∧
      isFrequent settings s (callsIn t (functionScope t.scopes c.scope) c.fullName))
    ⟨fun ⟨around, inside, cacheable, called, uncopied, frequent⟩ =>
      ⟨around, inside, cacheable, called, uncopied, frequent⟩,
    fun h => ⟨h.around, h.inside, h.cacheable, h.called, h.uncopied, h.frequent⟩⟩

variable {settings : Settings} {t : Tracker} {s : Scope} {c : Call} {f : Finding}

theorem mem_callsIn {id : ScopeId} :
    c ∈ callsIn t id name ↔ c ∈ t.calls ∧ c.fullName = name ∧ functionScope t.scopes c.scope = id := by
  simp [callsIn]

theorem callsByFunction_eq {p : ScopeId × List (String × List Call)}
    (hp : p ∈ callsByFunction t.scopes t.calls) (hg : g ∈ p.2) : g.2 = callsIn t p.1 g.1 := by
  obtain ⟨group, hgroup, rfl⟩ := mem_map.mp hp
  rw [(areGroups_groupOn _).groups g hg, (areGroups_groupOn _).groups group hgroup, filter_filter]
  rfl

theorem exists_callsByFunction (hc : c ∈ t.calls) :
    ∃ groups, (functionScope t.scopes c.scope, groups) ∈ callsByFunction t.scopes t.calls ∧
      (c.fullName, callsIn t (functionScope t.scopes c.scope) c.fullName) ∈ groups := by
  obtain ⟨group, hgroup, key, inGroup⟩ := exists_mem_groupOn (fun c => functionScope t.scopes c.scope) hc
  obtain ⟨named, hnamed, name, -⟩ := exists_mem_groupOn (fun c => c.fullName) inGroup
  have mem : (group.1, groupOn (·.fullName) group.2) ∈ callsByFunction t.scopes t.calls :=
    mem_map.mpr ⟨group, hgroup, rfl⟩
  have calls := callsByFunction_eq mem hnamed
  rw [← key, ← name]
  exact ⟨_, mem, calls ▸ hnamed⟩

theorem mem_uncachedGlobals {groups : List (String × List Call)} :
    g ∈ uncachedGlobals settings s groups ↔ g ∈ groups ∧ isCacheable g.1 ∧
      g.1 ∉ Vocabulary.replacedFunctions ∧ g.1 ∉ s.cached ∧ isFrequent settings s g.2 := by
  simp only [uncachedGlobals, mem_filter, Bool.and_eq_true, Bool.not_eq_true', contains_eq_mem,
    decide_eq_false_iff_not]
  tauto

theorem of_mem_globalCalls (hf : f ∈ uncachedFindings settings t.scopes t.calls)
    (hg : g ∈ globalCalls f) (hc : c ∈ g.2) :
    c.fullName = g.1 ∧ ∃ s, f.details.scope? "scope" = some s ∧ IsCopied settings t s c := by
  obtain ⟨p, hp, s, around, summary⟩ := of_mem_uncachedFindings hf
  rw [globalCalls, summary.calls] at hg
  obtain ⟨mem, cacheable, called, uncopied, frequent⟩ := mem_uncachedGlobals.mp hg
  rw [callsByFunction_eq hp mem] at hc frequent
  obtain ⟨-, name, id⟩ := mem_callsIn.mp hc
  rw [← name] at cacheable called uncopied frequent
  rw [← id] at around frequent
  exact ⟨name, s, summary.scope, around, summary.inside, cacheable, called, uncopied, frequent⟩

theorem IsCopied.exists_finding (copied : IsCopied settings t s c) (hc : c ∈ t.calls) :
    ∃ f ∈ uncachedFindings settings t.scopes t.calls, f.details.scope? "scope" = some s ∧
      ∃ g ∈ globalCalls f, c ∈ g.2 := by
  obtain ⟨groups, hp, hg⟩ := exists_callsByFunction hc
  have kept := mem_uncachedGlobals.mpr ⟨hg, copied.cacheable, copied.called, copied.uncopied, copied.frequent⟩
  obtain ⟨f, made⟩ : ∃ f, uncachedFinding? settings (functionScope t.scopes c.scope) s groups = some f := by
    refine ⟨_, if_neg ?_⟩
    simp [ne_nil_of_mem kept, copied.inside]
  have summary := of_uncachedFinding? made
  have found : (t.scopes[functionScope t.scopes c.scope]?).bind (fun s =>
      uncachedFinding? settings (functionScope t.scopes c.scope) s groups) = some f := by
    rw [copied.around, Option.bind_some, made]
  have calls : globalCalls f = uncachedGlobals settings s groups := by rw [globalCalls, summary.calls]
  exact ⟨f, mem_filterMap.mpr ⟨_, hp, found⟩, summary.scope, _, calls ▸ kept, mem_callsIn.mpr ⟨hc, rfl, rfl⟩⟩

/-! ## Edits -/

/-- Where a call writes the name of its function: a name, or a field that is taken with a point. -/
def calleeSpan? : Expr → Option (Nat × Nat)
  | .call (.name id) _ _ => some (id.token.start, id.token.stop + 1)
  | .call (.index .dot (.name m) (.name f)) _ _ => some (m.token.start, f.token.stop + 1)
  | _ => none

variable {source : Chars} {e : Edit}

theorem colon_not_mem_of_isCacheable (h : isCacheable name) : ':' ∉ name.toList := by
  have globals : ∀ n ∈ Vocabulary.cacheableGlobals, ':' ∉ n.toList := by decide +kernel
  have modules : ∀ m ∈ Vocabulary.cacheableModules, ':' ∉ m.1.toList ∧ ∀ n ∈ m.2, ':' ∉ n.toList := by
    decide +kernel
  unfold isCacheable at h
  rcases Bool.or_eq_true_iff.mp h with listed | listed
  · exact globals name (contains_iff_mem.mp listed)
  · split at listed
    · cases listed
    · next n found =>
      simp only [any_eq_true, Bool.and_eq_true, beq_iff_eq, contains_iff_mem] at listed
      obtain ⟨m, hm, module, func⟩ := listed
      obtain ⟨inside, point, -⟩ := List.findIdx?_eq_some_iff_getElem.mp found
      have first : ':' ∉ name.toList.take n := by simpa [module] using (modules m hm).1
      have rest : ':' ∉ name.toList.drop (n + 1) := by simpa using (modules m hm).2 _ func
      rw [← take_append_drop n name.toList, drop_eq_getElem_cons inside, eq_of_beq point]
      simp [first, rest]

/-- Where a call writes the name of its function, or else where the call first has that name in its text. -/
def namePlace (source : Chars) (c : Call) : Span :=
  match calleeSpan? c.node with
  | some (start, stop) => (some start, some stop)
  | none => nameSpanIn source c.node c.fullName.toList

theorem funcSpan_eq (said : c.IsTrue) (cacheable : isCacheable c.fullName) :
    funcSpan source c.node c.fullName.toList = namePlace source c := by
  obtain ⟨names, -⟩ := said
  unfold Call.Names at names
  split at names
  · next callee args last node =>
    obtain ⟨name, -⟩ := names
    unfold Tracker.calleeName? at name
    split at name
    · next id => simp [namePlace, calleeSpan?, node, funcSpan, exprSpan, tokenSpan, Expr.first, Expr.last,
        tokenStart, tokenEnd, Anchor.isAbsent, Anchor.token?]
    · next form m f =>
      have point : '.' ∈ c.fullName.toList := by
        simp only [Option.some.injEq, Prod.mk.injEq] at name
        simp [← name.2.2, ToString.toString]
      cases form <;> simp [namePlace, calleeSpan?, node, funcSpan, Expr.first, Expr.last, tokenStart, tokenEnd,
        Anchor.token?, point]
    · cases name
  · next receiver method args node =>
    have colon : ':' ∈ c.fullName.toList := by simp [names.1]
    exact absurd colon (colon_not_mem_of_isCacheable cacheable)
  · cases names

theorem copyUse?_eq_some_iff : copyUse? source name c = some e ↔
    ∃ start stop, funcSpan source c.node name.toList = (some start, stop) ∧
      e = editAt start stop (copyName name.toList) := by
  unfold copyUse?
  split
  · next start stop span => simp [span, eq_comm]
  · next stop span => simp [span]

theorem globals_of_pattern {a : Analyzed} (hf : f ∈ a.findings settings)
    (pattern : f.pattern = "uncached_globals_summary") :
    f ∈ uncachedFindings settings a.tracker.scopes a.tracker.calls := by
  have kind : ruleKind f.pattern = .globals := by
    rw [pattern]
    decide
  have made := Finding.madeOf f hf
  rw [kind] at made
  cases made with
  | globals found => exact found

theorem mem_fixable_of_green (o : Options) {findings : List Finding} (hf : f ∈ findings)
    (green : f.severity = .green) : f ∈ fixable o findings := by
  have chosen : f ∈ findings.filter fun f => o.severities.contains f.severity := by
    simp [hf, green, Options.severities]
  unfold fixable addOnNewLines
  grind

/-- The fix lets a call use a copy of the function by whose name it is called. -/
def Redirects (o : Options) (source : Chars) (findings : List Finding) (c : Call) (e : Edit) : Prop :=
  ∃ f ∈ fixable o findings, f.pattern = "uncached_globals_summary" ∧ e ∈ findingEdits o source f ∧
    ∃ g ∈ globalCalls f, c ∈ g.2 ∧ copyUse? source g.1 c = some e

theorem mem_globalEdits_iff (scope : f.details.scope? "scope" = some s) (hg : g ∈ globalCalls f)
    (hc : c ∈ g.2) (use : copyUse? source g.1 c = some e) :
    e ∈ globalEdits source f ↔ (lineEnd source s.startLine).isSome := by
  have used : e ∈ (globalCalls f).flatMap fun g => g.2.filterMap (copyUse? source g.1) :=
    mem_flatMap.mpr ⟨g, hg, mem_filterMap.mpr ⟨c, hc, use⟩⟩
  cases known : lineEnd source s.startLine with
  | none => simp [globalEdits, scope, ne_nil_of_mem hg, known]
  | some place =>
    simp only [globalEdits, scope, known, Option.bind_eq_bind, Option.bind_some, Option.pure_def,
      Option.getD_some, isEmpty_eq_false_iff.mpr (ne_nil_of_mem hg), Bool.false_eq_true, if_false,
      Option.isSome_some, iff_true]
    exact mem_cons_of_mem _ used

/-- Exactly the calls of frequent names are redirected, whatever their names are bound to: a call is in a
named function, its name is worth a copy there, and the line of the function's head is known. -/
theorem redirects_iff (o : Options) {tree : Chunk} {findings : List Finding}
    (parsed : Chunk.parse? source = some tree) (analyzed : analyzeSource settings source = .ok findings) :
    ∃ t, visitChunk tree (Text.lines source) = .ok t ∧ ∀ c ∈ t.calls, ∀ e,
      Redirects o source findings c e ↔ ∃ s, IsCopied settings t s c ∧ (lineEnd source s.startLine).isSome ∧
        ∃ start stop, namePlace source c = (some start, stop) ∧
          e = editAt start stop (copyName c.fullName.toList) := by
  obtain ⟨t, visited, same⟩ := exists_visit parsed analyzed
  rw [← same]
  refine ⟨t, visited, fun c hc e => ?_⟩
  have said := calls_isTrue visited c hc
  constructor
  · rintro ⟨f, hf, pattern, he, g, hg, hcg, use⟩
    have found := globals_of_pattern (mem_of_mem_fixable hf) pattern
    obtain ⟨name, s, scope, copied⟩ := of_mem_globalCalls found hg hcg
    simp only [findingEdits, pattern, mem_globalEdits_iff scope hg hcg use] at he
    rw [copyUse?_eq_some_iff, ← name, funcSpan_eq said copied.cacheable] at use
    exact ⟨s, copied, he, use⟩
  · rintro ⟨s, copied, known, span⟩
    obtain ⟨f, hf, scope, g, hg, hcg⟩ := copied.exists_finding hc
    have name := (of_mem_globalCalls hf hg hcg).1
    obtain ⟨_, _, _, _, summary⟩ := of_mem_uncachedFindings hf
    have use : copyUse? source g.1 c = some e := by
      rwa [copyUse?_eq_some_iff, ← name, funcSpan_eq said copied.cacheable]
    have fixed : f ∈ fixable o (Analyzed.findings ⟨source, tree, t⟩ settings) := by
      refine mem_fixable_of_green o ?_ summary.severity
      unfold Analyzed.findings
      simp [hf]
    refine ⟨f, fixed, summary.pattern, ?_, g, hg, hcg, use⟩
    simp only [findingEdits, summary.pattern, mem_globalEdits_iff scope hg hcg use]
    exact known

def ownPairs : Chars :=
  ("function f(t)\n  local pairs = t.each\n  pairs(t)\n  pairs(t)\n  pairs(t)\n  pairs(t)\nend\n").toList

def hasCopied (source : Chars) (tree : Chunk) : Bool :=
  match visitChunk tree (Text.lines source) with
  | .ok t => t.calls.any fun c => t.scopes.any fun s =>
    decide (IsCopied {} t s c) && (lineEnd source s.startLine).isSome && (namePlace source c).1.isSome
  | .error _ => false

theorem ownPairs_hasRedirects : ∃ tree findings t c e, Chunk.parse? ownPairs = some tree ∧
    analyzeSource {} ownPairs = .ok findings ∧ visitChunk tree (Text.lines ownPairs) = .ok t ∧ c ∈ t.calls ∧
    Redirects {} ownPairs findings c e := by
  have checked : analysisPasses ownPairs fun tree _ => hasCopied ownPairs tree := by decide +kernel
  obtain ⟨tree, findings, parsed, analyzed, passed⟩ := of_analysisPasses checked
  obtain ⟨t, visited, rule⟩ := redirects_iff {} parsed analyzed
  simp only [hasCopied, visited, any_eq_true, Bool.and_eq_true, decide_eq_true_eq] at passed
  obtain ⟨c, hc, s, -, ⟨copied, known⟩, place⟩ := passed
  obtain ⟨start, at_⟩ := Option.isSome_iff_exists.mp place
  exact ⟨tree, findings, t, c, _, parsed, analyzed, visited, hc,
    (rule c hc _).mpr ⟨s, copied, known, start, _, Prod.ext at_ rfl, rfl⟩⟩

def callsOwnLocal : Chunk → Bool
  | [.function _ _ _ _ _ (.localAssign _ [id] _ :: .expr (.call (.name callee) _ _) :: _)] =>
    id.name == callee.name
  | _ => false

/-- Calls of the local call the global function after the fix. -/
theorem ownPairs_redirected : ∃ tree findings fixed, Chunk.parse? ownPairs = some tree ∧ callsOwnLocal tree ∧
    analyzeSource {} ownPairs = .ok findings ∧ fixSource {} ownPairs = .ok fixed ∧ fixed.modified ∧
    fixed.content = ("function f(t)\n  local g_pairs = pairs\n  local pairs = t.each\n  g_pairs(t)\n" ++
      "  g_pairs(t)\n  g_pairs(t)\n  g_pairs(t)\nend\n").toList := by
  have checked : fixPasses {} ownPairs fun tree findings fixed => callsOwnLocal tree && fixed.modified &&
      fixed.content == ("function f(t)\n  local g_pairs = pairs\n  local pairs = t.each\n  g_pairs(t)\n" ++
        "  g_pairs(t)\n  g_pairs(t)\n  g_pairs(t)\nend\n").toList := by
    decide +kernel
  obtain ⟨tree, findings, fixed, parsed, analyzed, made, passed⟩ := of_fixPasses checked
  simp only [Bool.and_eq_true, beq_iff_eq] at passed
  exact ⟨tree, findings, fixed, parsed, passed.1.1, analyzed, made, passed.1.2, passed.2⟩

end LuaTune.Fix
