import LuaTune.Finding.Analyze
import LuaTune.Proofs.Analysis.Records
import LuaTune.Proofs.Lua.Origins
import LuaTune.Proofs.Tables

/-!
# Which rule a finding comes from

What each rule says is said here once: the pattern and the severity of its findings, the line that
they show, and what they keep of the records that they are made of.
-/

namespace LuaTune

open Lua Analysis Rules List

/-! ## Rules that advise -/

structure Finding.Notes (lines : List Chars) (p : String) (f : Finding) : Prop where
  pattern : f.pattern = p
  line : f.sourceLine = shownLine lines f.line.toNat

section

variable {lines : List Chars}

theorem globalWriteFinding?_notes (write : String × Nat) :
    Gives (globalWriteFinding? lines write) (Finding.Notes lines "global_write") := by
  unfold globalWriteFinding?
  dsimp only
  split
  · exact .none
  · exact .some ⟨rfl, rfl⟩

theorem unusedVariableFindings_notes (c : Chunk) :
    ∀ f ∈ unusedVariableFindings lines c, f.Notes lines "unused_local_variable" := by
  refine Gives.filterMap fun d _ => ?_
  dsimp only
  split
  · exact .some ⟨rfl, rfl⟩
  · exact .none

theorem unusedFunctionFindings_notes (c : Chunk) :
    ∀ f ∈ unusedFunctionFindings lines c, f.Notes lines "unused_local_function" := by
  refine Gives.filterMap fun d _ => ?_
  dsimp only
  split
  · exact .none
  · exact .some ⟨rfl, rfl⟩

theorem distanceFinding?_notes (c : Call) :
    Gives (distanceFinding? lines c) (Finding.Notes lines "distance_native") := by
  unfold distanceFinding?
  split
  · exact .some ⟨rfl, rfl⟩
  · exact .none

theorem propertyFindings_notes (calls : List Call) :
    ∀ f ∈ propertyFindings lines calls, f.Notes lines "oxlib_cache_suggestion" := by
  refine Gives.filterMap fun g _ f found => ?_
  obtain ⟨⟨call, p, note⟩, -, rfl⟩ := Option.map_eq_some_iff.mp found
  exact ⟨rfl, rfl⟩

theorem repeatedLengthFindings_notes (uses : List LengthUse) : ∀ f ∈ repeatedLengthFindings lines uses,
    f.Notes lines "repeated_length_in_loop" ∧ f.details.calls? "calls" = none := by
  refine Gives.filterMap fun g _ => ?_
  dsimp only
  split
  · exact .some ⟨⟨rfl, rfl⟩, by simp [Details.calls?, Details.get?]⟩
  · exact .none

theorem unusedKeyFinding?_notes (l : IteratorLoop) :
    Gives (unusedKeyFinding? lines l) (Finding.Notes lines "pairs_with_unused_key") := by
  unfold unusedKeyFinding?
  split
  · split
    · exact .some ⟨rfl, rfl⟩
    · exact .none
  · exact .none

end

def advisoryPatterns : List String :=
  ["global_write", "unused_local_variable", "unused_local_function", "distance_native",
   "oxlib_cache_suggestion", "function_in_loop", "pairs_with_unused_key"]

/-- A finding that no fix is made for. One about repeated lengths looks like one about repeated
calls, but names none. -/
def Finding.IsAdvice (f : Finding) : Prop := f.pattern ∈ advisoryPatterns ∨
    f.pattern = "repeated_length_in_loop" ∧ f.details.calls? "calls" = none

/-! ## Rules about the form of a call -/

structure Finding.IsAbout (lines : List Chars) (p : String) (c : Call) (f : Finding) : Prop
    extends f.Notes lines p where
  severity : f.severity = .green
  node : f.details.node? "node" = some (.expr c.node)

def formPatterns : List String := ["table_insert_append", "table_getn", "string_len", "math_pow_simple"]

section

variable {lines : List Chars} {c : Call} {f : Finding}

theorem of_appendFinding? (h : appendFinding? lines c = some f) :
    f.IsAbout lines "table_insert_append" c ∧ c.fullName = "table.insert" ∧
      ∃ table value, c.args = [table, value] ∧ f.details.text? "table" = some table.text := by
  unfold appendFinding? at h
  split at h
  · next table value name args =>
    cases h
    exact ⟨⟨⟨rfl, rfl⟩, rfl, rfl⟩, name, table, value, args, rfl⟩
  · cases h

theorem of_lengthFinding? (h : lengthFinding? lines c = some f) : ∃ arg, c.args = [arg] ∧
      ((f.IsAbout lines "table_getn" c ∧ c.fullName = "table.getn" ∧
          f.details.text? "table" = some arg.text) ∨
        (f.IsAbout lines "string_len" c ∧ c.fullName = "string.len" ∧
          f.details.text? "string" = some arg.text)) := by
  unfold lengthFinding? at h
  dsimp only at h
  split at h
  · next arg name args =>
    cases h
    exact ⟨arg, args, .inl ⟨⟨⟨rfl, rfl⟩, rfl, rfl⟩, name, rfl⟩⟩
  · next arg name args =>
    cases h
    exact ⟨arg, args, .inr ⟨⟨⟨rfl, rfl⟩, rfl, rfl⟩, name, rfl⟩⟩
  · cases h

theorem of_powerFinding? (h : powerFinding? lines c = some f) :
    f.IsAbout lines "math_pow_simple" c ∧ c.fullName = "math.pow" ∧
      ∃ base exponent token, c.args = [base, .number exponent token] ∧
        f.details.text? "base" = some base.text ∧
        ((exponent.isQuotient 1 2 ∧ f.details.text? "type" = some "sqrt") ∨
          exponent.isQuotient 1 2 = false ∧ ∃ k, smallPower? exponent = some k ∧ base.isSimple ∧
            f.details.text? "type" = some "power" ∧ f.details.get? "exponent" = some (.int k)) := by
  unfold powerFinding? at h
  dsimp only at h
  split at h
  · next base exponent token name args =>
    split at h
    · next half =>
      cases h
      exact ⟨⟨⟨rfl, rfl⟩, rfl, rfl⟩, name, base, exponent, token, args, rfl, .inl ⟨half, rfl⟩⟩
    · next other =>
      split at h
      · next k power =>
        split at h
        · next simple =>
          cases h
          exact ⟨⟨⟨rfl, rfl⟩, rfl, rfl⟩, name, base, exponent, token, args, rfl,
            .inr ⟨Bool.eq_false_iff.mpr other, k, power, simple, rfl, rfl⟩⟩
        · cases h
      · cases h
  · cases h

def IsFormOf (lines : List Chars) (c : Call) (f : Finding) : Prop :=
  appendFinding? lines c = some f ∨ lengthFinding? lines c = some f ∨ powerFinding? lines c = some f

theorem IsFormOf.exists_isAbout (h : IsFormOf lines c f) : ∃ p ∈ formPatterns, f.IsAbout lines p c := by
  rcases h with append | length | power
  · exact ⟨_, by decide, (of_appendFinding? append).1⟩
  · obtain ⟨arg, -, ⟨about, -⟩ | ⟨about, -⟩⟩ := of_lengthFinding? length
    · exact ⟨_, by decide, about⟩
    · exact ⟨_, by decide, about⟩
  · exact ⟨_, by decide, (of_powerFinding? power).1⟩

theorem of_debugFinding? (h : debugFinding? lines c = some f) :
    f.Notes lines "debug_statement" ∧ Vocabulary.debugFunctions.contains c.func ∧
      f.details.node? "node" = some (.expr c.node) := by
  unfold debugFinding? at h
  split at h
  · next named =>
    cases h
    exact ⟨⟨rfl, rfl⟩, (Bool.and_eq_true_iff.mp named).2, rfl⟩
  · cases h

end

variable {settings : Settings} {f : Finding} {source : Chars} {fs : List Finding} {a : Analyzed}

/-! ## Rules about functions -/

structure Finding.IsSummary (s : Scope) (groups : List (String × List Call)) (f : Finding) : Prop where
  pattern : f.pattern = "uncached_globals_summary"
  severity : f.severity = .green
  scope : f.details.scope? "scope" = some s
  calls : f.details.get? "globals_info" = some (.callsByName groups)
  inside : s.kind ≠ .global

theorem of_uncachedFinding? {id : ScopeId} {s : Scope} {groups : List (String × List Call)} (h : uncachedFinding? settings id s groups = some f) :
    f.IsSummary s (uncachedGlobals settings s groups) := by
  unfold uncachedFinding? at h
  dsimp only at h
  split at h
  · cases h
  · next some_ =>
    cases h
    simp only [Bool.or_eq_true, List.isEmpty_iff, beq_iff_eq, not_or] at some_
    exact ⟨rfl, rfl, rfl, rfl, some_.2⟩

theorem of_mem_uncachedFindings {scopes : List Scope} {calls : List Call}
    (h : f ∈ uncachedFindings settings scopes calls) :
    ∃ g ∈ callsByFunction scopes calls, ∃ s, scopes[g.1]? = some s ∧
      f.IsSummary s (uncachedGlobals settings s g.2) := by
  obtain ⟨g, hg, found⟩ := mem_filterMap.mp h
  obtain ⟨s, around, made⟩ := Option.bind_eq_some_iff.mp found
  exact ⟨g, hg, s, around, of_uncachedFinding? made⟩

def callsIn (t : Tracker) (id : ScopeId) (name : String) : List Call :=
  t.calls.filter fun c => c.fullName == name && functionScope t.scopes c.scope == id

theorem mem_repeatedFindings {t : Tracker} (h : f ∈ repeatedFindings settings t.scopes t.calls) :
    ∃ name id scope, name ∈ Vocabulary.expensiveCalls ∧ t.scopes[id]? = some scope ∧
      f.pattern = repeatedPattern name ∧ f.details.text? "original_call" = some name ∧
      f.details.calls? "calls" = some (callsIn t id name) ∧ f.details.scope? "scope" = some scope ∧
      (f.severity = .yellow ∨ f.severity = .green) := by
  obtain ⟨g, hg, found⟩ := mem_flatMap.mp h
  split at found
  · next scope at_ =>
    obtain ⟨n, hn, made⟩ := mem_filterMap.mp found
    obtain ⟨g', hg', rfl⟩ := mem_map.mp hg
    unfold repeatedFinding? at made
    split at made
    · cases made
      have inFunction := (areGroups_groupOn _).groups g' hg'
      have named := (areGroups_groupOn _).groups n hn
      have listed : n.1 ∈ Vocabulary.expensiveCalls := by
        obtain ⟨c, hc, name⟩ := (mem_groupOn hn).1
        have expensive := (mem_groupOn hg').2 c hc
        exact name ▸ contains_iff_mem.mp (mem_filter.mp expensive).2
      have calls : n.2 = callsIn t g'.1 n.1 := by
        rw [named, inFunction, filter_filter, filter_filter]
        refine filter_congr fun c _ => ?_
        by_cases same : c.fullName = n.1
        · simp [same, listed]
        · simp [same]
      exact ⟨n.1, g'.1, scope, listed, at_, rfl, rfl, congrArg some calls, rfl, ite_eq_or_eq _ _ _⟩
    · cases made
  · cases found

theorem concatFindings_notes (t : Tracker) : ∀ f ∈ concatFindings t,
    f.Notes t.lines "string_concat_in_loop" ∧ f.severity = .yellow := by
  intro f hf
  obtain ⟨g, -, found⟩ := mem_filterMap.mp hf
  obtain ⟨first, -, rfl⟩ := Option.map_eq_some_iff.mp found
  exact ⟨⟨rfl, rfl⟩, rfl⟩

/-! ## All rules -/

inductive RuleKind where
  | form
  | globals
  | repeated
  | concat
  | debug
  | nilAccess
  | dead
  | advice
deriving DecidableEq

def ruleKind (p : String) : RuleKind :=
  if Text.startsWith p.toList "repeated_".toList then .repeated
  else if Text.startsWith p.toList "dead_code_".toList then .dead
  else if formPatterns.contains p then .form
  else
    match p with
    | "uncached_globals_summary" => .globals
    | "string_concat_in_loop" => .concat
    | "debug_statement" => .debug
    | "potential_nil_access" => .nilAccess
    | _ => .advice

inductive Finding.MadeOf (a : Analyzed) (settings : Settings) (f : Finding) : RuleKind → Prop where
  | form (c : Call) (hc : c ∈ a.tracker.calls) (h : IsFormOf a.tracker.lines c f) : MadeOf a settings f .form
  | globals (h : f ∈ uncachedFindings settings a.tracker.scopes a.tracker.calls) : MadeOf a settings f .globals
  | repeated (h : f ∈ repeatedFindings settings a.tracker.scopes a.tracker.calls) : MadeOf a settings f .repeated
  | lengths (h : f.Notes a.tracker.lines "repeated_length_in_loop") (none : f.details.calls? "calls" = none) :
    MadeOf a settings f .repeated
  | concat (h : f ∈ concatFindings a.tracker) : MadeOf a settings f .concat
  | debug (c : Call) (hc : c ∈ a.tracker.calls) (h : debugFinding? a.tracker.lines c = some f) :
    MadeOf a settings f .debug
  | nilAccess (u : NilAccess) (hu : u ∈ a.tracker.nilAccesses) (h : f = nilAccessFinding a.tracker.lines u) :
    MadeOf a settings f .nilAccess
  | dead (d : DeadCode) (hd : d ∈ deadCode a.chunk) (h : f = d.finding a.tracker.lines) : MadeOf a settings f .dead
  | advice (p : String) (hp : p ∈ advisoryPatterns) (h : f.Notes a.tracker.lines p) : MadeOf a settings f .advice

theorem startsWith_repeatedPattern (name : String) :
    Text.startsWith (repeatedPattern name).toList "repeated_".toList := by
  rw [repeatedPattern, String.toList_append, Text.startsWith_iff]
  exact prefix_append _ _

theorem startsWith_deadCode (k : DeadKind) : Text.startsWith ("dead_code_" ++ k.name).toList "dead_code_".toList := by
  rw [String.toList_append, Text.startsWith_iff]
  exact prefix_append _ _

theorem not_repeated_of_dead {cs : Chars} (h : Text.startsWith cs "dead_code_".toList) :
    ¬Text.startsWith cs "repeated_".toList := by
  intro repeated
  obtain ⟨_, first⟩ := Text.startsWith_iff.mp h
  obtain ⟨_, second⟩ := Text.startsWith_iff.mp repeated
  have heads : some 'd' = some 'r' := congrArg List.head? (first.trans second.symm)
  cases heads

theorem ruleKind_of_repeated {p : String} (h : Text.startsWith p.toList "repeated_".toList) :
    ruleKind p = .repeated :=
  if_pos h

theorem ruleKind_of_dead {p : String} (h : Text.startsWith p.toList "dead_code_".toList) : ruleKind p = .dead := by
  unfold ruleKind
  rw [if_neg (not_repeated_of_dead h), if_pos h]

theorem Finding.madeOf :
    ∀ f ∈ a.findings settings, f.MadeOf a settings (ruleKind f.pattern) := by
  have told {f : Finding} {p : String} {k : RuleKind} (pattern : f.pattern = p) (made : f.MadeOf a settings k)
      (kind : ruleKind p = k) : f.MadeOf a settings (ruleKind f.pattern) := by
    rw [pattern, kind]
    exact made
  have form {f : Finding} {c : Call} (hc : c ∈ a.tracker.calls) (h : IsFormOf a.tracker.lines c f) :
      f.MadeOf a settings (ruleKind f.pattern) := by
    obtain ⟨p, hp, about⟩ := h.exists_isAbout
    have kinds : ∀ p ∈ formPatterns, ruleKind p = .form := by decide
    exact told about.pattern (.form c hc h) (kinds p hp)
  have advice {p : String} (hp : p ∈ advisoryPatterns) {f : Finding} (h : f.Notes a.tracker.lines p) :
      f.MadeOf a settings (ruleKind f.pattern) := by
    have kinds : ∀ p ∈ advisoryPatterns, ruleKind p = .advice := by decide
    exact told h.pattern (.advice p hp h) (kinds p hp)
  unfold Analyzed.findings
  simp only [forall_mem_append, and_assoc]
  refine ⟨?_, ?_, ?_, ?_, ?_, ?_, ?_, ?_, ?_, ?_, ?_, ?_, ?_, ?_, ?_, ?_, ?_⟩
  · exact Gives.filterMap fun c hc f found => form hc (.inl found)
  · exact Gives.filterMap fun c hc f found => form hc (.inr (.inl found))
  · exact Gives.filterMap fun c hc f found => form hc (.inr (.inr found))
  · intro f hf
    obtain ⟨_, _, _, _, summary⟩ := of_mem_uncachedFindings hf
    exact told summary.pattern (.globals hf) (by decide)
  · intro f hf
    obtain ⟨name, -, -, -, -, pattern, -⟩ := mem_repeatedFindings hf
    exact told pattern (.repeated hf) (ruleKind_of_repeated (startsWith_repeatedPattern name))
  · exact fun f hf => told (concatFindings_notes _ f hf).1.pattern (.concat hf) (by decide)
  · exact Gives.filterMap fun c hc f found =>
      told (of_debugFinding? found).1.pattern (.debug c hc found) (by decide)
  · exact Gives.filterMap fun w _ f found => advice (by decide) (globalWriteFinding?_notes w f found)
  · exact forall_mem_map.mpr fun u hu => told (p := "potential_nil_access") rfl (.nilAccess u hu rfl) (by decide)
  · exact forall_mem_map.mpr fun d hd => told rfl (.dead d hd rfl) (ruleKind_of_dead (startsWith_deadCode d.kind))
  · exact fun f hf => advice (by decide) (unusedVariableFindings_notes _ f hf)
  · exact fun f hf => advice (by decide) (unusedFunctionFindings_notes _ f hf)
  · exact Gives.filterMap fun c _ f found => advice (by decide) (distanceFinding?_notes c f found)
  · exact fun f hf => advice (by decide) (propertyFindings_notes _ f hf)
  · exact forall_mem_map.mpr fun l _ => advice (p := "function_in_loop") (by decide) ⟨rfl, rfl⟩
  · intro f hf
    obtain ⟨notes, none⟩ := repeatedLengthFindings_notes _ f hf
    exact told notes.pattern (.lengths notes none) (by decide)
  · exact Gives.filterMap fun l _ f found => advice (by decide) (unusedKeyFinding?_notes l f found)

theorem Finding.exists_form (hf : f ∈ a.findings settings)
    (listed : f.pattern ∈ formPatterns) : ∃ c ∈ a.tracker.calls, IsFormOf a.tracker.lines c f := by
  have kinds : ∀ p ∈ formPatterns, ruleKind p = .form := by decide
  have made := Finding.madeOf f hf
  rw [kinds _ listed] at made
  cases made with
  | form c hc h => exact ⟨c, hc, h⟩

theorem Finding.exists_dead (hf : f ∈ a.findings settings)
    (dead : Text.startsWith f.pattern.toList "dead_code_".toList) :
    ∃ d ∈ deadCode a.chunk, f = d.finding a.tracker.lines := by
  have made := Finding.madeOf f hf
  rw [ruleKind_of_dead dead] at made
  cases made with
  | dead d hd found => exact ⟨d, hd, found⟩

/-! ## Findings of one pattern -/

section

variable {p q : String} {lines : List Chars}

theorem filter_of_patterns (h : ∀ f ∈ fs, f.pattern ≠ p) : fs.filter (·.pattern == p) = [] :=
  filter_eq_nil_iff.mpr fun f hf => by simpa using h f hf

theorem filter_of_notes (h : ∀ f ∈ fs, f.Notes lines q) :
    fs.filter (·.pattern == p) = if q = p then fs else [] := by
  split
  · next same => exact filter_eq_self.mpr fun f hf => by simpa [same] using (h f hf).pattern
  · next other => exact filter_of_patterns fun f hf => (h f hf).pattern.trans_ne other

theorem filter_of_forms {calls : List Call} {rule : Call → Option Finding} (hp : p ∈ advisoryPatterns)
    (h : ∀ c f, rule c = some f → IsFormOf lines c f) :
    (calls.filterMap rule).filter (·.pattern == p) = [] := by
  refine filter_of_patterns (Gives.filterMap fun c _ f found => ?_)
  obtain ⟨q, hq, about⟩ := (h c f found).exists_isAbout
  have others : ∀ q ∈ formPatterns, q ∉ advisoryPatterns := by decide
  exact about.pattern.trans_ne fun same => others q hq (same ▸ hp)

/-- Advice of one pattern comes from one rule. -/
theorem filter_findings (hp : p ∈ advisoryPatterns) :
    (a.findings settings).filter (·.pattern == p) =
      (if "global_write" = p then
        a.tracker.globalWrites.filterMap (globalWriteFinding? a.tracker.lines) else []) ++
      (if "unused_local_variable" = p then unusedVariableFindings a.tracker.lines a.chunk else []) ++
      (if "unused_local_function" = p then unusedFunctionFindings a.tracker.lines a.chunk else []) ++
      (if "distance_native" = p then
        a.tracker.calls.filterMap (distanceFinding? a.tracker.lines) else []) ++
      (if "oxlib_cache_suggestion" = p then
        propertyFindings a.tracker.lines a.tracker.calls else []) ++
      (if "function_in_loop" = p then
        a.tracker.loopFunctions.map (loopFunctionFinding a.tracker.lines) else []) ++
      (if "pairs_with_unused_key" = p then
        a.tracker.iteratorLoops.filterMap (unusedKeyFinding? a.tracker.lines) else []) := by
  have other {q : String} (hq : q ∉ advisoryPatterns) : q ≠ p := fun same => hq (same ▸ hp)
  have globals : (uncachedFindings settings a.tracker.scopes a.tracker.calls).filter
      (·.pattern == p) = [] := by
    refine filter_of_patterns fun f hf => ?_
    obtain ⟨_, _, _, _, summary⟩ := of_mem_uncachedFindings hf
    exact summary.pattern.trans_ne (other (by decide))
  have repeats : (repeatedFindings settings a.tracker.scopes a.tracker.calls).filter
      (·.pattern == p) = [] := by
    refine filter_of_patterns fun f hf same => ?_
    obtain ⟨name, -, -, -, -, pattern, -⟩ := mem_repeatedFindings hf
    have plain : ∀ p ∈ advisoryPatterns, ¬Text.startsWith p.toList "repeated_".toList := by decide
    exact plain p hp (same ▸ pattern ▸ startsWith_repeatedPattern name)
  have dead : ((deadCode a.chunk).map (DeadCode.finding a.tracker.lines)).filter
      (·.pattern == p) = [] := by
    refine filter_of_patterns (forall_mem_map.mpr fun d _ same => ?_)
    have plain : ∀ p ∈ advisoryPatterns, ¬Text.startsWith p.toList "dead_code_".toList := by decide
    exact plain p hp (same ▸ startsWith_deadCode d.kind)
  unfold Analyzed.findings
  simp only [filter_append]
  rw [filter_of_forms hp fun c f => Or.inl, filter_of_forms hp fun c f h => .inr (.inl h),
    filter_of_forms hp fun c f h => .inr (.inr h), globals, repeats, dead,
    filter_of_patterns fun f hf => (concatFindings_notes _ f hf).1.pattern.trans_ne (other (by decide)),
    filter_of_patterns (Gives.filterMap fun c _ f hf =>
      (of_debugFinding? hf).1.pattern.trans_ne (other (by decide))),
    filter_of_patterns (forall_mem_map.mpr fun u _ =>
      (rfl : _ = "potential_nil_access").trans_ne (other (by decide))),
    filter_of_patterns fun f hf =>
      (repeatedLengthFindings_notes _ f hf).1.pattern.trans_ne (other (by decide)),
    filter_of_notes (Gives.filterMap fun w _ => globalWriteFinding?_notes w),
    filter_of_notes (unusedVariableFindings_notes a.chunk),
    filter_of_notes (unusedFunctionFindings_notes a.chunk),
    filter_of_notes (Gives.filterMap fun c _ => distanceFinding?_notes c),
    filter_of_notes (propertyFindings_notes a.tracker.calls),
    filter_of_notes (q := "function_in_loop") (forall_mem_map.mpr fun l _ => ⟨rfl, rfl⟩),
    filter_of_notes (Gives.filterMap fun l _ => unusedKeyFinding?_notes l)]
  simp

end

theorem node_of_plainName {c : Call} (h : c.IsTrue) (dot : '.' ∉ c.fullName.toList)
    (colon : ':' ∉ c.fullName.toList) :
    ∃ fn last, c.node = .call (.name fn) c.args last ∧ fn.name = c.fullName := by
  have names := h.names
  cases node : c.node with
  | call callee args last =>
    rw [node] at names
    obtain ⟨callee_name, args_eq⟩ := names
    unfold Tracker.calleeName? at callee_name
    split at callee_name
    · next fn => exact ⟨fn, last, by rw [args_eq], (congrArg (·.2.2) (Option.some.inj callee_name))⟩
    · next module func =>
      have full : c.fullName = module.name ++ "." ++ func.name :=
        (congrArg (·.2.2) (Option.some.inj callee_name)).symm
      refine absurd ?_ dot
      rw [full]
      simp
    · cases callee_name
  | invoke source method args =>
    rw [node] at names
    refine absurd ?_ colon
    rw [names.1]
    simp
  | _ =>
    rw [node] at names
    exact names.elim

/-! ## Findings about a script -/

theorem exists_visit {c : Chunk}
    (parsed : Chunk.parse? source = some c) (found : analyzeSource settings source = .ok fs) :
    ∃ t, visitChunk c (Text.lines source) = .ok t ∧ Analyzed.findings ⟨source, c, t⟩ settings = fs := by
  unfold analyzeSource visitSource at found
  simp only [parsed] at found
  cases visited : visitChunk c (Text.lines source) with
  | error e => simp [visited, bind, Except.bind, Except.map] at found
  | ok t =>
    simp only [visited, bind, Except.bind] at found
    split at found
    · exact ⟨t, rfl, Except.ok.inj found⟩
    · cases found

theorem analyzeSource_cases (h : analyzeSource settings source = .ok fs) :
    fs = [] ∨ ∃ c t, Chunk.parse? source = some c ∧ visitChunk c (Text.lines source) = .ok t ∧
      Analyzed.findings ⟨source, c, t⟩ settings = fs := by
  cases parsed : Chunk.parse? source with
  | none =>
    simp only [analyzeSource, visitSource, parsed] at h
    cases h
    exact .inl rfl
  | some c =>
    obtain ⟨t, visited, found⟩ := exists_visit parsed h
    exact .inr ⟨c, t, rfl, visited, found⟩

def analysisPasses (source : Chars) (test : Chunk → List Finding → Bool) : Bool :=
  match Chunk.parse? source, analyzeSource {} source with
  | some tree, .ok findings => test tree findings
  | _, _ => false

theorem of_analysisPasses {test : Chunk → List Finding → Bool} (h : analysisPasses source test) :
    ∃ tree findings, Chunk.parse? source = some tree ∧ analyzeSource {} source = .ok findings ∧
      test tree findings := by
  unfold analysisPasses at h
  split at h
  · next tree findings parsed found => exact ⟨tree, findings, parsed, found, h⟩
  · cases h

end LuaTune
