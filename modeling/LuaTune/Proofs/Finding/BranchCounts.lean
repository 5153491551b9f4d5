import LuaTune.Proofs.Finding.Kinds
import LuaTune.Proofs.Finding.Thresholds
import Mathlib.Data.List.Perm.Subperm

/-!
# Counts that tell branches apart

To count calls with branches told apart is to choose a branch of every conditional so that as many
calls as possible are left, and to count these.
-/

namespace LuaTune

open List

/-! ## Groups and sums -/

theorem sumOf_le {α : Type} {f g : α → Nat} {xs : List α} (h : ∀ x ∈ xs, f x ≤ g x) :
    sumOf (xs.map f) ≤ sumOf (xs.map g) := by
  induction xs with
  | nil => exact Nat.le_refl _
  | cons x xs ih =>
    obtain ⟨first, rest⟩ := forall_mem_cons.mp h
    simp only [map_cons, sumOf_cons]
    exact Nat.add_le_add first (ih rest)

theorem foldl_max_spec (ns : List Nat) (m : Nat) :
    (∀ n ∈ m :: ns, n ≤ ns.foldl max m) ∧ ns.foldl max m ∈ m :: ns :=
  have greatest : (m :: ns).max? = some (ns.foldl max m) := max?_cons'
  (max?_eq_some_iff.mp greatest).symm

end LuaTune

namespace LuaTune.Rules

open Analysis List

variable {calls calls' : List Call}

/-! ## Choices of branches -/

/-- The call is made if of every conditional the chosen branch is taken. -/
def isMade (choice : Nat → Int) (c : Call) : Bool := c.conditional.all fun d => c.branch == choice d

theorem countP_branch_le (b : Int) (calls : List Call) :
    calls.countP (fun c => c.branch == b) ≤ busiestBranch calls := by
  have groups : AreGroups Call.branch calls (groupOn Call.branch calls) := areGroups_groupOn calls
  by_cases there : ∃ c ∈ calls, c.branch = b
  · obtain ⟨c, hc, rfl⟩ := there
    obtain ⟨g, hg, key⟩ := mem_map.mp (groups.covers c hc)
    have size : g.2.length = calls.countP fun x => x.branch == c.branch := by
      rw [groups.groups g hg, countP_eq_length_filter, key]
    rw [← size]
    exact (foldl_max_spec _ 0).1 _ (mem_cons_of_mem _ (mem_map_of_mem hg))
  · have none : calls.countP (fun c => c.branch == b) = 0 :=
      countP_eq_zero.mpr fun c hc same => there ⟨c, hc, eq_of_beq same⟩
    omega

theorem exists_busiest (calls : List Call) :
    ∃ b, calls.countP (fun c => c.branch == b) = busiestBranch calls := by
  have groups : AreGroups Call.branch calls (groupOn Call.branch calls) := areGroups_groupOn calls
  rcases mem_cons.mp (foldl_max_spec ((groupOn Call.branch calls).map (·.2.length)) 0).2 with zero | mem
  · refine ⟨0, ?_⟩
    have bound := countP_branch_le 0 calls
    have zero : busiestBranch calls = 0 := zero
    omega
  · obtain ⟨g, hg, size⟩ := mem_map.mp mem
    refine ⟨g.1, ?_⟩
    rw [countP_eq_length_filter, ← groups.groups g hg, size]
    rfl

def byConditional (calls : List Call) : List (Option Nat × List Call) :=
  groupOn (·.conditional) (calls.filter (·.conditional.isSome))

theorem countP_isMade (choice : Nat → Int) (calls : List Call) :
    calls.countP (isMade choice) = (calls.filter (·.conditional.isNone)).length +
      sumOf ((byConditional calls).map fun g => g.2.countP (isMade choice)) := by
  have outside : (calls.filter (·.conditional.isNone)).countP (isMade choice) =
      (calls.filter (·.conditional.isNone)).length := by
    refine countP_eq_length.mpr fun c hc => ?_
    rw [isMade, Option.isNone_iff_eq_none.mp (mem_filter.mp hc).2]
    rfl
  rw [byConditional, sumOf_countP_groupOn, ← outside,
    countP_eq_countP_filter_add calls _ (·.conditional.isNone)]
  simp only [Option.not_isNone]

/-- All calls of a group stand in the same conditional, so their branches decide which are made. -/
theorem mem_byConditional {g : Option Nat × List Call} (hg : g ∈ byConditional calls) :
    ∃ d, g.2 = calls.filter (fun c => c.conditional == some d) ∧
      ∀ choice, g.2.countP (isMade choice) = g.2.countP fun c => c.branch == choice d := by
  have groups : AreGroups Call.conditional _ (byConditional calls) := areGroups_groupOn _
  obtain ⟨c, hc, key⟩ := groups.named g hg
  obtain ⟨d, hd⟩ := Option.isSome_iff_exists.mp (mem_filter.mp hc).2
  have same : g.2 = calls.filter fun c => c.conditional == some d := by
    rw [groups.groups g hg, ← key, hd, filter_filter]
    refine filter_congr fun x _ => ?_
    cases x.conditional with
    | none => rfl
    | some e => exact Bool.and_true _
  refine ⟨d, same, fun choice => countP_congr fun x hx => ?_⟩
  rw [same] at hx
  rw [isMade, eq_of_beq (mem_filter.mp hx).2]
  rfl

theorem countP_isMade_le (choice : Nat → Int) (calls : List Call) :
    calls.countP (isMade choice) ≤ branchAwareCount calls := by
  rw [countP_isMade]
  refine Nat.add_le_add_left (sumOf_le fun g hg => ?_) _
  obtain ⟨d, -, made⟩ := mem_byConditional hg
  rw [made]
  exact countP_branch_le _ _

theorem exists_choice (calls : List Call) :
    ∃ choice, calls.countP (isMade choice) = branchAwareCount calls := by
  choose busiest hb using fun d : Nat => exists_busiest (calls.filter fun c => c.conditional == some d)
  refine ⟨busiest, Nat.le_antisymm (countP_isMade_le _ _) ?_⟩
  rw [countP_isMade]
  refine Nat.add_le_add_left (sumOf_le fun g hg => ?_) _
  obtain ⟨d, same, made⟩ := mem_byConditional hg
  rewrite [made, same, hb]
  exact Nat.le_refl _

/-! ## The count -/

theorem branchAwareCount_le_length (calls : List Call) : branchAwareCount calls ≤ calls.length := by
  obtain ⟨choice, best⟩ := exists_choice calls
  rw [← best]
  exact countP_le_length

theorem branchAwareCount_pos (h : calls ≠ []) : 1 ≤ branchAwareCount calls := by
  obtain ⟨c, hc⟩ := exists_mem_of_ne_nil calls h
  refine Nat.le_trans ?_ (countP_isMade_le (fun _ => c.branch) calls)
  refine countP_pos_iff.mpr ⟨c, hc, ?_⟩
  cases made : c.conditional <;> simp [isMade, made]

theorem branchAwareCount_mono (h : calls.Subperm calls') : branchAwareCount calls ≤ branchAwareCount calls' := by
  obtain ⟨choice, best⟩ := exists_choice calls
  rw [← best]
  exact Nat.le_trans (h.countP_le _) (countP_isMade_le choice calls')

theorem branchAwareCount_perm (h : calls.Perm calls') : branchAwareCount calls = branchAwareCount calls' :=
  Nat.le_antisymm (branchAwareCount_mono h.subperm) (branchAwareCount_mono h.symm.subperm)

theorem callCount_le {s s' : Settings} (modes : s.experimental → s'.experimental) (calls : List Call) :
    callCount s' calls ≤ callCount s calls := by
  unfold callCount
  cases mode : s.experimental with
  | true =>
    rewrite [modes mode]
    exact Nat.le_refl _
  | false =>
    split
    · exact branchAwareCount_le_length calls
    · exact Nat.le_refl _

theorem isFrequent_mono {s s' : Settings} (thresholds : s.threshold ≤ s'.threshold)
    (modes : s.experimental → s'.experimental) {scope : Scope} (h : isFrequent s' scope calls) :
    isFrequent s scope calls := by
  have counts := callCount_le modes calls
  unfold isFrequent at *
  have enough : thresholdFor s scope ≤ thresholdFor s' scope := by
    unfold thresholdFor
    split <;> omega
  rw [decide_eq_true_eq] at *
  omega

end LuaTune.Rules

namespace LuaTune

open Lua Analysis Rules List

/-! ## What is asked for -/

/-- The global names that a finding wants to be copied, each with its function. -/
def Finding.copiesAsked (f : Finding) : List (ScopeId × String) :=
  if f.pattern == "uncached_globals_summary" then
    match f.details.get? "scope", f.details.get? "globals_info" with
    | some (.scope id _), some (.callsByName groups) => groups.map fun g => (id, g.1)
    | _, _ => []
  else []

/-- The name whose results a finding wants to be kept, with its function. -/
def Finding.resultsAsked (f : Finding) : List (ScopeId × String) :=
  if Text.startsWith f.pattern.toList "repeated_".toList then
    match f.details.get? "scope", f.details.get? "original_call" with
    | some (.scope id _), some (.text name) => [(id, name)]
    | _, _ => []
  else []

structure AsksNoMore (fs gs : List Finding) : Prop where
  copies : fs.flatMap Finding.copiesAsked ⊆ gs.flatMap Finding.copiesAsked
  results : fs.flatMap Finding.resultsAsked ⊆ gs.flatMap Finding.resultsAsked

namespace AsksNoMore

theorem of_subset {fs gs : List Finding} (h : fs ⊆ gs) : AsksNoMore fs gs := by
  have asked (g : Finding → List (ScopeId × String)) : fs.flatMap g ⊆ gs.flatMap g := by
    intro x hx
    obtain ⟨f, hf, asks⟩ := mem_flatMap.mp hx
    exact mem_flatMap.mpr ⟨f, h hf, asks⟩
  exact ⟨asked _, asked _⟩

theorem refl (fs : List Finding) : AsksNoMore fs fs := of_subset (List.Subset.refl _)

theorem append {fs gs fs' gs' : List Finding} (h : AsksNoMore fs gs) (h' : AsksNoMore fs' gs') :
    AsksNoMore (fs ++ fs') (gs ++ gs') := by
  constructor
  · rw [flatMap_append, flatMap_append]
    exact append_subset.mpr ⟨subset_append_of_subset_left _ h.copies,
      subset_append_of_subset_right _ h'.copies⟩
  · rw [flatMap_append, flatMap_append]
    exact append_subset.mpr ⟨subset_append_of_subset_left _ h.results,
      subset_append_of_subset_right _ h'.results⟩

theorem flatMap {α : Type} {f g : α → List Finding} {xs : List α} (h : ∀ x ∈ xs, AsksNoMore (f x) (g x)) :
    AsksNoMore (xs.flatMap f) (xs.flatMap g) := by
  induction xs with
  | nil => exact refl []
  | cons x xs ih =>
    obtain ⟨first, rest⟩ := forall_mem_cons.mp h
    exact first.append (ih rest)

end AsksNoMore

section

variable {s s' : Settings} (thresholds : s.threshold ≤ s'.threshold)
  (modes : s.experimental → s'.experimental)
include thresholds modes

theorem uncachedFinding?_asksNoMore (id : ScopeId) (scope : Scope) (groups : List (String × List Call)) :
    AsksNoMore (uncachedFinding? s' id scope groups).toList (uncachedFinding? s id scope groups).toList := by
  have asked (s : Settings) : (uncachedFinding? s id scope groups).toList.flatMap Finding.copiesAsked =
        (if scope.kind == .global then [] else uncachedGlobals s scope groups).map fun g => (id, g.1) := by
    unfold uncachedFinding?
    cases scope.kind == .global with
    | true => simp
    | false => cases uncachedGlobals s scope groups <;> simp [Finding.copiesAsked, Details.get?]
  have none (s : Settings) : (uncachedFinding? s id scope groups).toList.flatMap Finding.resultsAsked = [] := by
    have other : Text.startsWith "uncached_globals_summary".toList "repeated_".toList = false := by decide
    unfold uncachedFinding?
    dsimp only
    split
    · rfl
    · simp only [Option.toList_some, flatMap_cons, Finding.resultsAsked, other, flatMap_nil]
      rfl
  constructor
  · rw [asked, asked]
    refine map_subset _ ?_
    split
    · exact List.Subset.refl _
    · rw [uncachedGlobals_eq, uncachedGlobals_eq]
      exact (monotone_filter_right _ fun g => isFrequent_mono thresholds modes).subset
  · rw [none]
    exact nil_subset _

theorem repeatedFinding?_asksNoMore (id : ScopeId) (scope : Scope) (name : String) (calls : List Call) :
    AsksNoMore (repeatedFinding? s' id scope name calls).toList
      (repeatedFinding? s id scope name calls).toList := by
  unfold repeatedFinding?
  by_cases frequent : isFrequent s' scope calls
  · rw [if_pos frequent, if_pos (isFrequent_mono thresholds modes frequent)]
    exact .refl _
  · rw [if_neg frequent]
    exact .of_subset (nil_subset _)

theorem findings_asksNoMore (a : Analyzed) : AsksNoMore (a.findings s') (a.findings s) := by
  obtain ⟨first, last, split⟩ := findings_split a
  rw [split, split]
  refine .append (.refl _) (.append (.append ?_ ?_) (.refl _))
  · unfold uncachedFindings
    rw [filterMap_eq_flatMap_toList, filterMap_eq_flatMap_toList]
    refine .flatMap fun g _ => ?_
    cases a.tracker.scopes[g.1]? with
    | none => exact .refl []
    | some scope => exact uncachedFinding?_asksNoMore thresholds modes g.1 scope g.2
  · unfold repeatedFindings
    refine .flatMap fun g _ => ?_
    cases a.tracker.scopes[g.1]? with
    | none => exact .refl []
    | some scope =>
      simp only [filterMap_eq_flatMap_toList]
      exact .flatMap fun n _ => repeatedFinding?_asksNoMore thresholds modes g.1 scope n.1 n.2

end

/-- With a lower threshold, or if branches are no longer told apart, an analysis asks for no fewer
copies of global names and no fewer results to be kept: each name that it asked for in a function it
asks for again. The count that tells branches apart is at most the number of calls, positive if there
are any, does not fall if a call is added, and does not depend on the order of the calls. -/
theorem caching_monotone :
    (∀ s s' : Settings, s.threshold ≤ s'.threshold → (s.experimental → s'.experimental) →
      (∀ source c t, Chunk.parse? source = some c → visitChunk c (Text.lines source) = .ok t →
        AsksNoMore (Analyzed.findings ⟨source, c, t⟩ s') (Analyzed.findings ⟨source, c, t⟩ s)) ∧
      ∀ source found', analyzeSource s' source = .ok found' →
        ∃ found, analyzeSource s source = .ok found ∧ AsksNoMore found' found) ∧
    ∀ calls : List Call, branchAwareCount calls ≤ calls.length ∧ (calls ≠ [] → 1 ≤ branchAwareCount calls) ∧
      (∀ c before after, calls = before ++ after →
        branchAwareCount calls ≤ branchAwareCount (before ++ c :: after)) ∧
      ∀ calls', calls.Perm calls' → branchAwareCount calls = branchAwareCount calls' := by
  refine ⟨fun s s' thresholds modes => ⟨?_, ?_⟩, fun calls => ⟨branchAwareCount_le_length calls,
    branchAwareCount_pos, ?_, fun calls' => branchAwareCount_perm⟩⟩
  · exact fun source c t _ _ => findings_asksNoMore thresholds modes ⟨source, c, t⟩
  · intro source found' found
    unfold analyzeSource at found ⊢
    cases visited : visitSource source with
    | error fault =>
      rw [visited] at found
      cases found
    | ok outcome =>
      simp only [visited, Except.map, Except.ok.injEq] at found ⊢
      refine ⟨_, rfl, found ▸ ?_⟩
      cases outcome with
      | unparsed => exact .refl []
      | analyzed a => exact findings_asksNoMore thresholds modes a
  · rintro c before after rfl
    exact branchAwareCount_mono (List.Sublist.append_left (sublist_cons_self c after) before).subperm

def branchedCalls : Chars :=
  ("function f(t)\n  if t then\n    PlayerPedId()\n    pairs(t)\n  else\n    PlayerPedId()\n  end\n" ++
    "  PlayerPedId()\n  pairs(t)\nend\n").toList

theorem branchedCalls_monotone : ∃ found found', analyzeSource ⟨2, true⟩ branchedCalls = .ok found' ∧
    analyzeSource ⟨1, false⟩ branchedCalls = .ok found ∧ AsksNoMore found' found ∧
    (1, "pairs") ∈ found'.flatMap Finding.copiesAsked ∧
    (1, "PlayerPedId") ∈ found'.flatMap Finding.resultsAsked := by
  have asks : (analyzeSource ⟨2, true⟩ branchedCalls).toOption.any fun found' =>
      (found'.flatMap Finding.copiesAsked).contains (1, "pairs") &&
        (found'.flatMap Finding.resultsAsked).contains (1, "PlayerPedId") := by decide +kernel
  cases analyzed : analyzeSource ⟨2, true⟩ branchedCalls with
  | error fault =>
    rw [analyzed] at asks
    cases asks
  | ok found' =>
    obtain ⟨found, again, less⟩ :=
      (caching_monotone.1 ⟨1, false⟩ ⟨2, true⟩ (by decide) nofun).2 branchedCalls found' analyzed
    rw [analyzed] at asks
    obtain ⟨copies, results⟩ := Bool.and_eq_true_iff.mp asks
    exact ⟨found, found', rfl, again, less, contains_iff_mem.mp copies, contains_iff_mem.mp results⟩

end LuaTune
