import LuaTune.Command.Analyze
import Mathlib.Data.List.Basic

/-!
# What the settings of an analysis decide

The settings of an analysis decide nothing but which counts of calls are reported. So two analyses
report the same exactly if they find the same counts to be frequent.
-/

namespace LuaTune

open Lua Analysis Rules List

variable {s s' : Settings}

/-- Two ways to choose elements agree if the same is shown of the chosen ones, and if what is shown
of an element decides whether the second way chooses it. -/
theorem agree_of_map_filter {α β : Type} {p q : α → Bool} (shown : α → β) {l : List α}
    (same : (l.filter p).map shown = (l.filter q).map shown)
    (decides : ∀ x y, shown x = shown y → q x = q y) : ∀ x ∈ l, p x = q x := by
  have weaker : ∀ x ∈ l, p x = true → q x = true := by
    intro x hx chosen
    have there : shown x ∈ (l.filter q).map shown := by
      rw [← same]
      exact mem_map_of_mem (mem_filter.mpr ⟨hx, chosen⟩)
    obtain ⟨y, hy, alike⟩ := mem_map.mp there
    rw [← decides y x alike]
    exact (mem_filter.mp hy).2
  -- the first way chooses nothing that the second does not, and it chooses as many
  have twice : l.filter p = (l.filter q).filter p := by
    rw [filter_filter]
    refine filter_congr fun x hx => ?_
    cases chosen : p x with
    | false => rfl
    | true => rw [weaker x hx chosen, Bool.and_self]
  have all : (l.filter q).filter p = l.filter q := by
    refine filter_sublist.eq_of_length ?_
    rw [← twice, ← length_map shown, same, length_map]
  intro x hx
  cases chosen : q x with
  | true => exact filter_eq_self.mp all x (mem_filter.mpr ⟨hx, chosen⟩)
  | false => exact Bool.eq_false_iff.mpr fun other => absurd (weaker x hx other) (by simp [chosen])

/-! ## What is counted -/

def isCopied (scope : Scope) (name : String) : Bool :=
  !Vocabulary.replacedFunctions.contains name && !scope.cached.contains name && isCacheable name

def copied (scopes : List Scope) (calls : List Call) : List (Scope × List Call) :=
  (callsByFunction scopes calls).flatMap fun g =>
    match scopes[g.1]? with
    | some s =>
      if s.kind == .global then [] else (g.2.filter fun n => isCopied s n.1).map fun n => (s, n.2)
    | none => []

def repeated (scopes : List Scope) (calls : List Call) : List (Scope × List Call) :=
  (callsByFunction scopes (calls.filter fun c => Vocabulary.expensiveCalls.contains c.fullName)).flatMap
    fun g =>
      match scopes[g.1]? with
      | some s => g.2.map fun n => (s, n.2)
      | none => []

def Analysis.Tracker.counted (t : Tracker) : List (Scope × List Call) :=
  copied t.scopes t.calls ++ repeated t.scopes t.calls

/-- What a report shows of a count: the number, and whether it is one of what runs on every tick. -/
def shownCount (c : Scope × List Call) : Detail × Option Detail :=
  (.int c.2.length, some (.bool c.1.isHot))

def Details.counts (ds : Details) : List (Detail × Option Detail) :=
  match ds.get? "globals", ds.get? "count" with
  | some (.record es), _ => es.map fun e => (e.2, ds.get? "is_hot")
  | _, some n => [(n, ds.get? "is_hot")]
  | _, _ => []

def Finding.counts (f : Finding) : List (Detail × Option Detail) := (Command.reported f).details.counts

def frequentCounts (settings : Settings) (cs : List (Scope × List Call)) :
    List (Detail × Option Detail) :=
  (cs.filter fun c => isFrequent settings c.1 c.2).map shownCount

theorem frequentCounts_flatMap {α : Type} (settings : Settings) (xs : List α)
    (f : α → List (Scope × List Call)) :
    frequentCounts settings (xs.flatMap f) = xs.flatMap fun x => frequentCounts settings (f x) := by
  unfold frequentCounts
  rw [filter_flatMap, map_flatMap]

theorem counts_uncachedFinding? (settings : Settings) (id : ScopeId) (scope : Scope)
    (groups : List (String × List Call)) :
    (uncachedFinding? settings id scope groups).toList.flatMap Finding.counts =
      if scope.kind == .global then []
      else (uncachedGlobals settings scope groups).map fun n => shownCount (scope, n.2) := by
  unfold uncachedFinding?
  cases scope.kind == .global with
  | true => simp
  | false =>
    cases uncachedGlobals settings scope groups with
    | nil => rfl
    | cons n ns =>
      simp [Finding.counts, Details.counts, Command.reported, Details.unreferenced, Details.get?, Detail.isReference,
        shownCount]

theorem uncachedGlobals_eq (settings : Settings) (scope : Scope) (groups : List (String × List Call)) :
    uncachedGlobals settings scope groups =
      (groups.filter fun n => isCopied scope n.1).filter fun n => isFrequent settings scope n.2 := by
  rw [filter_filter]
  exact filter_congr fun n _ => Bool.and_comm _ _

theorem counts_uncachedFindings (settings : Settings) (scopes : List Scope) (calls : List Call) :
    (uncachedFindings settings scopes calls).flatMap Finding.counts =
      frequentCounts settings (copied scopes calls) := by
  unfold uncachedFindings copied
  rw [filterMap_eq_flatMap_toList, flatMap_assoc, frequentCounts_flatMap]
  congr 1
  funext g
  cases scopes[g.1]? with
  | none => rfl
  | some s =>
    rw [Option.bind_some, counts_uncachedFinding?, uncachedGlobals_eq]
    simp only
    split
    · rfl
    · simp only [frequentCounts, filter_map, map_map, Function.comp_def]

theorem counts_repeatedFinding? (settings : Settings) (id : ScopeId) (scope : Scope) (name : String)
    (calls : List Call) :
    (repeatedFinding? settings id scope name calls).toList.flatMap Finding.counts =
      frequentCounts settings [(scope, calls)] := by
  unfold repeatedFinding? frequentCounts
  cases frequent : isFrequent settings scope calls with
  | true =>
    simp [Finding.counts, Details.counts, Command.reported, Details.unreferenced, Details.get?, Detail.isReference,
      shownCount, frequent]
  | false => simp [frequent]

theorem counts_repeatedFindings (settings : Settings) (scopes : List Scope) (calls : List Call) :
    (repeatedFindings settings scopes calls).flatMap Finding.counts =
      frequentCounts settings (repeated scopes calls) := by
  unfold repeatedFindings repeated
  rw [flatMap_assoc, frequentCounts_flatMap]
  congr 1
  funext g
  cases scopes[g.1]? with
  | none => rfl
  | some s =>
    simp only
    rw [filterMap_eq_flatMap_toList, flatMap_assoc, map_eq_flatMap, frequentCounts_flatMap]
    congr 1
    funext n
    exact counts_repeatedFinding? settings g.1 s n.1 n.2

/-! ## Two analyses -/

def Analyzed.frequent (a : Analyzed) (settings : Settings) : List Finding :=
  uncachedFindings settings a.tracker.scopes a.tracker.calls
    ++ repeatedFindings settings a.tracker.scopes a.tracker.calls

theorem findings_split (a : Analyzed) :
    ∃ first last, ∀ settings, a.findings settings = first ++ (a.frequent settings ++ last) := by
  let t := a.tracker
  refine ⟨t.calls.filterMap (appendFinding? t.lines) ++ t.calls.filterMap (lengthFinding? t.lines)
    ++ t.calls.filterMap (powerFinding? t.lines), ?_, fun settings => ?_⟩
  rotate_left
  · unfold Analyzed.findings Analyzed.frequent
    simp only [append_assoc]
    rfl

theorem counts_frequent (a : Analyzed) (settings : Settings) :
    (a.frequent settings).flatMap Finding.counts = frequentCounts settings a.tracker.counted := by
  unfold Analyzed.frequent frequentCounts Tracker.counted
  rw [flatMap_append, counts_uncachedFindings, counts_repeatedFindings, filter_append,
    map_append, frequentCounts, frequentCounts]

def SameFrequent (cs : List (Scope × List Call)) (s s' : Settings) : Prop :=
  ∀ c ∈ cs, isFrequent s c.1 c.2 = isFrequent s' c.1 c.2

instance (cs : List (Scope × List Call)) (s s' : Settings) : Decidable (SameFrequent cs s s') :=
  inferInstanceAs (Decidable (∀ c ∈ cs, _))

theorem uncachedFindings_congr {scopes : List Scope} {calls : List Call}
    (same : SameFrequent (copied scopes calls) s s') :
    uncachedFindings s scopes calls = uncachedFindings s' scopes calls := by
  refine filterMap_congr fun g hg => ?_
  cases found : scopes[g.1]? with
  | none => rfl
  | some scope =>
    rw [Option.bind_some, Option.bind_some]
    unfold uncachedFinding?
    cases global : scope.kind == .global with
    | true => simp
    | false =>
      have globals : uncachedGlobals s scope g.2 = uncachedGlobals s' scope g.2 := by
        rw [uncachedGlobals_eq, uncachedGlobals_eq]
        refine filter_congr fun n hn => same (scope, n.2) (mem_flatMap.mpr ⟨g, hg, ?_⟩)
        simp only [found, global]
        exact mem_map_of_mem hn
      rw [globals]

theorem repeatedFindings_congr {scopes : List Scope} {calls : List Call}
    (same : SameFrequent (repeated scopes calls) s s') :
    repeatedFindings s scopes calls = repeatedFindings s' scopes calls := by
  unfold repeatedFindings
  refine flatMap_congr fun g hg => ?_
  cases found : scopes[g.1]? with
  | none => rfl
  | some scope =>
    refine filterMap_congr fun n hn => ?_
    have frequent := same (scope, n.2) (mem_flatMap.mpr ⟨g, hg, by
      simp only [found]
      exact mem_map_of_mem hn⟩)
    unfold repeatedFinding?
    rw [frequent]

theorem findings_congr (a : Analyzed) (same : SameFrequent a.tracker.counted s s') :
    a.findings s = a.findings s' := by
  obtain ⟨first, last, split⟩ := findings_split a
  have copies := uncachedFindings_congr fun c hc => same c (mem_append_left _ hc)
  have repeats := repeatedFindings_congr fun c hc => same c (mem_append_right _ hc)
  rw [split, split, Analyzed.frequent, Analyzed.frequent, copies, repeats]

theorem isFrequent_of_shownCount (plain : s.experimental = false) {c c' : Scope × List Call}
    (same : shownCount c = shownCount c') : isFrequent s c.1 c.2 = isFrequent s c'.1 c'.2 := by
  have fields : (c.2.length : Int) = c'.2.length ∧ c.1.isHot = c'.1.isHot := by
    simpa [shownCount] using same
  unfold isFrequent thresholdFor callCount
  rw [plain, fields.2, if_neg Bool.false_ne_true, if_neg Bool.false_ne_true, fields.1]

/-- Of two analyses the second of which does not tell branches apart, the same is reported exactly if
they find the same counts frequent. -/
theorem map_reported_findings_iff (a : Analyzed) (s s' : Settings) (plain : s'.experimental = false) :
    (a.findings s).map Command.reported = (a.findings s').map Command.reported ↔
      SameFrequent a.tracker.counted s s' := by
  refine ⟨fun same => ?_, fun same => by rw [findings_congr a same]⟩
  obtain ⟨first, last, split⟩ := findings_split a
  rw [split, split, map_append, map_append, map_append, map_append] at same
  have frequent := append_cancel_right (append_cancel_left same)
  refine agree_of_map_filter shownCount ?_ fun c c' => isFrequent_of_shownCount plain
  have counts : ∀ r : Settings, frequentCounts r a.tracker.counted =
      ((a.frequent r).map Command.reported).flatMap fun f => f.details.counts := by
    intro r
    rw [← counts_frequent, flatMap_map]
    rfl
  exact (counts s).trans ((congrArg _ frequent).trans (counts s').symm)

end LuaTune
