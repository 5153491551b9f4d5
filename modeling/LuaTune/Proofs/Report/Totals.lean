import LuaTune.Proofs.Report.AnyOrder
import Mathlib.Data.List.Dedup

/-!
# What the figures of a report add up to

Each figure walks the scripts and their files by itself. All of them count the findings that were
added, each one once.
-/

namespace LuaTune

open List

/-! ## Sums -/

section

variable {κ α β : Type}

theorem sumOf_perm {ms ns : List Nat} (perm : ms.Perm ns) : sumOf ms = sumOf ns := by
  induction perm with
  | nil => rfl
  | cons n _ ih => rw [sumOf_cons, sumOf_cons, ih]
  | swap m n ns =>
    simp only [sumOf_cons]
    omega
  | trans _ _ ih ih' => exact ih.trans ih'

end

/-! ## Tables of lists -/

section

variable {κ α β : Type} [BEq κ]

theorem flatMap_setKey {g : α → List β} {k : κ} {v : α} {x : β} {es : List (κ × α)}
    (grows : (g v).Perm ((getKey? k es).elim [] g ++ [x])) :
    ((setKey k v es).flatMap fun e => g e.2).Perm ((es.flatMap fun e => g e.2) ++ [x]) := by
  induction es with
  | nil => simpa [setKey, getKey?] using grows
  | cons e es ih =>
    rw [getKey?_cons] at grows
    rw [setKey_cons]
    split at grows
    · rw [if_pos ‹_›, flatMap_cons, flatMap_cons, append_assoc]
      refine (grows.append_right _).trans ?_
      rw [append_assoc]
      exact perm_append_comm.append_left _
    · rw [if_neg ‹_›, flatMap_cons, flatMap_cons, append_assoc]
      exact (ih grows).append_left _

variable [LawfulBEq κ]

theorem flatMap_addToGroup (k : κ) (x : α) (gs : List (κ × List α)) :
    ((addToGroup k x gs).flatMap (·.2)).Perm (gs.flatMap (·.2) ++ [x]) := by
  rw [addToGroup_eq]
  refine flatMap_setKey (g := id) ?_
  cases getKey? k gs <;> exact .refl _

end

namespace Report

variable {fs : List Finding} {as : List (String × String × Finding)}

theorem all_add (r : Report) (script path : String) (f : Finding) :
    (r.add script path f).all.Perm (r.all ++ [f]) := by
  refine flatMap_setKey (κ := String) (g := fun files : FileFindings => files.flatMap (·.2)) ?_
  cases getKey? script r.scripts <;> exact flatMap_addToGroup path f _

/-- The report of some additions, each of the name of a script, the path of a file and a finding. -/
def ofAdditions (as : List (String × String × Finding)) : Report :=
  as.foldl (fun r a => r.add a.1 a.2.1 a.2.2) {}

theorem isTidy_ofAdditions (as : List (String × String × Finding)) : (ofAdditions as).IsTidy :=
  List.foldlRecOn as _ ⟨⟨nodup_nil, nofun⟩, nofun⟩ fun _ h a _ => h.add a.1 a.2.1 a.2.2

theorem all_ofAdditions (as : List (String × String × Finding)) :
    (ofAdditions as).all.Perm (as.map (·.2.2)) := by
  induction as using List.reverseRecOn with
  | nil => exact .refl _
  | append_singleton as a ih =>
    rw [ofAdditions, foldl_append, map_append]
    exact (all_add _ _ _ _).trans (ih.append_right _)

/-! ## Figures -/

def shownSeverities : List Severity := [.green, .yellow, .red, .debug]

def allImpacts : List Impact := [.critical, .high, .medium, .low]

def SeverityCounts.of (c : SeverityCounts) : Severity → Nat
  | .green => c.green
  | .yellow => c.yellow
  | .red => c.red
  | .debug => c.debug
  | .other _ => 0

theorem of_severityCountsOf {s : Severity} (shown : s ∈ shownSeverities) (fs : List Finding) :
    (severityCountsOf fs).of s = fs.countP fun f => f.severity == s := by
  simp only [shownSeverities, mem_cons, not_mem_nil, or_false] at shown
  rcases shown with rfl | rfl | rfl | rfl <;> rfl

theorem sumOf_breakdowns {r : Report} (h : r.IsTidy) {s : Severity} (shown : s ∈ shownSeverities) :
    sumOf (r.scripts.map fun e => (r.breakdown e.1).of s) = r.count s := by
  refine congrArg sumOf (map_congr_left fun e he => ?_)
  have here : getKey? e.1 r.scripts = some e.2 := (mem_iff_getKey? h.scripts.keys).mp he
  rw [breakdown, here, Option.getD_some, of_severityCountsOf shown, countP_flatMap_eq]

theorem sumOf_patterns (r : Report) : sumOf (r.patterns.map (·.2)) = r.total := by
  rw [patterns, sumOf_perm ((sortBy_perm _ _).map _), map_map]
  let fs := r.sorted.flatMap fun s => s.2.flatMap (·.2)
  have groups : sumOf ((groupOn Finding.pattern fs).map fun g => g.2.countP fun _ => true) = _ :=
    sumOf_countP_groupOn _ fs
  simp only [countP_true] at groups
  rw [total_eq, r.all_perm.length_eq]
  exact groups

/-- The figures of a report are those of the findings `fs`. -/
structure AddsUp (r : Report) (fs : List Finding) : Prop where
  all : r.all.Perm fs
  total : r.total = fs.length
  severities : sumOf (shownSeverities.map r.count) = fs.length
  impacts : sumOf (allImpacts.map r.countImpact) = fs.length
  patterns : sumOf (r.patterns.map (·.2)) = fs.length
  breakdowns : ∀ s ∈ shownSeverities, r.count s = sumOf (r.scripts.map fun e => (r.breakdown e.1).of s)

theorem IsTidy.addsUp {r : Report} (h : r.IsTidy) (all : r.all.Perm fs)
    (shown : ∀ f ∈ fs, f.severity ∈ shownSeverities) : r.AddsUp fs where
  all := all
  total := r.total_eq.trans all.length_eq
  severities := by
    rw [funext r.count_eq]
    refine (sumOf_countP_keys Finding.severity (by decide) fun f hf => ?_).trans all.length_eq
    exact shown f (all.mem_iff.mp hf)
  impacts := by
    rw [funext r.countImpact_eq]
    refine (sumOf_countP_keys (fun f : Finding => impactOf f.pattern) (by decide) fun f hf => ?_).trans
      all.length_eq
    cases impactOf f.pattern <;> decide
  patterns := r.sumOf_patterns.trans (r.total_eq.trans all.length_eq)
  breakdowns s hs := (sumOf_breakdowns h hs).symm

/-! ## The most frequent patterns -/

def countOf (fs : List Finding) (pattern : String) : Nat := fs.countP fun f => f.pattern == pattern

/-- The most frequent patterns of the findings `fs`, at most `limit` of them. -/
structure Ranks (fs : List Finding) (limit : Nat) (top : List Issue) : Prop where
  length : top.length = min limit (fs.map Finding.pattern).dedup.length
  distinct : (top.map Issue.pattern).Nodup
  named : ∀ i ∈ top, i.pattern ∈ fs.map Finding.pattern
  counts : ∀ i ∈ top, i.count = countOf fs i.pattern
  ordered : top.Pairwise fun i j => j.count ≤ i.count
  greatest : ∀ f ∈ fs, f.pattern ∉ top.map Issue.pattern → ∀ i ∈ top, countOf fs f.pattern ≤ i.count

theorem map_pattern_issues (r : Report) :
    r.issues.map Issue.pattern = (groupOn Finding.pattern r.all).map (·.1) := by
  rw [issues, map_map]
  rfl

theorem count_of_mem_issues {r : Report} {i : Issue} (h : i ∈ r.issues) :
    i.count = countOf r.all i.pattern := by
  obtain ⟨g, hg, rfl⟩ := mem_map.mp h
  rw [countOf, countP_eq_length_filter, ← (mem_groupOn_iff.mp hg).1]

theorem ranks_topIssues {r : Report} (all : r.all.Perm fs) (limit : Nat) : Ranks fs limit (r.topIssues limit) := by
  let sorted := sortBy (fun a b : Issue => b.count ≤ a.count) r.issues
  have perm : sorted.Perm r.issues := sortBy_perm _ _
  have top : r.topIssues limit = sorted.take limit := by
    rw [topIssues, firstOf, if_pos (Int.natCast_nonneg limit)]
    rfl
  have order : sorted.Pairwise fun i j => j.count ≤ i.count := by
    have := @sortBy_pairwise Issue (fun a b => b.count ≤ a.count) (by simp; omega) (by simp; omega) r.issues
    simpa using this
  have groups : AreGroups Finding.pattern r.all _ := areGroups_groupOn r.all
  have names : (sorted.map Issue.pattern).Perm ((groupOn Finding.pattern r.all).map (·.1)) :=
    map_pattern_issues r ▸ perm.map _
  have distinct : (sorted.map Issue.pattern).Nodup := names.nodup_iff.mpr groups.keys
  have known (p : String) : p ∈ sorted.map Issue.pattern ↔ p ∈ fs.map Finding.pattern := by
    rw [names.mem_iff, ← (all.map Finding.pattern).mem_iff]
    constructor
    · intro hp
      obtain ⟨g, hg, rfl⟩ := mem_map.mp hp
      obtain ⟨f, hf, named⟩ := groups.named g hg
      exact mem_map.mpr ⟨f, hf, named⟩
    · intro hp
      obtain ⟨f, hf, rfl⟩ := mem_map.mp hp
      exact groups.covers f hf
  have counts : ∀ i ∈ sorted, i.count = countOf fs i.pattern := fun i hi =>
    (count_of_mem_issues (perm.mem_iff.mp hi)).trans (all.countP_eq _)
  rw [top]
  refine ⟨?_, ?_, ?_, ?_, ?_, ?_⟩
  · have size : (sorted.map Issue.pattern).Perm (fs.map Finding.pattern).dedup :=
      (perm_ext_iff_of_nodup distinct (nodup_dedup _)).mpr fun p => (known p).trans mem_dedup.symm
    rw [length_take, ← size.length_eq, length_map]
  · exact distinct.sublist ((take_sublist _ _).map _)
  · exact fun i hi => (known _).mp (mem_map_of_mem (mem_of_mem_take hi))
  · exact fun i hi => counts i (mem_of_mem_take hi)
  · exact order.sublist (take_sublist _ _)
  · intro f hf unlisted i hi
    obtain ⟨j, hj, same⟩ := mem_map.mp ((known _).mpr (mem_map_of_mem hf))
    rw [← take_append_drop limit sorted] at hj order
    rw [← same]
    rcases mem_append.mp hj with listed | rest
    · exact absurd (same ▸ mem_map_of_mem listed) unlisted
    · rw [← counts j (mem_of_mem_drop rest)]
      exact (pairwise_append.mp order).2.2 i hi j rest

/-- However findings are added, every figure counts each of them once, and the most frequent patterns
are listed with their counts. -/
theorem totals_conserved (as : List (String × String × Finding))
    (shown : ∀ a ∈ as, a.2.2.severity ∈ shownSeverities) :
    (ofAdditions as).AddsUp (as.map (·.2.2)) ∧ (as.map (·.2.2)).length = as.length ∧
      ∀ limit : Nat, Ranks (as.map (·.2.2)) limit ((ofAdditions as).topIssues limit) := by
  have all := all_ofAdditions as
  refine ⟨(isTidy_ofAdditions as).addsUp all fun f hf => ?_, length_map _, ranks_topIssues all⟩
  obtain ⟨a, ha, rfl⟩ := mem_map.mp hf
  exact shown a ha

def threeAdditions : List (String × String × Finding) :=
  [("shop", "b.lua", ⟨"table_getn", .green, 2, "", [], ""⟩), ("bank", "a.lua", ⟨"global_write", .red, 1, "", [], ""⟩),
   ("shop", "b.lua", ⟨"global_write", .debug, 3, "", [], ""⟩)]

theorem threeAdditions_ranked : (ofAdditions threeAdditions).total = 3 ∧
    ((ofAdditions threeAdditions).topIssues 1).map Issue.pattern = ["global_write"] ∧
    Ranks (threeAdditions.map (·.2.2)) 1 ((ofAdditions threeAdditions).topIssues 1) := by
  obtain ⟨sums, -, ranks⟩ := totals_conserved threeAdditions (by decide)
  exact ⟨sums.total, by decide, ranks 1⟩

end Report

end LuaTune
