import LuaTune.Proofs.Command.Tallies
import Mathlib.Data.List.Perm.Basic

/-!
# Findings that arrive in any order

What is found in one file is added to a report at once, but the files come in the order in which the
workers finish. A report lists scripts and files by name, so that this order does not show.
-/

namespace LuaTune

open List

/-! ## Tables of lists -/

section

variable {κ α : Type} [BEq κ] [LawfulBEq κ]

/-- Keys are different, and no list is empty. -/
structure IsNeat (es : List (κ × List α)) : Prop where
  keys : (es.map (·.1)).Nodup
  filled : ∀ e ∈ es, e.2 ≠ []

namespace IsNeat

variable {es es' : List (κ × List α)}

theorem setKey (h : IsNeat es) (k : κ) {v : List α} (filled : v ≠ []) : IsNeat (setKey k v es) where
  keys := nodup_setKey h.keys k v
  filled e he := by
    rcases mem_setKey he with rfl | he
    · exact filled
    · exact h.filled e he

theorem addToGroup (h : IsNeat es) (k : κ) (x : α) : IsNeat (addToGroup k x es) :=
  addToGroup_eq k x es ▸ h.setKey k (concat_ne_nil x _)

theorem mem_iff (h : IsNeat es) {k : κ} {xs : List α} :
    (k, xs) ∈ es ↔ (getKey? k es).getD [] = xs ∧ xs ≠ [] := by
  rw [mem_iff_getKey? h.keys]
  constructor
  · intro found
    exact ⟨by rw [found, Option.getD_some], h.filled _ ((mem_iff_getKey? h.keys).mpr found)⟩
  · rintro ⟨rfl, filled⟩
    cases found : getKey? k es with
    | none => exact absurd (by rw [found]; rfl) filled
    | some xs => rfl

/-- Such a table is known by the lists at its keys. -/
theorem perm (h : IsNeat es) (h' : IsNeat es')
    (same : ∀ k, (getKey? k es).getD [] = (getKey? k es').getD []) : es.Perm es' := by
  refine (perm_ext_iff_of_nodup h.keys.of_map h'.keys.of_map).mpr fun ⟨k, xs⟩ => ?_
  rw [h.mem_iff, h'.mem_iff, same]

end IsNeat

end

namespace Report

/-! ## Sorted tables -/

theorem not_before_iff {x y : String} : (!decide (y < x)) = true ↔ x ≤ y := by
  rw [Bool.not_eq_true', decide_eq_false_iff_not, String.not_lt]

theorem sortedByName_sorted {α : Type} (es : List (String × α)) :
    (sortedByName es).Pairwise fun a b => a.1 ≤ b.1 := by
  have sorted := @sortBy_pairwise (String × α) (fun a b => !(b.1 < a.1))
    (fun a b => (String.le_total a.1 b.1).imp not_before_iff.mpr not_before_iff.mpr)
    (fun _ _ _ first second => not_before_iff.mpr
      (String.le_trans (not_before_iff.mp first) (not_before_iff.mp second))) es
  exact sorted.imp not_before_iff.mp

theorem eq_of_sorted {α : Type} {xs ys : List (String × α)} (hx : xs.Pairwise fun a b => a.1 ≤ b.1)
    (hy : ys.Pairwise fun a b => a.1 ≤ b.1) (keys : (xs.map (·.1)).Nodup) (perm : xs.Perm ys) : xs = ys := by
  refine perm.eq_of_pairwise (fun a b ha hb first second => ?_) hx hy
  exact inj_on_of_nodup_map keys ha (perm.mem_iff.mpr hb) (String.le_antisymm first second)

theorem sortedByName_eq {α : Type} {es es' : List (String × List α)} (h : IsNeat es) (perm : es.Perm es') :
    sortedByName es = sortedByName es' := by
  have whole := sortBy_perm (fun a b : String × List α => !(b.1 < a.1))
  refine eq_of_sorted (sortedByName_sorted es) (sortedByName_sorted es') ?_
    ((whole es).trans (perm.trans (whole es').symm))
  exact ((whole es).map (·.1)).nodup_iff.mpr h.keys

/-! ## Reports -/

def filesOf (r : Report) (script : String) : FileFindings := (getKey? script r.scripts).getD []

structure IsTidy (r : Report) : Prop where
  scripts : IsNeat r.scripts
  files : ∀ s ∈ r.scripts, IsNeat s.2

variable {r r' : Report}

theorem IsTidy.filesOf (h : r.IsTidy) (script : String) : IsNeat (r.filesOf script) := by
  unfold Report.filesOf
  cases found : getKey? script r.scripts with
  | none => exact ⟨nodup_nil, nofun⟩
  | some files => exact h.files _ ((mem_iff_getKey? h.scripts.keys).mpr found)

theorem IsTidy.add (h : r.IsTidy) (script path : String) (f : Finding) : (r.add script path f).IsTidy := by
  have files : IsNeat (addToGroup path f (r.filesOf script)) := (h.filesOf script).addToGroup path f
  refine ⟨h.scripts.setKey script ?_, fun s hs => ?_⟩
  · exact addToGroup_ne_nil path f _
  · rcases mem_setKey hs with rfl | hs
    · exact files
    · exact h.files s hs

theorem IsTidy.filesOf_perm (h : r.IsTidy) (h' : r'.IsTidy)
    (same : ∀ s p, r.findingsOf s p = r'.findingsOf s p) (s : String) : (r.filesOf s).Perm (r'.filesOf s) :=
  (h.filesOf s).perm (h'.filesOf s) (same s)

/-- What a report lists depends on what it holds for each file only. -/
theorem sorted_eq (h : r.IsTidy) (h' : r'.IsTidy) (same : ∀ s p, r.findingsOf s p = r'.findingsOf s p) :
    r.sorted = r'.sorted := by
  let listed (s : String × FileFindings) : String × FileFindings := (s.1, sortedByName s.2)
  have neat {r : Report} (h : r.IsTidy) : IsNeat (r.scripts.map listed) := by
    refine ⟨by simpa [listed, Function.comp_def] using h.scripts.keys, fun e he => ?_⟩
    obtain ⟨s, hs, rfl⟩ := mem_map.mp he
    exact fun none => h.scripts.filled s hs (List.Perm.nil_eq (none ▸ sortBy_perm _ s.2)).symm
  have at_script (r : Report) (s : String) :
      (getKey? s (r.scripts.map listed)).getD [] = sortedByName (r.filesOf s) := by
    rw [getKey?_map, filesOf]
    cases getKey? s r.scripts <;> rfl
  have perm : (r.scripts.map listed).Perm (r'.scripts.map listed) := by
    refine (neat h).perm (neat h') fun s => ?_
    rw [at_script, at_script, sortedByName_eq (h.filesOf s) (h.filesOf_perm h' same s)]
  have whole (r : Report) : r.sorted.Perm (r.scripts.map listed) := (sortBy_perm _ r.scripts).map listed
  have order (r : Report) : r.sorted.Pairwise fun a b => a.1 ≤ b.1 :=
    pairwise_map.mpr (sortedByName_sorted r.scripts)
  refine eq_of_sorted (order r) (order r') ?_ ((whole r).trans (perm.trans (whole r').symm))
  exact ((whole r).map (·.1)).nodup_iff.mpr (neat h).keys

theorem all_perm (r : Report) : r.all.Perm (r.sorted.flatMap fun s => s.2.flatMap (·.2)) := by
  rw [sorted, flatMap_map]
  refine ((sortBy_perm _ r.scripts).symm.flatMap_right _).trans (List.Perm.flatMap_left _ fun s _ => ?_)
  exact (sortBy_perm _ s.2).symm.flatMap_right _

theorem countP_flatMap_eq {α β : Type} (p : β → Bool) (g : α → List β) (xs : List α) :
    (xs.flatMap g).countP p = sumOf (xs.map fun x => (g x).countP p) := by
  induction xs with
  | nil => rfl
  | cons x xs ih => rw [flatMap_cons, countP_append, map_cons, sumOf_cons, ih]

theorem sumFiles_countP (scripts : List (String × FileFindings)) (p : Finding → Bool) :
    sumFiles scripts (countP p) = (scripts.flatMap fun s => s.2.flatMap (·.2)).countP p := by
  simp only [sumFiles, countP_flatMap_eq]

theorem total_eq (r : Report) : r.total = r.all.length := by
  rw [all, ← countP_true, ← sumFiles_countP, total]
  simp only [← countP_true]

theorem count_eq (r : Report) (s : Severity) : r.count s = r.all.countP fun f => f.severity == s :=
  sumFiles_countP _ _

theorem countImpact_eq (r : Report) (i : Impact) :
    r.countImpact i = r.all.countP fun f => impactOf f.pattern == i :=
  (sumFiles_countP _ _).trans (r.all_perm.countP_eq _).symm

theorem severityCountsOf_perm {fs gs : List Finding} (perm : fs.Perm gs) :
    severityCountsOf fs = severityCountsOf gs := by
  simp only [severityCountsOf, perm.countP_eq]

theorem eraseIdx_textLines (r : Report) (now now' : Console.Moment) :
    (r.textLines now).eraseIdx 1 = (r.textLines now').eraseIdx 1 := by
  simp only [textLines, cons_append, eraseIdx_cons_succ, eraseIdx_cons_zero]

/-! ## Batches -/

/-- Adds what is found in one file, given with the script and the path. -/
def addBatch (r : Report) (b : (String × String) × List Finding) : Report :=
  b.2.foldl (fun r f => r.add b.1.1 b.1.2 f) r

def ofBatches (bs : List ((String × String) × List Finding)) : Report := bs.foldl addBatch {}

variable {bs bs' : List ((String × String) × List Finding)}

theorem isTidy_ofBatches (bs : List ((String × String) × List Finding)) : (ofBatches bs).IsTidy := by
  refine List.foldlRecOn bs _ ⟨⟨nodup_nil, nofun⟩, nofun⟩ fun r h b _ => ?_
  exact List.foldlRecOn b.2 _ h fun r h f _ => h.add _ _ f

theorem findingsOf_foldl (keys : (bs.map (·.1)).Nodup) (r : Report) (s p : String) :
    (bs.foldl addBatch r).findingsOf s p = r.findingsOf s p ++ (getKey? (s, p) bs).getD [] := by
  induction bs generalizing r with
  | nil => simp [getKey?]
  | cons b bs ih =>
    obtain ⟨new, rest⟩ := nodup_cons.mp keys
    rw [foldl_cons, ih rest, addBatch, findingsOf_addAll, getKey?_cons]
    by_cases same : b.1 = (s, p)
    · have absent : getKey? (s, p) bs = none := by
        refine Option.eq_none_iff_forall_ne_some.mpr fun fs found => new ?_
        exact mem_map.mpr ⟨_, (mem_iff_getKey? rest).mpr found, same.symm⟩
      simp [same, absent]
    · have other : ¬(b.1.1 = s ∧ b.1.2 = p) := fun h => same (Prod.ext h.1 h.2)
      simp [same, other]

/-- In whatever order batches are added, the report is the same. -/
theorem report_any_order (distinct : (bs.map (·.1)).Nodup) (perm : bs.Perm bs') :
    let r := ofBatches bs
    let r' := ofBatches bs'
    r.total = r'.total ∧ r.summary = r'.summary ∧ (∀ i, r.countImpact i = r'.countImpact i) ∧
    r.patterns = r'.patterns ∧ r.sorted = r'.sorted ∧ (∀ s, r.breakdown s = r'.breakdown s) ∧
    (∀ p verbose, r.saveText p verbose = r'.saveText p verbose) ∧
    ∀ now now', (r.textLines now).eraseIdx 1 = (r'.textLines now').eraseIdx 1 := by
  intro r r'
  have tidy : r.IsTidy := isTidy_ofBatches bs
  have tidy' : r'.IsTidy := isTidy_ofBatches bs'
  have same (s p : String) : r.findingsOf s p = r'.findingsOf s p := by
    have distinct' := (perm.map (·.1)).nodup_iff.mp distinct
    show (bs.foldl addBatch {}).findingsOf s p = (bs'.foldl addBatch {}).findingsOf s p
    rw [findingsOf_foldl distinct, findingsOf_foldl distinct', getKey?_perm distinct perm]
  have sorted := sorted_eq tidy tidy' same
  have all : r.all.Perm r'.all := r.all_perm.trans (sorted ▸ r'.all_perm.symm)
  have total : r.total = r'.total := by
    rw [total_eq, total_eq, all.length_eq]
  have summary : r.summary = r'.summary := by
    simp only [Report.summary, count_eq, all.countP_eq]
  have lines (now : Console.Moment) : r.textLines now = r'.textLines now := by
    rw [textLines, textLines, sorted, total, summary]
  have scripts : r.scripts.length = r'.scripts.length := by
    have length (r : Report) : r.sorted.length = r.scripts.length := by
      rw [Report.sorted, length_map]
      exact (sortBy_perm _ r.scripts).length_eq
    rw [← length, sorted, length]
  refine ⟨total, summary, fun i => ?_, ?_, sorted, fun s => ?_, fun p verbose => ?_, fun now now' => ?_⟩
  · rw [countImpact, countImpact, sorted]
  · rw [patterns, patterns, sorted]
  · exact severityCountsOf_perm ((tidy.filesOf_perm tidy' same s).flatMap_right _)
  · simp only [saveText, lines, scripts]
  · rw [← lines, eraseIdx_textLines]

def twoBatches : List ((String × String) × List Finding) :=
  [(("shop", "b.lua"), [⟨"B", .green, 2, "", [], ""⟩, ⟨"b", .red, 1, "", [], ""⟩]),
   (("shop", "a.lua"), [⟨"b", .debug, 3, "", [], ""⟩])]

theorem twoBatches_any_order :
    (ofBatches twoBatches).all.map (·.line) ≠ (ofBatches twoBatches.reverse).all.map (·.line) ∧
    (ofBatches twoBatches).patterns = (ofBatches twoBatches.reverse).patterns := by
  have distinct : (twoBatches.map (·.1)).Nodup := by decide
  obtain ⟨-, -, -, patterns, -⟩ := report_any_order distinct (reverse_perm twoBatches).symm
  exact ⟨by decide, patterns⟩

end Report

end LuaTune
