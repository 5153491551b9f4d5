import LuaTune.Proofs.Command.Printing
import LuaTune.Proofs.Files.Places

/-!
# What analyzing adds up to

What workers find is taken over as it arrives. If the pool breaks down, all scripts are analyzed
again, those of which the results were taken over too.
-/

namespace LuaTune

/-! ## Reports -/

theorem getKey?_addToGroup {κ α : Type} [BEq κ] [LawfulBEq κ] (k k' : κ) (x : α)
    (groups : List (κ × List α)) :
    (getKey? k' (addToGroup k x groups)).getD [] =
      (getKey? k' groups).getD [] ++ if k == k' then [x] else [] := by
  rw [addToGroup_eq]
  by_cases same : k = k'
  · subst same
    simp [getKey?_setKey_self]
  · simp [getKey?_setKey_ne (Ne.symm same), same]

namespace Report

def findingsOf (r : Report) (resource path : String) : List Finding :=
  (getKey? path ((getKey? resource r.scripts).getD [])).getD []

theorem findingsOf_add (r : Report) (resource path : String) (f : Finding) (resource' path' : String) :
    (r.add resource path f).findingsOf resource' path' =
      r.findingsOf resource' path' ++ if resource = resource' ∧ path = path' then [f] else [] := by
  unfold findingsOf add
  by_cases same : resource = resource'
  · subst same
    rw [getKey?_setKey_self, Option.getD_some, getKey?_addToGroup]
    simp
  · rw [getKey?_setKey_ne (Ne.symm same)]
    simp [same]

theorem findingsOf_addAll (r : Report) (resource path : String) (fs : List Finding)
    (resource' path' : String) :
    Report.findingsOf (fs.foldl (fun r f => r.add resource path f) r) resource' path' =
      r.findingsOf resource' path' ++ if resource = resource' ∧ path = path' then fs else [] := by
  induction fs generalizing r with
  | nil => simp
  | cons f fs ih =>
    rw [List.foldl_cons, ih, findingsOf_add]
    by_cases same : resource = resource' ∧ path = path' <;> simp [same]

end Report

end LuaTune

namespace LuaTune.Command

open Console Files List

variable {o : Options} {scripts : List ScriptItem} {t : Tally} {w : World}

/-! ## Results -/

abbrev Results := List (ScriptItem × Outcome (Except Analysis.Fault (List Finding)))

def Outcome.isCrash {α : Type} : Outcome α → Bool
  | .crashed => true
  | _ => false

def Tally.count (t : Tally) (s : ScriptItem) : Outcome (Except Analysis.Fault (List Finding)) → Tally
  | .done (.ok fs) => t.next.add s fs
  | _ => t.next.skip

def Tally.countAll (t : Tally) (xs : Results) : Tally := xs.foldl (fun t x => t.count x.1 x.2) t

def Outcome.reported : Outcome (Except Analysis.Fault (List Finding)) → List Finding
  | .done (.ok fs) => fs.map Command.reported
  | _ => []

def foundFor (xs : Results) (resource path : String) : List Finding :=
  xs.flatMap fun x => if x.1.1 = resource ∧ x.1.2.text = path then x.2.reported else []

theorem total_count (t : Tally) (s : ScriptItem) (y : Outcome (Except Analysis.Fault (List Finding))) :
    (t.count s y).analyzed + (t.count s y).skipped = t.analyzed + t.skipped + 1 := by
  unfold Tally.count
  split
  · simp only [Tally.add, Tally.next]
    omega
  · rfl

theorem findingsOf_count (t : Tally) (s : ScriptItem)
    (y : Outcome (Except Analysis.Fault (List Finding))) (resource path : String) :
    (t.count s y).report.findingsOf resource path = t.report.findingsOf resource path ++
      if s.1 = resource ∧ s.2.text = path then y.reported else [] := by
  unfold Tally.count Outcome.reported
  split
  · next fs =>
    have added := t.report.findingsOf_addAll s.1 s.2.text (fs.map Command.reported) resource path
    rwa [foldl_map] at added
  · rw [ite_self, append_nil]
    rfl

theorem total_countAll (t : Tally) (xs : Results) :
    (t.countAll xs).analyzed + (t.countAll xs).skipped = t.analyzed + t.skipped + xs.length := by
  unfold Tally.countAll
  induction xs generalizing t with
  | nil => rfl
  | cons x xs ih =>
    rw [foldl_cons, ih, total_count, length_cons]
    omega

theorem findingsOf_countAll (t : Tally) (xs : Results) (resource path : String) :
    (t.countAll xs).report.findingsOf resource path =
      t.report.findingsOf resource path ++ foundFor xs resource path := by
  unfold Tally.countAll foundFor
  induction xs generalizing t with
  | nil => exact (append_nil _).symm
  | cons x xs ih => rw [foldl_cons, ih, findingsOf_count, flatMap_cons, append_assoc]

theorem parseErrors_countAll (t : Tally) (xs : Results) : (t.countAll xs).parseErrors = t.parseErrors := by
  unfold Tally.countAll
  induction xs generalizing t with
  | nil => rfl
  | cons x xs ih =>
    rw [foldl_cons, ih]
    unfold Tally.count
    split <;> rfl

/-! ## Taking results over -/

theorem isParseError_message (f : Analysis.Fault) : isParseError f.message = false := by
  cases f <;> decide +kernel

theorem collect_step (o : Options) (total : Nat) (t : Tally) (s : ScriptItem)
    {y : Outcome (Except Analysis.Fault (List Finding))} (goesOn : y.isCrash = false) (xs : Results)
    (w : World) : ∃ out, collect o total t ((s, y) :: xs) w =
      collect o total (t.count s y) xs { w with output := out } := by
  cases y with
  | crashed => cases goesOn
  | failed => exact (prints_say _).perhaps fun out => ⟨out, rfl⟩
  | done result =>
    have shown := (prints_put (progressText t.next.completed total ++ toString t.next.completed ++ "/"
      ++ toString total ++ " | ETA: 0s  ")).ite (c := (!o.quiet) = true) prints_nothing
    obtain ⟨out, shown⟩ := shown w
    cases result with
    | error f =>
      rw [collect, bind_ok shown]
      simp only [handedBack, isParseError_message]
      exact (prints_say _).perhaps fun out => ⟨out, rfl⟩
    | ok =>
      rw [collect, bind_ok shown]
      exact (prints_say _).perhaps fun out => ⟨out, rfl⟩

def takenOver (xs : Results) : Results := xs.takeWhile fun x => !x.2.isCrash

def breaksDown (xs : Results) : Bool := xs.any fun x => x.2.isCrash

theorem collect_ends (o : Options) (total : Nat) (t : Tally) (xs : Results) (w : World) :
    ∃ out, collect o total t xs w =
      .ok (if breaksDown xs then (t.countAll (takenOver xs)).next else t.countAll xs, breaksDown xs)
        { w with output := out } := by
  induction xs generalizing t w with
  | nil => exact ⟨w.output, rfl⟩
  | cons x xs ih =>
    obtain ⟨s, y⟩ := x
    cases crash : y.isCrash with
    | true =>
      -- a crash ends the loop, whatever arrives after it
      obtain rfl : y = .crashed := by
        cases y <;> first | rfl | cases crash
      exact ⟨w.output, rfl⟩
    | false =>
      obtain ⟨out, first⟩ := collect_step o total t s crash xs w
      obtain ⟨out', rest⟩ := ih (t.count s y) { w with output := out }
      refine ⟨out', ?_⟩
      have taken : takenOver ((s, y) :: xs) = (s, y) :: takenOver xs :=
        takeWhile_cons_of_pos (by simp [crash])
      have broken : breaksDown ((s, y) :: xs) = breaksDown xs := by
        rw [breaksDown, any_cons, crash, Bool.false_or, breaksDown]
      rw [first, rest, taken, broken]
      rfl

/-! ## One after the other -/

def resultsFor (o : Options) (tree : Tree) (scripts : List ScriptItem) : Results :=
  scripts.map fun s => (s, .done (analyzeFile o.settings tree s.2))

theorem analyzeSingly_step (o : Options) (total : Nat) (t : Tally) (s : ScriptItem)
    (ss : List ScriptItem) (w : World) : ∃ out, analyzeSingly o total t (s :: ss) w =
      analyzeSingly o total (t.count s (.done (analyzeFile o.settings w.tree s.2))) ss
        { w with output := out } := by
  have item : ∀ v, analyzeItem o s v = .ok (analyzeFile o.settings v.tree s.2) v := fun _ => rfl
  rw [analyzeSingly]
  refine (prints_put _).perhaps fun out => ?_
  rw [bind_ok (item _)]
  cases analyzeFile o.settings w.tree s.2 with
  | ok fs => exact ⟨out, rfl⟩
  | error e => exact (prints_say _).perhaps fun out => ⟨out, rfl⟩

theorem analyzeSingly_ends (o : Options) (total : Nat) (t : Tally) (scripts : List ScriptItem)
    (w : World) : ∃ out, analyzeSingly o total t scripts w =
      .ok (t.countAll (resultsFor o w.tree scripts)) { w with output := out } := by
  induction scripts generalizing t w with
  | nil => exact ⟨w.output, rfl⟩
  | cons s ss ih =>
    obtain ⟨out, first⟩ := analyzeSingly_step o total t s ss w
    obtain ⟨out', rest⟩ := ih (t.count s (.done (analyzeFile o.settings w.tree s.2)))
      { w with output := out }
    exact ⟨out', first.trans rest⟩

/-! ## After the workers -/

def mend (o : Options) (scripts : List ScriptItem) (t : Tally) (crashed : Bool) : Action Tally := do
  let t ← if crashed then do
      if !o.quiet then say crashLine
      analyzeSingly o scripts.length t scripts
    else pure t
  if !o.quiet then put ("\r" ++ rule ' ' 80 ++ "\r")
  return t

theorem mend_ends (o : Options) (scripts : List ScriptItem) (t : Tally) (crashed : Bool) (w : World) :
    ∃ out, mend o scripts t crashed w =
      .ok (if crashed then t.countAll (resultsFor o w.tree scripts) else t)
        { w with output := out } := by
  unfold mend
  cases crashed with
  | false => exact (prints_put _).perhaps fun out => ⟨out, rfl⟩
  | true =>
    refine (prints_say _).perhaps fun out => ?_
    obtain ⟨out', mended⟩ := analyzeSingly_ends o scripts.length t scripts { w with output := out }
    rw [bind_ok mended]
    exact (prints_put _).perhaps fun out => ⟨out, rfl⟩

/-- Take over what arrives from the workers, and go on without them if the pool breaks down. Nothing
arrives if a task is refused. -/
def conclude (o : Options) (scripts : List ScriptItem) (arrivals : Option Results) : Action Tally := do
  let (t, crashed) ← arrivals.elim (pure ({}, true)) (collect o scripts.length {})
  mend o scripts t crashed

def concluded (o : Options) (tree : Tree) (scripts : List ScriptItem) : Option Results → Tally
  | none => ({} : Tally).countAll (resultsFor o tree scripts)
  | some xs =>
    if breaksDown xs then
      (({} : Tally).countAll (takenOver xs)).next.countAll (resultsFor o tree scripts)
    else ({} : Tally).countAll xs

theorem conclude_ends (o : Options) (scripts : List ScriptItem) (arrivals : Option Results)
    (w : World) : ∃ out, conclude o scripts arrivals w =
      .ok (concluded o w.tree scripts arrivals) { w with output := out } := by
  cases arrivals with
  | none => exact mend_ends o scripts {} true w
  | some xs =>
    obtain ⟨out, taken⟩ := collect_ends o scripts.length {} xs w
    obtain ⟨out', mended⟩ := mend_ends o scripts
      (if breaksDown xs then (({} : Tally).countAll (takenOver xs)).next else ({} : Tally).countAll xs)
      (breaksDown xs) { w with output := out }
    refine ⟨out', (bind_ok taken).trans (mended.trans ?_)⟩
    cases broken : breaksDown xs <;> simp [concluded, broken]

theorem analyzeAll_eq (o : Options) (scripts : List ScriptItem) : analyzeAll o scripts = (do
      let outcomes ← runPool 0 (analyzeItem o) scripts
      conclude o scripts (outcomes.map scripts.zip)) := by
  unfold analyzeAll
  refine congrArg (runPool 0 (analyzeItem o) scripts >>= ·) (funext fun outcomes => ?_)
  cases outcomes <;> rfl

def outcomeOf {β : Type} (w : World) (pool n : Nat) (y : β) : Outcome β :=
  match breakdownAt w pool n with
  | some .crash => .crashed
  | some .failure => .failed
  | _ => .done y

def arrivals (o : Options) (w : World) (n : Nat) (scripts : List ScriptItem) : Results :=
  (scripts.zipIdx n).map fun x =>
    (x.1, outcomeOf w 0 x.2 (analyzeFile o.settings w.tree x.1.2))

theorem runFrom_step (o : Options) {n : Nat} (s : ScriptItem) {ss : List ScriptItem}
    (accepted : breakdownAt w 0 n ≠ some .refusal)
    {ys : Option (List (Outcome (Except Analysis.Fault (List Finding))))}
    (rest : runFrom 0 (analyzeItem o) (n + 1) ss w = .ok ys w) :
    runFrom 0 (analyzeItem o) n (s :: ss) w =
      .ok (ys.map (outcomeOf w 0 n (analyzeFile o.settings w.tree s.2) :: ·)) w := by
  have item : analyzeItem o s w = .ok (analyzeFile o.settings w.tree s.2) w := rfl
  unfold runFrom outcomeOf
  rw [get_bind]
  cases struck : breakdownAt w 0 n with
  | none =>
    simp only [bind_ok item, bind_ok rest]
    rfl
  | some kind =>
    cases kind with
    | refusal => exact absurd struck accepted
    | crash | failure =>
      simp only [bind_ok rest]
      rfl

theorem runFrom_analyzes (o : Options) (n : Nat) (scripts : List ScriptItem) (w : World) :
    ∃ ys, runFrom 0 (analyzeItem o) n scripts w = .ok ys w ∧ ((∀ m, breakdownAt w 0 m ≠ some .refusal) →
        ys.map scripts.zip = some (arrivals o w n scripts)) := by
  induction scripts generalizing n with
  | nil => exact ⟨some [], rfl, fun _ => rfl⟩
  | cons s ss ih =>
    obtain ⟨ys, rest, arrived⟩ := ih (n + 1)
    by_cases refused : breakdownAt w 0 n = some .refusal
    · refine ⟨none, ?_, fun accepted => absurd refused (accepted n)⟩
      unfold runFrom
      rw [get_bind, refused]
      rfl
    · refine ⟨_, runFrom_step o s refused rest, fun accepted => ?_⟩
      obtain ⟨zs, rfl, zipped⟩ := Option.map_eq_some_iff.mp (arrived accepted)
      exact congrArg (fun xs => some ((s, _) :: xs)) zipped

theorem arrivals_of_calm (o : Options) {w : World} (calm : ∀ m, breakdownAt w 0 m = none) (n : Nat)
    (scripts : List ScriptItem) : arrivals o w n scripts = resultsFor o w.tree scripts := by
  unfold arrivals resultsFor outcomeOf
  simp only [calm]
  rw [← zipIdx_map_fst n scripts, map_map, zipIdx_map_fst]
  rfl

theorem analyzeAll_ends (o : Options) (scripts : List ScriptItem) (w : World) :
    ∃ arrived out, analyzeAll o scripts w =
        .ok (concluded o w.tree scripts arrived) { w with output := out } ∧
      ((∀ m, breakdownAt w 0 m ≠ some .refusal) → arrived = some (arrivals o w 0 scripts)) := by
  obtain ⟨ys, run, arrived⟩ := runFrom_analyzes o 0 scripts w
  obtain ⟨out, tallied⟩ := conclude_ends o scripts (ys.map scripts.zip) w
  refine ⟨ys.map scripts.zip, out, ?_, arrived⟩
  rw [analyzeAll_eq]
  exact (bind_ok run).trans tallied

/-- No fault has the text of a parse error, so none is counted: a script that does not parse counts as
one without findings. -/
theorem analyzeAll_parseErrors (o : Options) (scripts : List ScriptItem) (w : World) :
    Ends (analyzeAll o scripts) w fun t _ => t.parseErrors = 0 := by
  obtain ⟨arrived, out, ends, -⟩ := analyzeAll_ends o scripts w
  refine ends_iff.mpr ⟨_, _, ends, ?_⟩
  cases arrived with
  | none => exact parseErrors_countAll {} _
  | some xs =>
    simp only [concluded]
    split
    · exact (parseErrors_countAll _ _).trans (parseErrors_countAll {} (takenOver xs))
    · exact parseErrors_countAll {} xs

theorem not_breaksDown_resultsFor (o : Options) (tree : Tree) (scripts : List ScriptItem) :
    breaksDown (resultsFor o tree scripts) = false := by
  unfold breaksDown resultsFor
  simp [Outcome.isCrash]

theorem analyzeAll_of_calm (o : Options) (scripts : List ScriptItem)
    (calm : ∀ m, breakdownAt w 0 m = none) :
    ∃ out, analyzeAll o scripts w =
      .ok (({} : Tally).countAll (resultsFor o w.tree scripts)) { w with output := out } := by
  obtain ⟨arrived, out, ends, known⟩ := analyzeAll_ends o scripts w
  obtain rfl := known fun m => by simp [calm m]
  refine ⟨out, ends.trans ?_⟩
  simp [concluded, arrivals_of_calm o calm, not_breaksDown_resultsFor]

/-! ## Each file once -/

/-- The report has what there is to find in each file once, and each script is counted once. -/
def EachOnce (o : Options) (tree : Tree) (scripts : List ScriptItem) (t : Tally) : Prop :=
  (∀ resource path, (t.report.findingsOf resource path).Perm
    (foundFor (resultsFor o tree scripts) resource path)) ∧ t.analyzed + t.skipped = scripts.length

/-- The results of scripts that arrive in some order, of which `k` arrive before the pool breaks
down. -/
def brokenOff (o : Options) (tree : Tree) (order : List ScriptItem) (k : Nat) : Results :=
  resultsFor o tree (order.take k) ++ (order.drop k).map (·, .crashed)

theorem takenOver_brokenOff (o : Options) (tree : Tree) (order : List ScriptItem) (k : Nat) :
    takenOver (brokenOff o tree order k) = resultsFor o tree (order.take k) := by
  unfold takenOver brokenOff
  rw [takeWhile_append_of_pos]
  · cases order.drop k with
    | nil => exact append_nil _
    | cons s ss => exact append_nil _
  · intro x arrived
    obtain ⟨s, -, rfl⟩ := mem_map.mp arrived
    rfl

theorem breaksDown_brokenOff (o : Options) (tree : Tree) {order : List ScriptItem} {k : Nat}
    (h : k < order.length) : breaksDown (brokenOff o tree order k) = true := by
  rw [breaksDown, brokenOff, any_append, drop_eq_getElem_cons h, map_cons, any_cons]
  simp only [Outcome.isCrash, Bool.true_or, Bool.or_true]

theorem takenOver_arrivals (o : Options) {w : World} {n k : Nat} (scripts : List ScriptItem)
    (planned : ∀ m, breakdownAt w 0 m = if m = n + k then some .crash else none) :
    takenOver (arrivals o w n scripts) = resultsFor o w.tree (scripts.take k) := by
  induction scripts generalizing n k with
  | nil => simp [arrivals, takenOver, resultsFor]
  | cons s ss ih =>
    cases k with
    | zero => simp [arrivals, takenOver, resultsFor, outcomeOf, planned, Outcome.isCrash]
    | succ k =>
      have rest := ih fun m => (planned m).trans (by rw [Nat.add_right_comm, Nat.add_assoc])
      have first : outcomeOf w 0 n (analyzeFile o.settings w.tree s.2) =
          .done (analyzeFile o.settings w.tree s.2) := by
        simp [outcomeOf, planned]
      have more : arrivals o w n (s :: ss) =
          (s, .done (analyzeFile o.settings w.tree s.2)) :: arrivals o w (n + 1) ss :=
        congrArg (fun y => (s, y) :: arrivals o w (n + 1) ss) first
      rw [more, take_succ_cons]
      exact congrArg (_ :: ·) rest

theorem breaksDown_arrivals (o : Options) {w : World} {n k : Nat} {scripts : List ScriptItem}
    (struck : breakdownAt w 0 (n + k) = some .crash) (h : k < scripts.length) :
    breaksDown (arrivals o w n scripts) = true := by
  refine any_eq_true.mpr ⟨(scripts[k], .crashed), ?_, rfl⟩
  refine mem_map.mpr ⟨(scripts[k], n + k), ?_, by simp [outcomeOf, struck]⟩
  exact mk_add_mem_zipIdx_iff_getElem?.mpr (List.getElem?_eq_getElem h)

structure CountsAgain (o : Options) (tree : Tree) (scripts again : List ScriptItem) (t : Tally) :
    Prop where
  total : t.analyzed + t.skipped = scripts.length + again.length
  findings : ∀ resource path, t.report.findingsOf resource path =
    foundFor (resultsFor o tree again) resource path ++ foundFor (resultsFor o tree scripts) resource path
  each_once_iff : EachOnce o tree scripts t ↔ again = []

theorem countsAgain_of_breaksDown (o : Options) (tree : Tree) {scripts again : List ScriptItem}
    {xs : Results} (broken : breaksDown xs = true) (taken : takenOver xs = resultsFor o tree again) :
    CountsAgain o tree scripts again (concluded o tree scripts (some xs)) := by
  -- what was taken over stays, and then every script is counted
  have twice : concluded o tree scripts (some xs) =
      (({} : Tally).countAll (resultsFor o tree again)).next.countAll (resultsFor o tree scripts) := by
    rw [← taken]
    exact if_pos broken
  generalize concluded o tree scripts (some xs) = t at twice
  have total : t.analyzed + t.skipped = scripts.length + again.length := by
    have first := total_countAll {} (resultsFor o tree again)
    have second := total_countAll (({} : Tally).countAll (resultsFor o tree again)).next
      (resultsFor o tree scripts)
    simp only [resultsFor, length_map, Tally.next] at first second
    rw [twice]
    simp only [resultsFor, Tally.next]
    omega
  have findings : ∀ resource path, t.report.findingsOf resource path =
      foundFor (resultsFor o tree again) resource path ++
        foundFor (resultsFor o tree scripts) resource path := by
    intro resource path
    rw [twice, findingsOf_countAll]
    exact congrArg (· ++ _) (findingsOf_countAll {} _ resource path)
  refine ⟨total, findings, fun once => ?_, fun none => ?_⟩
  · have same := total.symm.trans once.2
    exact eq_nil_of_length_eq_zero (by omega)
  · subst none
    exact ⟨fun resource path => .of_eq (findings resource path), total⟩

theorem eachOnce_of_perm (o : Options) (tree : Tree) {scripts order : List ScriptItem}
    (same : order.Perm scripts) :
    EachOnce o tree scripts (({} : Tally).countAll (resultsFor o tree order)) := by
  refine ⟨fun resource path => ?_, ?_⟩
  · rw [findingsOf_countAll]
    exact (same.map _).flatMap_right _
  · rw [total_countAll]
    simpa [resultsFor] using same.length_eq

/-- Whatever the order in which results arrive, each file is reported and counted once if no worker
crashes, and if the tasks are refused. A crash after `k` results has these `k` files reported and
counted twice, so nothing is lost, but only a crash before the first result leaves each file once. -/
theorem crash_counts_again (o : Options) (scripts : List ScriptItem) (w : World) :
    (∀ order, order.Perm scripts →
      Ends (conclude o scripts (some (resultsFor o w.tree order))) w fun t _ =>
        EachOnce o w.tree scripts t) ∧
    Ends (conclude o scripts none) w (fun t _ => EachOnce o w.tree scripts t) ∧
    (∀ order k, order.Perm scripts → k < scripts.length →
      Ends (conclude o scripts (some (brokenOff o w.tree order k))) w fun t _ =>
        CountsAgain o w.tree scripts (order.take k) t) ∧
    ∀ k, k < scripts.length → w.noPools = false → w.breakdown = some ⟨.crash, 0, k⟩ →
      Ends (analyzeAll o scripts) w fun t _ => CountsAgain o w.tree scripts (scripts.take k) t := by
  refine ⟨fun order same => ?_, ?_, fun order k same h => ?_, fun k h pools planned => ?_⟩
  · obtain ⟨out, ends⟩ := conclude_ends o scripts (some (resultsFor o w.tree order)) w
    refine ends_iff.mpr ⟨_, _, ends, ?_⟩
    unfold concluded
    simp only [not_breaksDown_resultsFor]
    exact eachOnce_of_perm o w.tree same
  · obtain ⟨out, ends⟩ := conclude_ends o scripts none w
    exact ends_iff.mpr ⟨_, _, ends, eachOnce_of_perm o w.tree (.refl scripts)⟩
  · obtain ⟨out, ends⟩ := conclude_ends o scripts (some (brokenOff o w.tree order k)) w
    refine ends_iff.mpr ⟨_, _, ends, ?_⟩
    exact countsAgain_of_breaksDown o w.tree (breaksDown_brokenOff o w.tree (same.length_eq ▸ h))
      (takenOver_brokenOff o w.tree order k)
  · have struck : ∀ m, breakdownAt w 0 m = if m = 0 + k then some .crash else none := by
      intro m
      simp [breakdownAt, pools, planned, eq_comm]
    obtain ⟨arrived, out, ends, known⟩ := analyzeAll_ends o scripts w
    obtain rfl := known fun m => by
      rw [struck m]
      split <;> simp
    refine ends_iff.mpr ⟨_, _, ends, ?_⟩
    exact countsAgain_of_breaksDown o w.tree
      (breaksDown_arrivals o ((struck _).trans (if_pos rfl)) h) (takenOver_arrivals o scripts struck)

@[irreducible]
def crashingWorld : World where
  tree := { entries := [
    (["a.lua"], .file (.bytes (Text.bytesOfChars "print(1)\n".toList))),
    (["b.lua"], .file (.bytes (Text.bytesOfChars "print(2)\n".toList)))] }
  now := ⟨2020, 1, 2, 3, 4, 5⟩
  directory := "/work"
  processors := 4
  breakdown := some ⟨.crash, 0, 1⟩

def printingScripts : List ScriptItem :=
  [("(direct)", ⟨false, ["a.lua"]⟩), ("(direct)", ⟨false, ["b.lua"]⟩)]

theorem printingScripts_counted_again :
    Ends (analyzeAll {} printingScripts) crashingWorld fun t _ => t.analyzed + t.skipped = 3 := by
  have crashed := (crash_counts_again {} printingScripts crashingWorld).2.2.2 1 (by decide)
    (by decide +kernel) (by decide +kernel)
  obtain ⟨t, w, ends, again⟩ := ends_iff.mp crashed
  exact ends_iff.mpr ⟨t, w, ends, again.total⟩

theorem printingScripts_not_once : Ends (analyzeAll {} printingScripts) crashingWorld fun t _ =>
      (t.report.findingsOf "(direct)" "a.lua").length = 2 ∧
        (t.report.findingsOf "(direct)" "b.lua").length = 1 ∧
        ¬ EachOnce {} crashingWorld.tree printingScripts t := by
  have counted : Ends (analyzeAll {} printingScripts) crashingWorld fun t _ =>
      (t.report.findingsOf "(direct)" "a.lua").length = 2 ∧
        (t.report.findingsOf "(direct)" "b.lua").length = 1 ∧ t.analyzed + t.skipped = 3 := by
    decide +kernel
  obtain ⟨t, w, ends, first, second, total⟩ := ends_iff.mp counted
  refine ends_iff.mpr ⟨t, w, ends, first, second, fun once => ?_⟩
  have two : t.analyzed + t.skipped = 2 := once.2
  omega

end LuaTune.Command
