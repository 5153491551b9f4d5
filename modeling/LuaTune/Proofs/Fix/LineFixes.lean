import LuaTune.Proofs.Fix.Rows

/-!
# Fixes by the line

Debug output is commented out, uses of values that may be missing are wrapped in tests, and dead
code is removed, all by the line. What else stands on these lines is not looked at.
-/

namespace LuaTune.Fix

open Text Lua Analysis Rules List

variable {o : Options} {source : Chars} {findings : List Finding} {tree : Chunk} {f : Finding}
  {e : Edit}

def lineText (source : Chars) (n : Nat) : Chars :=
  slice source (lineOffset source n) (lineOffset source (n + 1))

/-- Fixing ends well, and each line of the script and what comes in its place are as a rule says. -/
def FixesLines (o : Options) (source : Chars) (findings : List Finding) (rule : Nat → EditedRow → Prop) : Prop :=
  ∃ fixed, fixSource o source = .ok fixed ∧ (fixedRows o source findings).flatMap EditedRow.old = source ∧
    (fixedRows o source findings).flatMap EditedRow.new = fixed.content ∧
    ∀ (n : Nat) (r : EditedRow), (fixedRows o source findings)[n]? = some r → r.old ≠ [] → rule n r

theorem rowAt_of_getElem? {n : Nat} {r : EditedRow} (h : (fixedRows o source findings)[n]? = some r) :
    n < (newlineLines source).length ∧ r = rowAt (keptEdits o source findings) source n := by
  rw [fixedRows, rows, List.getElem?_map, Option.map_eq_some_iff] at h
  obtain ⟨i, found, rfl⟩ := h
  obtain ⟨inside, same⟩ := List.getElem?_eq_some_iff.mp found
  rw [getElem_range] at same
  rw [length_range] at inside
  exact ⟨inside, same ▸ rfl⟩

theorem fixesLines_of_isLines {rule : Nat → EditedRow → Prop} (analyzed : analyzeSource {} source = .ok findings)
    (lines : ∀ e ∈ sourceEdits o source findings, e.IsLines source)
    (each : ∀ n, n < (newlineLines source).length →
      (rowAt (keptEdits o source findings) source n).old ≠ [] →
      rule n (rowAt (keptEdits o source findings) source n)) : FixesLines o source findings rule := by
  obtain ⟨fixed, made, content⟩ := fixSource_rows lines analyzed
  refine ⟨fixed, made, flatMap_old _, content.symm, fun n r hr some => ?_⟩
  obtain ⟨inside, rfl⟩ := rowAt_of_getElem? hr
  exact each n inside some

theorem fixesLines_of_single {α : Type} {changes : Nat → α → Prop} (text : α → Chars → Chars)
    {priority : Int} (analyzed : analyzeSource {} source = .ok findings)
    (single : ∀ e, e ∈ sourceEdits o source findings ↔ ∃ n x, n < (newlineLines source).length ∧ changes n x ∧
      e = editAt (lineOffset source n) (some (lineOffset source (n + 1))) (text x (lineText source n)) priority) :
    FixesLines o source findings fun n r =>
      r.new = r.old ∧ (∀ x, ¬changes n x) ∨ ∃ x, changes n x ∧ r.new = text x r.old := by
  have lines : ∀ e ∈ sourceEdits o source findings, e.IsLines source := by
    intro e he
    obtain ⟨n, x, inside, -, rfl⟩ := (single e).mp he
    exact ⟨n, n, Nat.le_refl n, inside, rfl, rfl⟩
  have settled := retain_keptEdits lines
  have kept := fun e he => mem_keptEdits (e := e) lines he
  refine fixesLines_of_isLines analyzed lines fun n inside old => ?_
  rcases rowAt_cases (fun e he => lines e (kept e he)) settled old with ⟨uncovered, same⟩ | ⟨e, he, covers, new⟩
  · refine .inl ⟨same, fun x change => ?_⟩
    have wide := lineOffset_lt_of_old_ne_nil old
    have mem := (single _).mpr ⟨n, x, inside, change, rfl⟩
    have replaces : (editAt (lineOffset source n) (some (lineOffset source (n + 1))) (text x (lineText source n))
        priority).isInsertion = false := by
      rw [Edit.isInsertion, beq_eq_false_iff_ne]
      intro same
      have : (lineOffset source (n + 1) : Int) = lineOffset source n := Option.some.inj same
      omega
    obtain ⟨r, hr, m, ⟨-, low, y, stop, high⟩, covers⟩ := exists_kept_covering lines settled mem replaces
    obtain rfl := Option.some.inj stop
    refine uncovered r hr (((lines r (kept r hr)).covers_iff ?_ ?_).mp covers)
    · exact Int.ofNat_le.mp low
    · exact Int.ofNat_lt.mp high
  · obtain ⟨m, x, -, change, rfl⟩ := (single e).mp (kept e he)
    obtain ⟨front, behind⟩ := lines_of_covers rfl rfl covers (lineOffset_lt_of_old_ne_nil old)
    obtain rfl := Nat.le_antisymm front behind
    exact .inr ⟨x, change, new.trans (if_pos rfl)⟩

/-! ## Debug output -/

def commented (line : Chars) : Chars := indentOf line ++ "-- ".toList ++ stripLeft line

def callLines (source : Chars) (f : Finding) : Nat × Nat :=
  match findingSpan? source f with
  | some (start, stop) => (lineOfOffset source start, lineOfOffset source (stop.getD source.length))
  | none => (f.line.toNat, f.line.toNat)

/-- The line is commented out for a call: it is one of its lines and no comment, none of its lines but
comments holds a word of control flow, and the line in front of them does not end inside an expression. -/
structure Hides (source : Chars) (f : Finding) (n : Nat) : Prop where
  inside : (callLines source f).1 ≤ n + 1 ∧ n + 1 ≤ (callLines source f).2
  starts : continuesLineBefore source (callLines source f).1 = false
  code : isComment (lineText source n) = false
  plain : ∀ k < (newlineLines source).length, (callLines source f).1 ≤ k + 1 → k + 1 ≤ (callLines source f).2 →
    isComment (lineText source k) = false → hasControlWord (lineText source k) = false

theorem mem_lineSpans {first last : Nat} {span : Nat × Nat} :
    span ∈ (List.range' first (last + 1 - first)).filterMap (fun (n : Nat) => lineSpan source n) ↔
      ∃ n < (newlineLines source).length, first ≤ n + 1 ∧ n + 1 ≤ last ∧
        span = (lineOffset source n, lineOffset source (n + 1)) := by
  rw [mem_filterMap]
  constructor
  · rintro ⟨k, hk, found⟩
    obtain ⟨n, inside, number, rfl⟩ := lineSpan_cases found
    obtain ⟨low, high⟩ := mem_range'_1.mp hk
    exact ⟨n, inside, by omega, by omega, rfl⟩
  · rintro ⟨n, inside, low, high, rfl⟩
    exact ⟨n + 1, mem_range'_1.mpr ⟨low, by omega⟩, lineSpan_eq inside⟩

theorem debugEdits_eq (source : Chars) (f : Finding) :
    debugEdits source f = commentLines source (callLines source f).1 (callLines source f).2 := by
  unfold debugEdits callLines
  cases findingSpan? source f with
  | some span => rfl
  | none =>
    dsimp only
    cases found : lineSpan source f.line with
    | some span => rfl
    | none =>
      have spans : (List.range' f.line.toNat (f.line.toNat + 1 - f.line.toNat)).filterMap
          (fun (n : Nat) => lineSpan source n) = [] := by
        refine eq_nil_iff_forall_not_mem.mpr fun span mem => ?_
        obtain ⟨n, inside, low, high, -⟩ := mem_lineSpans.mp mem
        have line : f.line = (n + 1 : Nat) := by omega
        rw [line, lineSpan_eq inside] at found
        cases found
      rw [commentLines, spans]
      exact (ite_self []).symm

theorem mem_debugEdits : e ∈ debugEdits source f ↔
    ∃ n < (newlineLines source).length, Hides source f n ∧
      e = editAt (lineOffset source n) (some (lineOffset source (n + 1))) (commented (lineText source n)) 200 := by
  rw [debugEdits_eq, commentLines]
  by_cases continues : continuesLineBefore source (callLines source f).1
  · rw [if_pos continues]
    refine ⟨fun none => (not_mem_nil none).elim, fun ⟨n, _, hides, _⟩ => ?_⟩
    exact absurd (continues.symm.trans hides.starts) nofun
  · rw [if_neg continues]
    dsimp only
    split
    · next control =>
      obtain ⟨span, hs, word⟩ := any_eq_true.mp control
      obtain ⟨hs, code⟩ := mem_filter.mp hs
      obtain ⟨k, inside, low, high, rfl⟩ := mem_lineSpans.mp hs
      refine ⟨fun none => (not_mem_nil none).elim, fun ⟨n, _, hides, _⟩ => ?_⟩
      have := hides.plain k inside low high (by simpa [lineText] using code)
      exact absurd (word.symm.trans this) nofun
    · next plain =>
      rw [mem_map]
      constructor
      · rintro ⟨span, hs, rfl⟩
        obtain ⟨hs, code⟩ := mem_filter.mp hs
        obtain ⟨n, inside, low, high, rfl⟩ := mem_lineSpans.mp hs
        refine ⟨n, inside, ⟨⟨low, high⟩, by simpa using continues, by simpa [lineText] using code, ?_⟩, rfl⟩
        intro k inside low high code
        rw [Bool.eq_false_iff]
        intro word
        refine plain (any_eq_true.mpr
          ⟨(lineOffset source k, lineOffset source (k + 1)), mem_filter.mpr ⟨?_, ?_⟩, word⟩)
        · exact mem_lineSpans.mpr ⟨k, inside, low, high, rfl⟩
        · exact (congrArg not code).trans rfl
      · rintro ⟨n, inside, hides, rfl⟩
        refine ⟨_, mem_filter.mpr ⟨mem_lineSpans.mpr ⟨n, inside, hides.inside.1, hides.inside.2, rfl⟩, ?_⟩, rfl⟩
        exact (congrArg not hides.code).trans rfl

structure IsDebugFinding (tree : Chunk) (f : Finding) : Prop where
  pattern : f.pattern = "debug_statement"
  call : ∃ c : Call, c.IsTrue ∧ Node.expr c.node ∈ tree.walk ∧ Vocabulary.debugFunctions.contains c.func ∧
    f.details.node? "node" = some (.expr c.node)

theorem debug_of_severity {t : Tracker} {k : RuleKind}
    (visited : visitChunk tree (lines source) = .ok t) (made : f.MadeOf ⟨source, tree, t⟩ {} k)
    (debug : f.severity = .debug) : IsDebugFinding tree f ∨ f.IsAdvice := by
  have other {s : Severity} (h : f.severity = s) (ne : s ≠ .debug) : IsDebugFinding tree f ∨ f.IsAdvice :=
    absurd (h.symm.trans debug) ne
  cases made with
  | form c hc rule =>
    obtain ⟨p, hp, about⟩ := rule.exists_isAbout
    exact other about.severity nofun
  | globals found =>
    obtain ⟨_, _, _, _, summary⟩ := of_mem_uncachedFindings found
    exact other summary.severity nofun
  | repeated found =>
    obtain ⟨_, _, _, -, -, -, -, -, -, yellow | green⟩ := mem_repeatedFindings found
    · exact other yellow nofun
    · exact other green nofun
  | lengths notes none => exact .inr (.inr ⟨notes.pattern, none⟩)
  | concat found => exact other (concatFindings_notes _ f found).2 nofun
  | debug c hc found =>
    obtain ⟨notes, named, node⟩ := of_debugFinding? found
    exact .inl ⟨notes.pattern, c, calls_isTrue visited c hc, node_mem_walk visited c hc, named, node⟩
  | nilAccess u hu found => exact other (s := .yellow) (by rw [found]; rfl) nofun
  | dead d hd found => exact other (s := .green) (by rw [found]; rfl) nofun
  | advice p hp notes => exact .inr (.inl (notes.pattern ▸ hp))

def debugOnly : Options := { fixDebug := true }

theorem mem_fixable_debugOnly (noGreen : ∀ f ∈ findings, f.severity ≠ .green) :
    f ∈ fixable debugOnly findings ↔ f ∈ findings ∧ f.severity = .debug := by
  have plain : fixable debugOnly findings = findings.filter fun f => [.green, .debug].contains f.severity := by
    simp [fixable, debugOnly, Options.severities]
  rw [plain, mem_filter, contains_iff_mem, mem_cons, mem_singleton]
  exact and_congr_right fun mem => or_iff_right (noGreen f mem)

theorem mem_findingEdits_debug {t : Tracker} {k : RuleKind}
    (visited : visitChunk tree (lines source) = .ok t) (made : f.MadeOf ⟨source, tree, t⟩ {} k)
    (debug : f.severity = .debug) :
    e ∈ findingEdits debugOnly source f ↔ IsDebugFinding tree f ∧ e ∈ debugEdits source f := by
  rcases debug_of_severity visited made debug with call | advice
  · simp only [findingEdits, call.pattern]
    exact (and_iff_right call).symm
  · rw [findingEdits_of_isAdvice debugOnly advice]
    refine ⟨fun none => (not_mem_nil none).elim, ?_⟩
    rintro ⟨call, -⟩
    rcases advice with advice | ⟨advice, -⟩
    · exact absurd (call.pattern ▸ advice) (by simp [advisoryPatterns])
    · exact absurd (call.pattern.symm.trans advice) (by decide)

/-- Where debug calls are the only findings to fix, exactly the lines that they hide are commented out,
whatever else stands on these lines. -/
theorem debug_lines_commented (parsed : Chunk.parse? source = some tree)
    (analyzed : analyzeSource {} source = .ok findings) (noGreen : ∀ f ∈ findings, f.severity ≠ .green) :
    FixesLines debugOnly source findings fun n r =>
      r.new = r.old ∧ (∀ f ∈ findings, f.severity = .debug → IsDebugFinding tree f → ¬Hides source f n) ∨
        ∃ f ∈ findings, f.severity = .debug ∧ IsDebugFinding tree f ∧ Hides source f n ∧
          r.new = commented r.old := by
  have single (e : Edit) : e ∈ sourceEdits debugOnly source findings ↔ ∃ n f, n < (newlineLines source).length ∧
      (f ∈ findings ∧ f.severity = .debug ∧ IsDebugFinding tree f ∧ Hides source f n) ∧
      e = editAt (lineOffset source n) (some (lineOffset source (n + 1))) (commented (lineText source n)) 200 := by
    rw [sourceEdits, mem_flatMap]
    simp only [mem_fixable_debugOnly noGreen]
    obtain ⟨t, visited, rfl⟩ := exists_visit parsed analyzed
    constructor
    · rintro ⟨f, ⟨mem, debug⟩, he⟩
      obtain ⟨call, he⟩ := (mem_findingEdits_debug visited (Finding.madeOf f mem) debug).mp he
      obtain ⟨n, inside, hides, rfl⟩ := mem_debugEdits.mp he
      exact ⟨n, f, inside, ⟨mem, debug, call, hides⟩, rfl⟩
    · rintro ⟨n, f, inside, ⟨mem, debug, call, hides⟩, rfl⟩
      refine ⟨f, ⟨mem, debug⟩, (mem_findingEdits_debug visited (Finding.madeOf f mem) debug).mpr ⟨call, ?_⟩⟩
      exact mem_debugEdits.mpr ⟨n, inside, hides, rfl⟩
  obtain ⟨fixed, made, olds, news, rule⟩ := fixesLines_of_single (fun _ => commented) analyzed single
  refine ⟨fixed, made, olds, news, fun n r hr some => (rule n r hr some).imp ?_ ?_⟩
  · exact fun ⟨same, free⟩ => ⟨same, fun f mem debug call hides => free f ⟨mem, debug, call, hides⟩⟩
  · exact fun ⟨f, ⟨mem, debug, call, hides⟩, new⟩ => ⟨f, mem, debug, call, hides, new⟩

def loggedBranch : Chars :=
  "if a then\n  print(a,\n    -- note\n    b)\n  x = a\nend\nobj:log(\"done\")\n".toList

theorem loggedBranch_commented : ∃ tree findings, Chunk.parse? loggedBranch = some tree ∧
    analyzeSource {} loggedBranch = .ok findings ∧ (∀ f ∈ findings, f.severity ≠ .green) ∧
    (fixedRows debugOnly loggedBranch findings)[3]? = some ⟨"    b)\n".toList, "    -- b)\n".toList⟩ ∧
    ∃ f ∈ findings, IsDebugFinding tree f ∧ Hides loggedBranch f 3 := by
  have checked : fixPasses debugOnly loggedBranch fun _ findings _ =>
      findings.all (fun f => f.severity != .green) &&
        decide ((fixedRows debugOnly loggedBranch findings)[3]? =
          some ⟨"    b)\n".toList, "    -- b)\n".toList⟩) := by
    decide +kernel
  obtain ⟨tree, findings, -, parsed, analyzed, -, passed⟩ := of_fixPasses checked
  simp only [Bool.and_eq_true, all_eq_true, bne_iff_ne, decide_eq_true_eq] at passed
  obtain ⟨noGreen, row⟩ := passed
  obtain ⟨-, -, -, -, rule⟩ := debug_lines_commented parsed analyzed noGreen
  rcases rule 3 _ row (by decide) with ⟨same, -⟩ | ⟨f, hf, -, call, hides, -⟩
  · exact absurd same (by decide)
  · exact ⟨tree, findings, parsed, analyzed, noGreen, row, f, hf, call, hides⟩

def assignedThenPrinted : Chars := "x = 1 print(2)\n".toList

def isAssignment : Stat → Bool
  | .assign .. => true
  | _ => false

/-- The line is commented out whole, and the assignment is lost with it. -/
theorem assignedThenPrinted_lost : ∃ tree findings fixed, Chunk.parse? assignedThenPrinted = some tree ∧
    tree.any isAssignment ∧ analyzeSource {} assignedThenPrinted = .ok findings ∧
    (∀ f ∈ findings, f.severity ≠ .green) ∧ fixSource debugOnly assignedThenPrinted = .ok fixed ∧
    fixed.modified ∧ fixed.content = "-- x = 1 print(2)\n".toList ∧ Chunk.parse? fixed.content = some [] := by
  have checked : fixPasses debugOnly assignedThenPrinted fun tree findings fixed =>
      tree.any isAssignment && findings.all (fun f => f.severity != .green) && fixed.modified &&
        fixed.content == "-- x = 1 print(2)\n".toList := by
    decide +kernel
  have none : Chunk.parse? "-- x = 1 print(2)\n".toList = some [] := rfl
  obtain ⟨tree, findings, fixed, parsed, analyzed, made, passed⟩ := of_fixPasses checked
  simp only [Bool.and_eq_true, all_eq_true, bne_iff_ne, beq_iff_eq] at passed
  obtain ⟨⟨⟨assigns, noGreen⟩, modified⟩, content⟩ := passed
  exact ⟨tree, findings, fixed, parsed, assigns, analyzed, noGreen, made, modified, content, content ▸ none⟩

/-! ## Tests of values that may be missing -/

def guardsOnly : Options := { fixNil := true }

/-- The line is wrapped in a test of a variable for a finding: the finding is on that line and safe to
fix, the line looks like a whole statement, and the next one does not go on with the variable. -/
structure Guards (source : Chars) (f : Finding) (n : Nat) (v : Chars) : Prop where
  safe : f.details.holds "is_safe_to_fix"
  tested : nonEmpty? f "var_name" = some v
  assigned : ∃ a, f.details.int? "assign_line" = some a ∧ a ≠ 0
  line : f.line = (n + 1 : Nat)
  whole : looksWhole (strip (lineText source n))
  alone : startsWithCallOn v source (f.line + 1) = false

theorem mem_nilGuardEdits : e ∈ nilGuardEdits source f ↔
    ∃ n v, n < (newlineLines source).length ∧ Guards source f n v ∧
      e = editAt (lineOffset source n) (some (lineOffset source (n + 1))) (wrapped v (lineText source n)) 50 := by
  unfold nilGuardEdits
  rw [Option.mem_toList]
  constructor
  · intro made
    simp only [Option.bind_eq_bind, Option.ite_none_left_eq_some, Option.bind_eq_some_iff, Option.bind_none,
      Bool.not_eq_true', Bool.not_eq_false, Bool.or_eq_true, not_or, Bool.not_eq_true, beq_iff_eq] at made
    obtain ⟨safe, v, tested, a, assigned, nonzero, span, found, ⟨whole, alone⟩, made⟩ := made
    obtain ⟨n, inside, line, rfl⟩ := lineSpan_cases found
    exact ⟨n, v, inside, ⟨safe, tested, ⟨a, assigned, nonzero⟩, line, whole, alone⟩, (Option.some.inj made).symm⟩
  · rintro ⟨n, v, inside, guards, rfl⟩
    obtain ⟨a, assigned, nonzero⟩ := guards.assigned
    have span : lineSpan source f.line = some (lineOffset source n, lineOffset source (n + 1)) := by
      rw [guards.line, lineSpan_eq inside]
      rfl
    have whole := guards.whole
    rw [lineText] at whole ⊢
    simp [guards.safe, guards.tested, assigned, nonzero, span, guards.alone, whole]

/-- Where uses of values that may be missing are the only findings to fix, exactly the lines that they
guard are wrapped in a test, whatever else stands on these lines. -/
theorem guarded_lines_wrapped (analyzed : analyzeSource {} source = .ok findings)
    (only : ∀ f ∈ fixable guardsOnly findings, f.pattern = "potential_nil_access") :
    FixesLines guardsOnly source findings fun n r =>
      r.new = r.old ∧ (∀ f ∈ fixable guardsOnly findings, ∀ v, ¬Guards source f n v) ∨
        ∃ f ∈ fixable guardsOnly findings, ∃ v, Guards source f n v ∧ r.new = wrapped v r.old := by
  have single (e : Edit) : e ∈ sourceEdits guardsOnly source findings ↔ ∃ n v, n < (newlineLines source).length ∧
      (∃ f ∈ fixable guardsOnly findings, Guards source f n v) ∧
      e = editAt (lineOffset source n) (some (lineOffset source (n + 1))) (wrapped v (lineText source n)) 50 := by
    have edits {f : Finding} (hf : f ∈ fixable guardsOnly findings) :
        findingEdits guardsOnly source f = nilGuardEdits source f := by
      simp only [findingEdits, only f hf]
      rfl
    rw [sourceEdits, mem_flatMap]
    constructor
    · rintro ⟨f, hf, he⟩
      rw [edits hf] at he
      obtain ⟨n, v, inside, guards, rfl⟩ := mem_nilGuardEdits.mp he
      exact ⟨n, v, inside, ⟨f, hf, guards⟩, rfl⟩
    · rintro ⟨n, v, inside, ⟨f, hf, guards⟩, rfl⟩
      refine ⟨f, hf, ?_⟩
      rw [edits hf]
      exact mem_nilGuardEdits.mpr ⟨n, v, inside, guards, rfl⟩
  obtain ⟨fixed, made, olds, news, rule⟩ := fixesLines_of_single wrapped analyzed single
  refine ⟨fixed, made, olds, news, fun n r hr some => (rule n r hr some).imp ?_ ?_⟩
  · rintro ⟨same, free⟩
    exact ⟨same, fun f hf v guards => free v ⟨f, hf, guards⟩⟩
  · rintro ⟨v, ⟨f, hf, guards⟩, new⟩
    exact ⟨f, hf, v, guards, new⟩

def usedPed : Chars :=
  "if c then\n    local ped = GetPlayerPed(1)\n    ped:foo() return ped:bar() -- both\nelse\n    y()\nend\n".toList

theorem usedPed_wrapped : ∃ tree findings, Chunk.parse? usedPed = some tree ∧
    analyzeSource {} usedPed = .ok findings ∧
    (∀ f ∈ fixable guardsOnly findings, f.pattern = "potential_nil_access") ∧
    (fixedRows guardsOnly usedPed findings)[2]? = some ⟨"    ped:foo() return ped:bar() -- both\n".toList,
      "    if ped then\n        ped:foo() return ped:bar() -- both\n    end\n".toList⟩ ∧
    ∃ f ∈ fixable guardsOnly findings, ∃ v, Guards usedPed f 2 v := by
  have checked : fixPasses guardsOnly usedPed fun _ findings _ =>
      (fixable guardsOnly findings).all (fun f => f.pattern == "potential_nil_access") &&
        decide ((fixedRows guardsOnly usedPed findings)[2]? =
          some ⟨"    ped:foo() return ped:bar() -- both\n".toList,
            "    if ped then\n        ped:foo() return ped:bar() -- both\n    end\n".toList⟩) := by
    decide +kernel
  obtain ⟨tree, findings, -, parsed, analyzed, -, passed⟩ := of_fixPasses checked
  simp only [Bool.and_eq_true, all_eq_true, beq_iff_eq, decide_eq_true_eq] at passed
  obtain ⟨only, row⟩ := passed
  obtain ⟨-, -, -, -, rule⟩ := guarded_lines_wrapped analyzed only
  rcases rule 2 _ row (by decide) with ⟨same, -⟩ | ⟨f, hf, v, guards, -⟩
  · exact absurd same (by decide)
  · exact ⟨tree, findings, parsed, analyzed, only, row, f, hf, v, guards⟩

def isElse : Chunk → Bool
  | [.ifThen _ _ (.block _)] => true
  | _ => false

def isLongIf : Chunk → Bool
  | [.ifThen _ (_ :: _ :: _) .none] => true
  | _ => false

def usedBeforeElse : Chars :=
  "if c then\n    local obj = GetPlayerPed(1)\n    obj:foo() else\n    y()\nend\n".toList

/-- The `else` becomes one of the test, and what followed it is no longer under it. -/
theorem usedBeforeElse_captured : ∃ tree findings fixed tree', Chunk.parse? usedBeforeElse = some tree ∧
    isElse tree ∧ analyzeSource {} usedBeforeElse = .ok findings ∧
    (∀ f ∈ fixable guardsOnly findings, f.pattern = "potential_nil_access") ∧
    fixSource guardsOnly usedBeforeElse = .ok fixed ∧ fixed.modified ∧
    fixed.content = ("if c then\n    local obj = GetPlayerPed(1)\n    if obj then\n        obj:foo() else\n" ++
      "    end\n    y()\nend\n").toList ∧
    Chunk.parse? fixed.content = some tree' ∧ isLongIf tree' := by
  have checked : fixPasses guardsOnly usedBeforeElse fun tree findings fixed =>
      (fixable guardsOnly findings).all (fun f => f.pattern == "potential_nil_access") && fixed.modified &&
        fixed.content == ("if c then\n    local obj = GetPlayerPed(1)\n    if obj then\n" ++
          "        obj:foo() else\n    end\n    y()\nend\n").toList &&
        isElse tree && (Chunk.parse? fixed.content).any isLongIf := by
    decide +kernel
  obtain ⟨tree, findings, fixed, parsed, analyzed, made, passed⟩ := of_fixPasses checked
  simp only [Bool.and_eq_true, all_eq_true, beq_iff_eq, Option.any_eq_true] at passed
  obtain ⟨⟨⟨⟨only, modified⟩, content⟩, hasElse⟩, tree', parsed', long⟩ := passed
  exact ⟨tree, findings, fixed, tree', parsed, hasElse, analyzed, only, made, modified, content, parsed', long⟩

/-! ## Dead code -/

def removesOnly : Options := { removeDeadCode := true }

theorem mem_deadCodeEdits {d : DeadCode} {lines : List Chars} :
    e ∈ deadCodeEdits source (d.finding lines) ↔ ∃ m k, m < (newlineLines source).length ∧
      k < (newlineLines source).length ∧ d.startLine = m + 1 ∧ d.endLine = k + 1 ∧
      e = editAt (lineOffset source m) (some (lineOffset source (k + 1))) [] 10 := by
  have kinds : ["after_return", "after_break", "if_false", "while_false"].contains d.kind.name := by
    cases d.kind <;> decide
  have details : (d.finding lines).details.holds "is_safe_to_remove" ∧
      (d.finding lines).details.int? "start_line" = some (d.startLine : Int) ∧
      (d.finding lines).details.int? "end_line" = some (d.endLine : Int) ∧
      (d.finding lines).details.text? "dead_type" = some d.kind.name := ⟨rfl, rfl, rfl, rfl⟩
  obtain ⟨safe, first, last, kind⟩ := details
  unfold deadCodeEdits
  rw [Option.mem_toList]
  simp only [safe, first, last, kind, kinds, Option.bind_eq_bind, Option.bind_some, Option.bind_eq_some_iff,
    Bool.not_true, Bool.false_eq_true, if_false, if_true]
  constructor
  · rintro ⟨span, found, span', found', made⟩
    obtain ⟨m, inside, hm, rfl⟩ := lineSpan_cases found
    obtain ⟨k, inside', hk, rfl⟩ := lineSpan_cases found'
    exact ⟨m, k, inside, inside', by omega, by omega, (Option.some.inj made).symm⟩
  · rintro ⟨m, k, inside, inside', hm, hk, rfl⟩
    rw [hm, hk]
    exact ⟨_, lineSpan_eq inside, _, lineSpan_eq inside', rfl⟩

def HasLine (d : DeadCode) (n : Nat) : Prop := d.startLine ≤ n ∧ n ≤ d.endLine

section

variable (parsed : Chunk.parse? source = some tree) (analyzed : analyzeSource {} source = .ok findings)
  (only : ∀ f ∈ fixable removesOnly findings, startsWith f.pattern.toList "dead_code_".toList)

include parsed analyzed only

theorem mem_edits_dead : e ∈ sourceEdits removesOnly source findings ↔
    ∃ d ∈ deadCode tree, ∃ m k, m < (newlineLines source).length ∧ k < (newlineLines source).length ∧
      d.startLine = m + 1 ∧ d.endLine = k + 1 ∧
      e = editAt (lineOffset source m) (some (lineOffset source (k + 1))) [] 10 := by
  obtain ⟨t, visited, found⟩ := exists_visit parsed analyzed
  rw [sourceEdits, mem_flatMap]
  constructor
  · rintro ⟨f, hf, he⟩
    obtain ⟨d, hd, rfl⟩ := Finding.exists_dead (found ▸ mem_of_mem_fixable hf) (only f hf)
    rw [findingEdits_of_dead removesOnly (only _ hf)] at he
    exact ⟨d, hd, mem_deadCodeEdits.mp he⟩
  · rintro ⟨d, hd, edit⟩
    have mem : d.finding t.lines ∈ findings := by
      have dead : d.finding t.lines ∈ (deadCode tree).map (DeadCode.finding t.lines) := mem_map_of_mem hd
      rw [← found]
      unfold Analyzed.findings
      simp only [mem_append, dead, true_or, or_true]
    have hf : d.finding t.lines ∈ fixable removesOnly findings :=
      mem_append_left _ (mem_append_left _ (mem_filter.mpr ⟨mem, rfl⟩))
    refine ⟨_, hf, ?_⟩
    rw [findingEdits_of_dead removesOnly (only _ hf)]
    exact mem_deadCodeEdits.mpr edit

theorem deadEdits_isLines : ∀ e ∈ sourceEdits removesOnly source findings, e.IsLines source := by
  intro e he
  obtain ⟨d, hd, m, k, -, inside, first, last, rfl⟩ := (mem_edits_dead parsed analyzed only).mp he
  have order := startLine_le_endLine parsed d hd
  exact ⟨m, k, by omega, inside, rfl, rfl⟩

/-- Where dead code is the only thing to fix, a line stays or is removed, and it is removed only if it is
one of the lines of what follows a jump in its block; conditionals and loops whose test never holds stay.
Of each such piece all lines are removed, or all of another one that has a line in common with it. -/
theorem dead_lines_removed : FixesLines removesOnly source findings (fun n r => r.new = r.old ∨
      r.new = [] ∧ ∃ d ∈ deadCode tree, d.IsTailIn tree.walk ∧ HasLine d (n + 1)) ∧
    ∀ d ∈ deadCode tree, 0 < d.startLine → d.endLine ≤ (newlineLines source).length →
      ∃ d' ∈ deadCode tree, (∃ n, HasLine d n ∧ HasLine d' n) ∧
        ∀ (n : Nat) (r : EditedRow), (fixedRows removesOnly source findings)[n]? = some r → r.old ≠ [] →
          HasLine d' (n + 1) → r.new = [] := by
  have lines := deadEdits_isLines parsed analyzed only
  have settled := retain_keptEdits lines
  have kept := fun e he => mem_keptEdits (e := e) lines he
  have edits {e : Edit} := mem_edits_dead parsed analyzed only (e := e)
  constructor
  · refine fixesLines_of_isLines analyzed lines fun n inside old => ?_
    refine (rowAt_cases (fun e he => lines e (kept e he)) settled old).imp And.right ?_
    rintro ⟨e, he, covers, new⟩
    obtain ⟨d, hd, m, k, -, -, first, last, rfl⟩ := edits.mp (kept e he)
    obtain ⟨front, behind⟩ := lines_of_covers rfl rfl covers (lineOffset_lt_of_old_ne_nil old)
    have tail : d.IsTailIn tree.walk := (deadCode_cases d hd).resolve_right fun none => by omega
    exact ⟨new.trans (ite_self []), d, hd, tail, by omega, by omega⟩
  · intro d hd known inside
    have order := startLine_le_endLine parsed d hd
    obtain ⟨m, first⟩ : ∃ m, d.startLine = m + 1 := Nat.exists_eq_succ_of_ne_zero (by omega)
    obtain ⟨k, last⟩ : ∃ k, d.endLine = k + 1 := Nat.exists_eq_succ_of_ne_zero (by omega)
    have mem := edits.mpr ⟨d, hd, m, k, by omega, by omega, first, last, rfl⟩
    cases insertion : (editAt (lineOffset source m) (some (lineOffset source (k + 1))) [] 10).isInsertion with
    | true =>
      -- then the only line of the piece is the empty one at the end
      refine ⟨d, hd, ⟨m + 1, ⟨by omega, by omega⟩, by omega, by omega⟩, fun n r hr old has => ?_⟩
      obtain ⟨-, rfl⟩ := rowAt_of_getElem? hr
      have wide := lineOffset_lt_of_old_ne_nil old
      have same : (lineOffset source (k + 1) : Int) = lineOffset source m :=
        Option.some.inj (Edit.stop_of_isInsertion insertion)
      have := lineOffset_mono source (m := m) (n := n) (by have := has.1; omega)
      have := lineOffset_mono source (m := n + 1) (n := k + 1) (by have := has.2; omega)
      omega
    | false =>
      obtain ⟨e, he, n, covers, covers'⟩ := exists_kept_covering lines settled mem insertion
      have whole := lines e (kept e he)
      obtain ⟨d', hd', m', k', -, -, first', last', rfl⟩ := edits.mp (kept e he)
      have wide := whole.wide covers'
      obtain ⟨front, behind⟩ := lines_of_covers rfl rfl covers wide
      obtain ⟨front', behind'⟩ := lines_of_covers rfl rfl covers' wide
      refine ⟨d', hd', ⟨n + 1, ⟨by omega, by omega⟩, by omega, by omega⟩, fun n' r hr old has => ?_⟩
      obtain ⟨-, rfl⟩ := rowAt_of_getElem? hr
      have wide := lineOffset_lt_of_old_ne_nil old
      have low := lineOffset_mono source (m := m') (n := n') (by have := has.1; omega)
      have high := lineOffset_mono source (m := n' + 1) (n := k' + 1) (by have := has.2; omega)
      have covered : Edit.Covers _ (lineOffset source n') :=
        ⟨covers'.1, Int.ofNat_le.mpr low, _, rfl, Int.ofNat_lt.mpr (by omega)⟩
      exact (new_of_covered (fun e he => lines e (kept e he)) settled he covered wide).trans (ite_self [])

end

def brokenLoop : Chars :=
  "while a do\n  if b then\n    f() break;\n    u() v()\n  end\n  break\n  z()\n  if c then w() end\nend\n".toList

theorem brokenLoop_removed : ∃ tree findings, Chunk.parse? brokenLoop = some tree ∧
    analyzeSource {} brokenLoop = .ok findings ∧
    (∀ f ∈ fixable removesOnly findings, startsWith f.pattern.toList "dead_code_".toList) ∧
    (fixedRows removesOnly brokenLoop findings)[6]? = some ⟨"  z()\n".toList, []⟩ ∧
    ∃ d ∈ deadCode tree, d.IsTailIn tree.walk ∧ HasLine d 7 := by
  have checked : fixPasses removesOnly brokenLoop fun _ findings _ =>
      (fixable removesOnly findings).all (fun f => startsWith f.pattern.toList "dead_code_".toList) &&
        decide ((fixedRows removesOnly brokenLoop findings)[6]? = some ⟨"  z()\n".toList, []⟩) := by
    decide +kernel
  obtain ⟨tree, findings, -, parsed, analyzed, -, passed⟩ := of_fixPasses checked
  simp only [Bool.and_eq_true, all_eq_true, decide_eq_true_eq] at passed
  obtain ⟨only, row⟩ := passed
  obtain ⟨⟨-, -, -, -, rule⟩, -⟩ := dead_lines_removed parsed analyzed only
  rcases rule 6 _ row (by decide) with same | ⟨-, d, hd, tail, has⟩
  · exact absurd same (by decide)
  · exact ⟨tree, findings, parsed, analyzed, only, row, d, hd, tail, has⟩

def deadBeforeEnd : Chars := "while a do\n  break\n  x() end\ny()\n".toList

/-- The `end` of the loop is removed with the dead code, and what is left cannot be read. -/
theorem deadBeforeEnd_broken : ∃ tree findings fixed,
    Chunk.parse? deadBeforeEnd = some tree ∧ analyzeSource {} deadBeforeEnd = .ok findings ∧
    (∀ f ∈ fixable removesOnly findings, startsWith f.pattern.toList "dead_code_".toList) ∧
    fixSource removesOnly deadBeforeEnd = .ok fixed ∧ fixed.modified ∧
    fixed.content = "while a do\n  break\ny()\n".toList ∧ Chunk.parse? fixed.content = none := by
  have checked : fixPasses removesOnly deadBeforeEnd fun _ findings fixed =>
      (fixable removesOnly findings).all (fun f => startsWith f.pattern.toList "dead_code_".toList) &&
        fixed.modified && fixed.content == "while a do\n  break\ny()\n".toList &&
        (Chunk.parse? fixed.content).isNone := by
    decide +kernel
  obtain ⟨tree, findings, fixed, parsed, analyzed, made, passed⟩ := of_fixPasses checked
  simp only [Bool.and_eq_true, all_eq_true, beq_iff_eq, Option.isNone_iff_eq_none] at passed
  obtain ⟨⟨⟨only, modified⟩, content⟩, unread⟩ := passed
  exact ⟨tree, findings, fixed, parsed, analyzed, only, made, modified, content, unread⟩

end LuaTune.Fix
