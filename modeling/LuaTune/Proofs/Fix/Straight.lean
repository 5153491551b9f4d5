import LuaTune.Proofs.Fix.Pieces
import LuaTune.Proofs.Lua.Scan

/-!
# Scripts without functions, loops and declarations

Of such a script only calls, assignments and writes are recorded, all outside of functions.
-/

namespace LuaTune.Fix

open Lua Analysis List

def tracked (lines : List Chars) (calls : List Call) (assigns : List Assignment)
    (writes : List (String × Nat)) : Tracker :=
  { Tracker.start lines with calls := calls, assigns := assigns, globalWrites := writes }

/-- From every such state on the visit records these calls, and besides them only assignments and writes. -/
def MakesCalls (visit : Tracker → Step) (made : List Call) : Prop :=
  ∀ lines calls assigns writes, ∃ assigns' writes',
    visit (tracked lines calls assigns writes) = .ok (tracked lines (calls ++ made) assigns' writes')

theorem makesCalls_nil : MakesCalls (visitStats []) [] := fun _ calls assigns writes =>
  ⟨assigns, writes, by rw [append_nil]; rfl⟩

theorem MakesCalls.cons {s : Stat} {ss : List Stat} {made made' : List Call}
    (first : MakesCalls (visitStat s) made) (others : MakesCalls (visitStats ss) made') :
    MakesCalls (visitStats (s :: ss)) (made ++ made') := by
  intro lines calls assigns writes
  obtain ⟨assigns₁, writes₁, visit⟩ := first lines calls assigns writes
  obtain ⟨assigns₂, writes₂, visit'⟩ := others lines (calls ++ made) assigns₁ writes₁
  refine ⟨assigns₂, writes₂, ?_⟩
  rw [visitStats, visit, ← append_assoc]
  exact visit'

/-- A node that is not dead, declares nothing, and whose text can be written. -/
def IsPlain (n : Node) : Prop := (∀ k, Rules.falseTest? k n = none) ∧ Rules.declarationsOf n = [] ∧
    arePrintable (Rules.calledParts n)

theorem isPlain_name (t : Token) : IsPlain (.expr (nameAt t)) := ⟨fun _ => rfl, rfl, rfl⟩

structure Straight (ss : List Stat) : Prop where
  plain : ∀ n ∈ walkStats ss, IsPlain n
  alive (k : Rules.DeadKind) (name : String) : Rules.deadInStats k name false ss = []

theorem straight_nil : Straight [] where
  plain := by simp [walkStats]
  alive _ _ := rfl

theorem Straight.cons {s : Stat} {ss : List Stat} (h : Straight ss) (plain : ∀ n ∈ s.walk, IsPlain n)
    (alive : ∀ k name, Rules.isJump k false s = false ∧ Rules.deadInStat k name false s = []) :
    Straight (s :: ss) where
  plain := by
    rw [walkStats]
    exact forall_mem_append.mpr ⟨plain, h.plain⟩
  alive k name := by
    obtain ⟨goesOn, inside⟩ := alive k name
    rw [Rules.deadInStats, goesOn, inside, h.alive]
    rfl

def visited (source : Chars) (chunk : Chunk) (calls : List Call) (assigns : List Assignment)
    (writes : List (String × Nat)) : Analyzed :=
  ⟨source, chunk, tracked (Text.lines source) calls assigns writes⟩

theorem uncachedFindings_eq_nil (settings : Settings) {scopes : List Scope} (calls : List Call)
    (h : ∀ s ∈ scopes, s.kind = .global) : Rules.uncachedFindings settings scopes calls = [] := by
  refine filterMap_eq_nil_iff.mpr fun g _ => ?_
  cases known : scopes[g.1]? with
  | none => rfl
  | some s => simp [Rules.uncachedFinding?, h s (mem_of_getElem? known)]

theorem arePrintable_iff {es : List Expr} : arePrintable es ↔ ∀ e ∈ es, e.isPrintable := by
  induction es with
  | nil => simp [arePrintable]
  | cons e es ih => simp [arePrintable, ih]

namespace Straight

variable {chunk : List Stat} (h : Straight chunk)

include h

theorem isPlain_of_mem_walk : ∀ n ∈ Chunk.walk chunk, IsPlain n := by
  simp only [Chunk.walk, forall_mem_cons]
  exact ⟨⟨fun _ => rfl, rfl, rfl⟩, ⟨fun _ => rfl, rfl, rfl⟩, h.plain⟩

theorem deadCode_eq_nil : Rules.deadCode chunk = [] := by
  have tests (k : Rules.DeadKind) : (Chunk.walk chunk).filterMap (Rules.falseTest? k) = [] :=
    filterMap_eq_nil_iff.mpr fun n hn => (h.isPlain_of_mem_walk n hn).1 k
  simp [Rules.deadCode, h.alive, tests]

theorem declarations_eq_nil : (Chunk.walk chunk).flatMap Rules.declarationsOf = [] :=
  flatMap_eq_nil_iff.mpr fun n hn => (h.isPlain_of_mem_walk n hn).2.1

theorem findings_eq (source : Chars) (calls : List Call) (assigns : List Assignment)
    (writes : List (String × Nat)) :
    let lines := Text.lines source
    (visited source chunk calls assigns writes).findings {} =
      calls.filterMap (Rules.appendFinding? lines) ++
      calls.filterMap (Rules.lengthFinding? lines) ++
      calls.filterMap (Rules.powerFinding? lines) ++
      Rules.repeatedFindings {} (Tracker.start lines).scopes calls ++
      calls.filterMap (Rules.debugFinding? lines) ++
      writes.filterMap (Rules.globalWriteFinding? lines) ++
      calls.filterMap (Rules.distanceFinding? lines) ++
      Rules.propertyFindings lines calls := by
  intro lines
  have uncached : Rules.uncachedFindings {} (Tracker.start lines).scopes calls = [] :=
    uncachedFindings_eq_nil _ _ (by simp [Tracker.start])
  have unusedVariables : Rules.unusedVariableFindings lines chunk = [] := by
    simp only [Rules.unusedVariableFindings, Rules.lastDeclarations, h.declarations_eq_nil,
      filter_nil, foldl_nil, filterMap_nil]
  have unusedFunctions : Rules.unusedFunctionFindings lines chunk = [] := by
    simp only [Rules.unusedFunctionFindings, h.declarations_eq_nil, filter_nil, foldl_nil,
      filterMap_nil]
  -- What was not recorded is not reported.
  have concats : Rules.concatFindings (tracked lines calls assigns writes) = [] := rfl
  have lengths : Rules.repeatedLengthFindings lines [] = [] := rfl
  unfold Analyzed.findings
  simp only [visited, tracked, Tracker.start] at concats uncached ⊢
  simp only [concats, lengths, uncached, h.deadCode_eq_nil, unusedVariables, unusedFunctions, map_nil,
    filterMap_nil, append_nil, lines]

theorem exists_visitSource {source : Chars} (parsed : Chunk.parse? source = some chunk)
    {calls : List Call} (made : MakesCalls (visitStats chunk) calls)
    (printable : ∀ c ∈ calls, arePrintable (Rules.replacedParts c ++ Rules.nativeParts c)) :
    ∃ assigns writes, visitSource source = .ok (.analyzed (visited source chunk calls assigns writes)) := by
  obtain ⟨assigns, writes, visit⟩ := made (Text.lines source) [] [] []
  refine ⟨assigns, writes, ?_⟩
  have written : arePrintable (visited source chunk calls assigns writes).written := by
    refine arePrintable_iff.mpr (forall_mem_append.mpr ⟨fun e he => ?_, fun e he => ?_⟩)
    · obtain ⟨c, hc, he⟩ := mem_flatMap.mp he
      exact arePrintable_iff.mp (printable c hc) e he
    · obtain ⟨n, hn, he⟩ := mem_flatMap.mp he
      exact arePrintable_iff.mp (h.isPlain_of_mem_walk n hn).2.2 e he
  have chunkVisit : visitChunk chunk (Text.lines source) =
      .ok (tracked (Text.lines source) calls assigns writes) := visit
  rw [visitSource, parsed]
  simp only [chunkVisit, bind, Except.bind]
  exact if_pos written

end Straight

/-! ## What is fixed -/

theorem of_globalWriteFinding? {lines : List Chars} {w : String × Nat} {f : Finding}
    (h : Rules.globalWriteFinding? lines w = some f) :
    f.severity = .red ∧ f.pattern = "global_write" := by
  unfold Rules.globalWriteFinding? at h
  dsimp only at h
  split at h
  · cases h
  · cases h
    exact ⟨rfl, rfl⟩

def fixedBySeverity (pattern : String) : Bool :=
  pattern != "string_concat_in_loop" && pattern != "potential_nil_access" &&
    !Text.startsWith pattern.toList "dead_code_".toList

theorem fixable_eq_filter (o : Options) {fs : List Finding} (h : ∀ f ∈ fs, fixedBySeverity f.pattern) :
    fixable o fs = fs.filter fun f => o.severities.contains f.severity := by
  have names : ∀ f ∈ fs, (f.pattern == "string_concat_in_loop") = false ∧
      (f.pattern == "potential_nil_access") = false ∧
      Text.startsWith f.pattern.toList "dead_code_".toList = false := fun f hf => by
    simpa [fixedBySeverity, and_assoc] using h f hf
  have nothing (test rest : Finding → Bool) (ht : ∀ f ∈ fs, test f = false) :
      (fs.filter fun f => test f && rest f) = [] :=
    filter_eq_nil_iff.mpr fun f hf => by simp [ht f hf]
  have concats := nothing (fun f => f.pattern == "string_concat_in_loop")
    (fun f => f.severity == .yellow) fun f hf => (names f hf).1
  have guards := nothing (fun f => f.pattern == "potential_nil_access")
    (fun f => f.details.holds "is_safe_to_fix") fun f hf => (names f hf).2.1
  have dead := nothing (fun f => Text.startsWith f.pattern.toList "dead_code_".toList)
    (fun f => f.details.holds "is_safe_to_remove") fun f hf => (names f hf).2.2
  simp only [fixable, concats, guards, dead, addOnNewLines, filter_nil, append_nil, ite_self]

theorem severities_green (o : Options) : o.severities.contains .green := by
  simp [Options.severities]

theorem severities_red (o : Options) : o.severities.contains .red = false := by
  unfold Options.severities
  cases o.fixYellow <;> cases o.fixDebug <;> rfl

theorem fixFindings_of_apply {o : Options} {source content : Chars} {findings : List Finding}
    (h : Edit.apply (sourceEdits o source findings) source = .ok content) :
    ∃ fixed, fixFindings o source findings = .ok fixed ∧ fixed.content = content := by
  unfold fixFindings
  split
  · rename_i none
    rw [none] at h
    cases h
    exact ⟨_, rfl, rfl⟩
  · simp only [h, bind, Except.bind]
    split
    · rename_i same
      exact ⟨_, rfl, (eq_of_beq same).symm⟩
    · exact ⟨_, rfl, rfl⟩

theorem fixSource_of_apply {o : Options} {source content : Chars} {a : Analyzed}
    (visit : visitSource source = .ok (.analyzed a))
    (h : Edit.apply (sourceEdits o source (a.findings {})) source = .ok content) :
    ∃ fixed, fixSource o source = .ok fixed ∧ fixed.content = content := by
  have findings : analyzeSource {} source = .ok (a.findings {}) := by
    rw [analyzeSource, visit]
    rfl
  obtain ⟨fixed, done, same⟩ := fixFindings_of_apply h
  refine ⟨fixed, ?_, same⟩
  rw [fixSource, findings]
  simp only [Except.mapError, bind, Except.bind]
  exact congrArg (Except.mapError Fault.edits) done

/-! ## Spans of names -/

theorem shownText_eq_self {cs : Chars} (h : ∀ c ∈ cs, isNameChar c) : Token.shownText cs = cs := by
  induction cs with
  | nil => rfl
  | cons c cs ih =>
    have other {d : Char} (hd : isNameChar d = false) : c ≠ d := ne_of_isNameChar (h c mem_cons_self) hd
    rw [Token.shownText, ih fun d hd => h d (mem_cons_of_mem c hd)]
    · exact other (by decide)
    · exact other (by decide)
    · exact other (by decide)

theorem looksLikeParen_name (q : Cursor) (n : Identifier) :
    looksLikeParen (.at (q.token .name n.text)) = false := by
  have digits (n : Nat) : '=' ∉ Token.digits n := Token.not_mem_digits (by decide) n
  have shown : Token.shownText n.text = n.text := shownText_eq_self fun c => n.isNameChar_of_mem
  have name : '=' ∉ n.text := n.not_mem (by decide)
  let t := q.token .name n.text
  obtain ⟨xs, ys, text, hx, hy⟩ : ∃ xs ys, t.render = xs ++ '=' :: '\'' :: n.first :: ys ∧
      '=' ∉ xs ∧ '=' ∉ '\'' :: n.first :: ys := by
    refine ⟨['[', '@'] ++ Token.digits t.index ++ [','] ++ Token.digits t.start ++ [':'] ++
      Token.digits t.stop, n.rest ++ ['\'', ',', '<'] ++ Token.digits t.kind.code ++
      ['>', ','] ++ Token.digits t.line ++ [':'] ++ Token.digits t.column ++ [']'], ?_, ?_, ?_⟩
    · have whole : t.text = n.text := rfl
      unfold Token.render Token.printedAs
      simp only [whole, shown, append_assoc]
      rfl
    · simp [digits]
    · rw [Identifier.text, mem_cons, not_or] at name
      simp [digits, name]
  have token : (Anchor.at t).token? = some t := rfl
  have first := isNameChar_of_isNameStart n.starts
  have opens : '(' ≠ n.first := (ne_of_isNameChar first (by decide)).symm
  have quote : '\'' ≠ n.first := (ne_of_isNameChar first (by decide)).symm
  simp only [t] at token text
  simp only [looksLikeParen, token, text, Text.contains_of_once hx hy]
  simp [Text.startsWith, Text.stripPrefix?, opens, quote]

end LuaTune.Fix
