import LuaTune.Files.Script
import LuaTune.Proofs.Fix.Spelling
import Mathlib.Data.List.Basic

/-!
# Texts that grow in a loop are never collected

A loop keeps no token, so its scope starts on no line, and nothing is assigned on a line before
that. Hence no finding about a text that grows in a loop knows where the text was empty, and none is
fixed.
-/

namespace LuaTune.Analysis

open Lua List

def isLoop : Stat → Bool
  | .whileLoop .. | .repeatLoop .. | .numericFor .. | .genericFor .. => true
  | _ => false

theorem line_of_isLoop {s : Stat} (h : isLoop s) : s.line = 0 := by
  cases s with
  | whileLoop | repeatLoop | numericFor | genericFor => rfl
  | _ => cases h

def Scope.head (s : Scope) : ScopeKind × Nat := (s.kind, s.startLine)

def Tracker.heads (t : Tracker) : List (ScopeKind × Nat) := t.scopes.map Scope.head

/-- Loops start on no line, and the loop around a text that is assigned is one of them. -/
structure Lineless (t : Tracker) : Prop where
  loops : ∀ line, (.loop, line) ∈ t.heads → line = 0
  concats : ∀ k ∈ t.concats, k.target.isSome → ∀ id ∈ k.loopScope, t.heads[id]? = some (.loop, 0)

section

variable {t t' : Tracker}

theorem heads_updateScope {f : Scope → Scope} (h : ∀ s, (f s).head = s.head) :
    (t.updateScope f).heads = t.heads := by
  unfold Tracker.heads Tracker.updateScope
  refine ext_getElem? fun i => ?_
  rw [getElem?_map, getElem?_map, getElem?_modify]
  split
  · rw [Option.map_eq_map, Option.map_map]
    exact congrFun (congrArg Option.map (funext h)) _
  · rw [Option.map_eq_map, Option.map_id']

theorem mem_chainWithin {scopes : List Scope} {n i id : ScopeId} {s : Scope}
    (h : (id, s) ∈ chainWithin scopes n i) : scopes[id]? = some s := by
  fun_induction chainWithin scopes n i with
  | case1 | case2 => cases h
  | case3 n i s' here =>
    cases mem_singleton.mp h
    exact here
  | case4 n i s' here p parent ih =>
    rcases mem_cons.mp h with same | later
    · cases same
      exact here
    · exact ih later

namespace Lineless

theorem of_same (h : Lineless t) (heads : t'.heads = t.heads) (concats : t'.concats = t.concats) :
    Lineless t' := by
  constructor
  · rw [heads]
    exact h.loops
  · rw [heads, concats]
    exact h.concats

theorem loop? (h : Lineless t) {id : ScopeId} (hid : id ∈ t.loop?) : t.heads[id]? = some (.loop, 0) := by
  unfold Tracker.loop? at hid
  split at hid
  · obtain ⟨⟨id, s⟩, found, rfl⟩ := Option.map_eq_some_iff.mp hid
    have here : t.scopes[id]? = some s := mem_chainWithin (mem_of_find?_eq_some found)
    have isLoop := find?_some found
    have kind : s.kind = .loop := eq_of_beq isLoop
    have head : t.heads[id]? = some (.loop, s.startLine) := by
      rw [Tracker.heads, getElem?_map, here, ← kind]
      rfl
    rw [head, h.loops s.startLine (mem_of_getElem? head)]
  · cases hid

theorem records {p : Part} {calls : List Expr} (made : Records p calls t t') (h : Lineless t) : Lineless t' := by
  induction made with
  | call | assign | access => exact h.of_same rfl rfl
  | concat t k here depth inLoop loop =>
    refine ⟨h.loops, forall_mem_append.mpr ⟨h.concats, forall_mem_singleton.mpr ?_⟩⟩
    exact fun target id hid => h.loop? (loop target ▸ hid)
  | names t f hf =>
    have heads (s : Scope) : (f s).frame.head = s.frame.head := congrArg Scope.head (hf s)
    exact h.of_same (heads_updateScope heads) rfl
  | aside same =>
    have heads := congrArg Tracker.heads same
    have concats := congrArg (fun t : Tracker => t.concats) same
    exact h.of_same heads concats
  | andThen _ _ ih ih' => exact ih' (ih h)

theorem enter (h : Lineless t) {name : String} {line : Nat} {kind : ScopeKind} {hot : Bool}
    (lineless : kind = .loop → line = 0) : Lineless (t.enter name line kind hot) := by
  have heads : (t.enter name line kind hot).heads = t.heads ++ [(kind, line)] := map_append
  constructor
  · intro n
    rw [heads, mem_append, mem_singleton]
    rintro (old | new)
    · exact h.loops n old
    · cases new
      exact lineless rfl
  · intro k hk target id hid
    have old := h.concats k hk target id hid
    rw [heads, List.getElem?_append_left (List.getElem?_eq_some_iff.mp old).1, old]

theorem exit (h : Lineless t) (line : Nat) : Lineless (t.exit line) := by
  have closed : Lineless (t.updateScope fun s => { s with endLine := line }) :=
    h.of_same (heads_updateScope fun _ => rfl) rfl
  unfold Tracker.exit
  dsimp only
  split
  · exact closed.of_same rfl rfl
  · exact closed

end Lineless

theorem follows_lineless : Follows fun _ t t' => Lineless t → Lineless t' where
  records := .records
  andThen h k := k ∘ h
  loop {_ t v name vars} inner h := by
    have opened : Lineless { t with loopDepth := t.loopDepth + 1 } := h.of_same rfl rfl
    have entered : Lineless (t.enterLoop name vars) :=
      .records (.declareAll (p := .block []) _ vars) (opened.enter fun _ => rfl)
    exact ((inner entered).exit 0).of_same rfl rfl
  function {_ t v name first params} inner last h := by
    have opened : Lineless { t with functionDepth := t.functionDepth + 1 } := h.of_same rfl rfl
    have entered : Lineless (t.enterFunction name first params) :=
      .records (.declareAll (p := .block []) _ params) (opened.enter nofun)
    exact ((inner entered).exit last).of_same rfl rfl
  branch inner b h := (inner (h.of_same rfl rfl)).of_same rfl rfl
  conditional inner h := (inner (h.of_same rfl rfl)).of_same rfl rfl

end

theorem lineless_visit {c : Chunk} {lines : List Chars} {t : Tracker} (h : visitChunk c lines = .ok t) :
    Lineless t := by
  refine follows_lineless.visit (.block c) _ t h ⟨fun line loop => ?_, nofun⟩
  cases mem_singleton.mp loop

end LuaTune.Analysis

namespace LuaTune.Fix

open Lua Analysis Rules List

variable {settings : Settings} {f : Finding} {source : Chars} {findings : List Finding}

/-- It is not known where a text that grows was empty. -/
def StartUnknown (f : Finding) : Prop :=
  f.details.holds "is_safe" = false ∧ f.details.int? "init_line" = none

theorem mem_selfConcats {concats : List Concat} {g : (ScopeId × String) × List Concat}
    (hg : g ∈ selfConcats concats) : ∀ k ∈ g.2, k ∈ concats ∧ k.target.isSome := by
  intro k hk
  obtain ⟨g', hg', rfl⟩ := mem_map.mp hg
  obtain ⟨own, hown, rfl⟩ := mem_map.mp hk
  obtain ⟨k, listed, found⟩ := mem_filterMap.mp ((mem_groupOn hg').2 own hown)
  split at found
  · next v _ target _ =>
    split at found
    · cases found
      exact ⟨listed, target ▸ rfl⟩
    · cases found
  · cases found

theorem initLine?_of_startLine {loop : Scope} (h : loop.startLine = 0) (assigns : List Assignment)
    (var : String) : initLine? assigns var loop = none := by
  have never : (assigns.find? fun a =>
      a.target == var && a.kind == .literal && (a.value == "\"\"" || a.value == "''")
        && a.line < loop.startLine && loop.startLine ≤ a.line + 3 && !a.inLoop && a.isLocal) = none := by
    refine List.find?_eq_none.mpr fun a _ => ?_
    simp [h]
  rw [initLine?, never]
  rfl

theorem concatFindings_startUnknown {t : Tracker} (h : Lineless t) :
    ∀ f ∈ concatFindings t, StartUnknown f := by
  intro f hf
  obtain ⟨g, hg, found⟩ := mem_filterMap.mp hf
  obtain ⟨first, head, rfl⟩ := Option.map_eq_some_iff.mp found
  obtain ⟨hk, target⟩ := mem_selfConcats hg first (mem_of_head? head)
  have unset : (first.loopScope.bind fun id => t.scopes[id]?).bind (initLine? t.assigns g.1.2) = none := by
    refine Option.bind_eq_none_iff.mpr fun loop found => ?_
    obtain ⟨id, hid, here⟩ := Option.bind_eq_some_iff.mp found
    have start := h.concats first hk target id hid
    rw [Tracker.heads, getElem?_map, here] at start
    exact initLine?_of_startLine (congrArg Prod.snd (Option.some.inj start)) _ _
  unfold StartUnknown
  dsimp only
  rw [unset, ite_self]
  exact ⟨rfl, rfl⟩

/-! ## Two ways to fix a script -/

theorem concatEdits_of_startUnknown (h : StartUnknown f) (source : Chars) : concatEdits source f = [] := by
  unfold concatEdits
  rw [h.2]
  cases nonEmpty? f "variable" <;> rfl

structure NoneCollected (findings : List Finding) : Prop where
  concats : ∀ f ∈ findings, f.pattern = "string_concat_in_loop" → StartUnknown f
  dead : ∀ f ∈ findings, Text.startsWith f.pattern.toList "dead_code_".toList → f.severity = .green

theorem noneCollected (found : analyzeSource settings source = .ok findings) : NoneCollected findings := by
  rcases analyzeSource_cases found with rfl | ⟨c, t, -, visited, rfl⟩
  · exact ⟨nofun, nofun⟩
  · constructor
    · intro f hf pattern
      have made := Finding.madeOf f hf
      rw [pattern] at made
      cases made with
      | concat hf => exact concatFindings_startUnknown (lineless_visit visited) f hf
    · intro f hf dead
      obtain ⟨d, -, rfl⟩ := Finding.exists_dead hf dead
      rfl

theorem addOnNewLines_of_mem {chosen extra : List Finding} (h : ∀ f ∈ extra, f ∈ chosen) :
    addOnNewLines chosen extra = chosen := by
  have none : (extra.filter fun f => !(chosen.any fun g => g.line == f.line)) = [] := by
    refine filter_eq_nil_iff.mpr fun f hf => ?_
    simpa using ⟨f, h f hf, rfl⟩
  rw [addOnNewLines, none, append_nil]

/-- What is fixed without guards: findings about texts that grow are chosen in vain, and code that
never runs is chosen anyway. -/
theorem sourceEdits_of_noneCollected (h : NoneCollected findings) {o : Options} (noGuards : o.fixNil = false) :
    sourceEdits o source findings =
      (findings.filter fun f => o.severities.contains f.severity).flatMap (findingEdits o source) := by
  have dead : ∀ f ∈ findings.filter fun f => Text.startsWith f.pattern.toList "dead_code_".toList &&
      f.details.holds "is_safe_to_remove", f ∈ findings.filter fun f => o.severities.contains f.severity := by
    intro f hf
    obtain ⟨hf, pattern⟩ := mem_filter.mp hf
    have green := h.dead f hf (Bool.and_eq_true_iff.mp pattern).1
    exact mem_filter.mpr ⟨hf, green ▸ contains_iff_mem.mpr mem_cons_self⟩
  have vain : (if o.experimental && !o.fixYellow then findings.filter fun f =>
      f.pattern == "string_concat_in_loop" && f.severity == .yellow else []).flatMap (findingEdits o source) = [] := by
    split
    · refine flatMap_eq_nil_iff.mpr fun f hf => ?_
      obtain ⟨hf, chosen⟩ := mem_filter.mp hf
      have pattern : f.pattern = "string_concat_in_loop" := eq_of_beq (Bool.and_eq_true_iff.mp chosen).1
      unfold findingEdits
      simp only [pattern, concatEdits_of_startUnknown (h.concats f hf pattern) source, ite_self]
    · rfl
  unfold sourceEdits fixable
  simp only [noGuards, Bool.false_eq_true, if_false]
  rw [addOnNewLines_of_mem fun f hf => mem_append_left _ (dead f hf), ite_self, flatMap_append, vain,
    append_nil]

theorem findingEdits_experimental (h : f.pattern = "string_concat_in_loop" → StartUnknown f) (o : Options) :
    findingEdits { o with experimental := true } source f = findingEdits { o with experimental := false } source f := by
  by_cases pattern : f.pattern = "string_concat_in_loop"
  · unfold findingEdits
    simp only [pattern, concatEdits_of_startUnknown (h pattern) source, ite_self]
  · unfold findingEdits
    split
    case h_7 => contradiction
    all_goals rfl

theorem sourceEdits_experimental (source : Chars) (h : NoneCollected findings) {o : Options}
    (flags : o.fixNil = false ∨ o.fixYellow = true) :
    sourceEdits { o with experimental := true } source findings =
      sourceEdits { o with experimental := false } source findings := by
  have same (fs : List Finding) (sub : ∀ f ∈ fs, f ∈ findings) :
      fs.flatMap (findingEdits { o with experimental := true } source) =
        fs.flatMap (findingEdits { o with experimental := false } source) :=
    flatMap_congr fun f hf => findingEdits_experimental (h.concats f (sub f hf)) o
  rcases flags with noGuards | yellow
  · rw [sourceEdits_of_noneCollected (o := { o with experimental := true }) h noGuards,
      sourceEdits_of_noneCollected (o := { o with experimental := false }) h noGuards]
    exact same _ fun f hf => (mem_filter.mp hf).1
  · have chosen : fixable { o with experimental := true } findings =
        fixable { o with experimental := false } findings := by
      unfold fixable
      rw [yellow]
      rfl
    unfold sourceEdits
    rw [chosen]
    exact same _ fun f hf => mem_of_mem_fixable hf

theorem fixSource_experimental {o : Options} (flags : o.fixNil = false ∨ o.fixYellow = true)
    (source : Chars) : fixSource { o with experimental := true } source =
      fixSource { o with experimental := false } source := by
  unfold fixSource
  cases found : analyzeSource {} source with
  | error fault => rfl
  | ok findings =>
    have edits := sourceEdits_experimental source (noneCollected found) flags
    have fixed : fixFindings { o with experimental := true } source findings =
        fixFindings { o with experimental := false } source findings := by
      rw [fixFindings, edits, fixFindings]
    exact congrArg (Except.mapError Fault.edits) fixed

/-- Loops keep no line: of every script that can be visited the scope of a loop starts at line zero.
No finding about a text that grows in a loop is safe, and unless guards are added without the findings
that need review, a script is fixed the same way, with the same edits or the same failure, whether or
not experimental fixes are wanted. -/
theorem experimental_fixes_alike : (∀ s : Stat, isLoop s → s.line = 0) ∧
    (∀ c lines t, visitChunk c lines = .ok t → ∀ s ∈ t.scopes, s.kind = .loop → s.startLine = 0) ∧
    (∀ settings source findings, analyzeSource settings source = .ok findings →
      ∀ f ∈ findings, f.pattern = "string_concat_in_loop" → f.details.holds "is_safe" = false) ∧
    ∀ o : Files.FixOptions, o.fixNil = false ∨ o.fixYellow = true →
      (∀ source, fixSource { o.toOptions with experimental := true } source =
        fixSource { o.toOptions with experimental := false } source) ∧
      ∀ files path, Files.fixFile { o with experimental := true } files path =
        Files.fixFile { o with experimental := false } files path := by
  refine ⟨fun _ => line_of_isLoop, ?_, ?_, fun o flags => ⟨fixSource_experimental flags, ?_⟩⟩
  · intro c lines t visited s hs kind
    refine (lineless_visit visited).loops s.startLine ?_
    exact kind ▸ mem_map_of_mem (f := Scope.head) hs
  · exact fun settings source findings found f hf pattern => ((noneCollected found).concats f hf pattern).1
  · intro files path
    unfold Files.fixFile
    cases Files.scriptAt? files path with
    | none => rfl
    | some source =>
      dsimp only
      rw [fixSource_experimental flags source]
      rfl

def growingText : Chars := "local s = \"\"\nfor i = 1, 3 do\n  s = s .. i\nend\n".toList

theorem growingText_fixed_alike :
    (∃ tree findings f, Chunk.parse? growingText = some tree ∧ analyzeSource {} growingText = .ok findings ∧
      f ∈ findings ∧ f.pattern = "string_concat_in_loop" ∧ f.details.holds "is_safe" = false) ∧
      fixSource { experimental := true } growingText = fixSource { experimental := false } growingText := by
  obtain ⟨-, -, notSafe, alike⟩ := experimental_fixes_alike
  have passes : analysisPasses growingText fun _ findings =>
      findings.any fun f => f.pattern == "string_concat_in_loop" := by decide +kernel
  obtain ⟨tree, findings, parsed, found, grows⟩ := of_analysisPasses passes
  obtain ⟨f, hf, pattern⟩ := any_eq_true.mp grows
  have pattern : f.pattern = "string_concat_in_loop" := eq_of_beq pattern
  refine ⟨⟨tree, findings, f, parsed, found, hf, pattern, notSafe {} growingText findings found f hf pattern⟩, ?_⟩
  exact (alike {} (.inl rfl)).1 growingText

end LuaTune.Fix
