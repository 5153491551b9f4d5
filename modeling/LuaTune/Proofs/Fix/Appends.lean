import LuaTune.Proofs.Finding.Kinds
import LuaTune.Proofs.Fix.Straight
import LuaTune.Proofs.Lua.Appends

/-!
# Fixing scripts that append to tables

Every call of a script of appends is replaced by an assignment, whether or not something is assigned
what the call gives. So the fixed script is a script exactly if nothing is.
-/

namespace LuaTune.Fix

open List hiding find?
open Lua Analysis

/-! ## What is recorded -/

def callOf (a : AppendLine) (p : Cursor) : Call where
  fullName := "table.insert"
  module := some "table"
  func := "insert"
  args := [nameAt (a.tableToken p), nameAt (a.valueToken p)]
  line := p.line
  node := a.callExpr p
  scope := 0
  loopDepth := 0
  conditional := none
  branch := -1

theorem makesCalls_append (a : AppendLine) (p : Cursor) :
    MakesCalls (visitStat (a.stat p)) [callOf a (a.inside p)] := by
  obtain ⟨target, table, value⟩ := a
  cases target with
  | none => exact fun _ _ assigns writes => ⟨assigns, writes, rfl⟩
  | some x => exact fun _ _ _ _ => ⟨_, _, rfl⟩

def callsOf : Cursor → List AppendLine → List Call
  | _, [] => []
  | p, a :: as => callOf a (a.inside p) :: callsOf (AppendLine.asCall.next a p) as

theorem makesCalls_appends (as : List AppendLine) (p : Cursor) :
    MakesCalls (visitStats (AppendLine.stats p as)) (callsOf p as) := by
  induction as generalizing p with
  | nil => exact makesCalls_nil
  | cons a as ih => exact (makesCalls_append a p).cons (ih _)

/-! ## What is found -/

theorem of_mem_callsOf {as : List AppendLine} {p : Cursor} {c : Call} (h : c ∈ callsOf p as) :
    ∃ a q, c = callOf a q := by
  induction as generalizing p with
  | nil => cases h
  | cons a as ih =>
    rcases mem_cons.mp h with rfl | h
    · exact ⟨a, _, rfl⟩
    · exact ih h

section Findings

variable {calls : List Call} (inserts : ∀ c ∈ calls, ∃ a q, c = callOf a q) (lines : List Chars)

include inserts

theorem callFindings_eq_nil : calls.filterMap (Rules.lengthFinding? lines) = [] ∧
    calls.filterMap (Rules.powerFinding? lines) = [] ∧
    calls.filterMap (Rules.debugFinding? lines) = [] ∧
    calls.filterMap (Rules.distanceFinding? lines) = [] := by
  have silent : Vocabulary.debugFunctions.contains "insert" = false := by decide
  refine ⟨?_, ?_, ?_, ?_⟩ <;> refine filterMap_eq_nil_iff.mpr fun c hc => ?_ <;>
    obtain ⟨a, q, rfl⟩ := inserts c hc
  · rfl
  · rfl
  · rw [Rules.debugFinding?, callOf, silent, Bool.and_false]
    rfl
  · rfl

theorem propertyFindings_eq_nil : Rules.propertyFindings lines calls = [] := by
  have none : calls.filterMap (fun c => (Rules.propertyFor? c).map fun p => (c, p)) = [] := by
    refine filterMap_eq_nil_iff.mpr fun c hc => ?_
    obtain ⟨a, q, rfl⟩ := inserts c hc
    rfl
  rw [Rules.propertyFindings, none]
  rfl

theorem repeatedFindings_eq_nil (settings : Settings) (scopes : List Scope) :
    Rules.repeatedFindings settings scopes calls = [] := by
  have cheap : ¬ Vocabulary.expensiveCalls.contains "table.insert" := by decide
  have none : calls.filter (fun c => Vocabulary.expensiveCalls.contains c.fullName) = [] := by
    refine filter_eq_nil_iff.mpr fun c hc => ?_
    obtain ⟨a, q, rfl⟩ := inserts c hc
    exact cheap
  rw [Rules.repeatedFindings, none]
  rfl

end Findings

theorem isPlain_of_mem_callExpr (a : AppendLine) (p : Cursor) :
    ∀ n ∈ (a.callExpr p).walk, IsPlain n := by
  have walk : (a.callExpr p).walk = [.expr (a.callExpr p),
       .expr (.index .dot (nameAt (AppendLine.moduleToken p)) (nameAt (AppendLine.funcToken p))),
       .expr (nameAt (AppendLine.moduleToken p)), .expr (nameAt (AppendLine.funcToken p)),
       .expr (nameAt (a.tableToken p)), .expr (nameAt (a.valueToken p))] := rfl
  rw [walk]
  simp only [forall_mem_cons, not_mem_nil, isPlain_name, true_and]
  exact ⟨⟨fun _ => rfl, rfl, rfl⟩, ⟨fun _ => rfl, rfl, rfl⟩, by simp⟩

theorem isPlain_of_mem_stat (a : AppendLine) (p : Cursor) : ∀ n ∈ (a.stat p).walk, IsPlain n := by
  obtain ⟨target, table, value⟩ := a
  cases target with
  | none => exact isPlain_of_mem_callExpr _ p
  | some x =>
    let a : AppendLine := ⟨some x, table, value⟩
    have walk : (a.stat p).walk = .stat (a.stat p) :: .expr (nameAt (p.token .name x.text)) ::
        ((a.callExpr (a.inside p)).walk ++ []) := rfl
    rw [walk, append_nil]
    simp only [forall_mem_cons, isPlain_name, true_and]
    exact ⟨⟨fun _ => rfl, rfl, rfl⟩, isPlain_of_mem_callExpr a _⟩

theorem straight_appends (as : List AppendLine) (p : Cursor) : Straight (AppendLine.stats p as) := by
  induction as generalizing p with
  | nil => exact straight_nil
  | cons a as ih =>
    refine (ih _).cons (isPlain_of_mem_stat a p) fun k name => ?_
    obtain ⟨target, table, value⟩ := a
    cases target with
    | none => exact ⟨rfl, rfl⟩
    | some x => exact ⟨rfl, rfl⟩

theorem findings_appends (as : List AppendLine) (assigns : List Assignment)
    (writes : List (String × Nat)) :
    let source := AppendLine.asCall.script as
    (visited source (AppendLine.stats .start as) (callsOf .start as) assigns writes).findings {} =
      (callsOf .start as).filterMap (Rules.appendFinding? (Text.lines source)) ++
        writes.filterMap (Rules.globalWriteFinding? (Text.lines source)) := by
  intro source
  have inserts : ∀ c ∈ callsOf .start as, ∃ a q, c = callOf a q := fun c => of_mem_callsOf
  obtain ⟨lengths, powers, debugs, distances⟩ := callFindings_eq_nil inserts (Text.lines source)
  rw [(straight_appends as .start).findings_eq]
  simp only [lengths, powers, debugs, distances, repeatedFindings_eq_nil inserts,
    propertyFindings_eq_nil inserts, append_nil]

theorem visitSource_appends (as : List AppendLine) :
    ∃ assigns writes, visitSource (AppendLine.asCall.script as) =
      .ok (.analyzed (visited (AppendLine.asCall.script as) (AppendLine.stats .start as)
        (callsOf .start as) assigns writes)) := by
  refine (straight_appends as .start).exists_visitSource (AppendLine.parse_calls as)
    (makesCalls_appends as .start) fun c hc => ?_
  obtain ⟨a, q, rfl⟩ := of_mem_callsOf hc
  rfl

/-! ## What is replaced -/

open Text

theorem strip_name (n : Identifier) : strip (' ' :: n.text) = n.text :=
  strip_eq_self fun _ hc => isBlank_eq_false (n.isNameChar_of_mem hc)

theorem closingParen?_append {xs : Chars} (h : ∀ c ∈ xs, c ∉ ['"', '\'', '(', ')'])
    (previous : Char) : closingParen? previous none 0 (xs ++ [')']) = some xs.length := by
  induction xs generalizing previous with
  | nil => rfl
  | cons x xs ih =>
    have plain := h x mem_cons_self
    simp only [mem_cons, not_mem_nil, or_false, not_or] at plain
    obtain ⟨double, single, opens, closes⟩ := plain
    have rest := ih (fun c hc => h c (mem_cons_of_mem x hc)) x
    simp [closingParen?, double, single, opens, closes, rest]

theorem insertedValue?_call (a : AppendLine) : insertedValue? a.call = some a.value.text := by
  have text : a.call.drop 12 = '(' :: a.table.text ++ ',' :: ' ' :: (a.value.text ++ [')']) := rfl
  have paren : findChar? '(' a.call = some 12 := rfl
  have comma : findFrom? [','] 12 a.call = some (13 + a.table.text.length) := by
    have room : 12 ≤ a.call.length := by
      rw [a.length_call]
      omega
    have none : ',' ∉ '(' :: a.table.text := by
      simpa using a.table.not_mem (d := ',') (by decide)
    have start (cs : Chars) : find? [','] (',' :: cs) = some 0 := by
      simp [find?, startsWith, stripPrefix?]
    rw [findFrom?, if_pos room, text, find?_append_of_not_mem _ none, start]
    simp only [Option.map_some, length_cons]
    congr 1
    omega
  have close : closingParen? '(' none 0 (a.call.drop 13) =
      some (a.table.text.length + 2 + a.value.text.length) := by
    have inner : a.call.drop 13 = a.table.text ++ ',' :: ' ' :: a.value.text ++ [')'] := by
      rw [append_assoc]
      rfl
    have plain : ∀ c ∈ a.table.text ++ ',' :: ' ' :: a.value.text, c ∉ ['"', '\'', '(', ')'] := by
      have name (n : Identifier) : ∀ c ∈ n.text, c ∉ ['"', '\'', '(', ')'] := fun c hc =>
        n.not_mem_of_mem hc (by decide)
      simp only [forall_mem_append, forall_mem_cons]
      exact ⟨name a.table, by decide, by decide, name a.value⟩
    rw [inner, closingParen?_append plain]
    simp only [length_append, length_cons]
    congr 1
    omega
  have value : slice a.call (13 + a.table.text.length + 1)
      (13 + (a.table.text.length + 2 + a.value.text.length)) = ' ' :: a.value.text := by
    have rest : a.call.drop (13 + a.table.text.length + 1) = ' ' :: a.value.text ++ [')'] := by
      have inner : a.call.drop 13 = (a.table.text ++ [',']) ++ (' ' :: a.value.text ++ [')']) := by
        rw [append_assoc]
        rfl
      have front : a.table.text.length + 1 = (a.table.text ++ [',']).length := by simp
      rw [Nat.add_assoc, ← drop_drop, inner, front, drop_left]
    have count : 13 + (a.table.text.length + 2 + a.value.text.length) -
        (13 + a.table.text.length + 1) = (' ' :: a.value.text).length := by
      rw [length_cons]
      omega
    rw [slice, rest, count, take_left]
  simp only [insertedValue?, paren, comma, close, Option.bind_some, bind, pure, value, strip_name]

def piecesOf (a : AppendLine) : List Piece :=
  [.kept a.lead, .replaced a.call a.assignment, .kept ['\n']]

theorem before_piecesOf (as : List AppendLine) :
    (as.flatMap piecesOf).flatMap Piece.before = AppendLine.asCall.script as := by
  have line (a : AppendLine) : (piecesOf a).flatMap Piece.before = AppendLine.asCall.line a := by
    simp [piecesOf, Piece.before, AppendLine.Form.line, AppendLine.asCall]
  simp only [flatMap_assoc, line, AppendLine.Form.script]

theorem after_piecesOf (as : List AppendLine) :
    (as.flatMap piecesOf).flatMap Piece.after = AppendLine.asAssignment.script as := by
  have line (a : AppendLine) : (piecesOf a).flatMap Piece.after = AppendLine.asAssignment.line a := by
    simp [piecesOf, Piece.after, AppendLine.Form.line, AppendLine.asAssignment]
  simp only [flatMap_assoc, line, AppendLine.Form.script]

theorem proper_piecesOf (as : List AppendLine) : ∀ q ∈ as.flatMap piecesOf, q.Proper := by
  intro q hq
  obtain ⟨a, -, hq⟩ := mem_flatMap.mp hq
  simp only [piecesOf, mem_cons, not_mem_nil, or_false] at hq
  rcases hq with rfl | rfl | rfl
  · trivial
  · exact cons_ne_nil _ _
  · trivial

theorem exprSpan_callExpr (source : Chars) (a : AppendLine) (q : Cursor) :
    exprSpan source (a.callExpr q) = (some q.offset, some (q.offset + a.call.length)) := by
  have first : (Expr.index .dot (nameAt (AppendLine.moduleToken q))
      (nameAt (AppendLine.funcToken q))).first = .at (AppendLine.moduleToken q) := rfl
  have last : tokenEnd (some (a.closeToken q)) = some (q.offset + a.call.length) := by
    rw [a.length_call]
    rfl
  rw [AppendLine.callExpr, exprSpan, callSpan, first, AppendLine.moduleToken, looksLikeParen_name, last]
  rfl

section Edits

variable {lines : List Chars} {a : AppendLine} {q : Cursor} {f : Finding}
  (h : Rules.appendFinding? lines (callOf a q) = some f)

include h

theorem findingSpan?_append (source : Chars) :
    findingSpan? source f = some (q.offset, some (q.offset + a.call.length)) := by
  have node : f.details.node? "node" = some (.expr (a.callExpr q)) := by
    cases h
    rfl
  rw [findingSpan?, node]
  simp only [bind, Option.bind, nodeSpan, exprSpan_callExpr]
  rfl

theorem nonEmpty?_append : nonEmpty? f "table" = some a.table.text := by
  have table : f.details.text? "table" = some (String.ofList a.table.text) := by
    cases h
    rfl
  rw [nonEmpty?, table]
  simp [Identifier.text]

theorem findingEdits_append (o : Options) {front behind : Chars} (hq : q.offset = front.length) :
    findingEdits o (front ++ (a.call ++ behind)) f =
      [⟨q.offset, some (q.offset + a.call.length : Nat), a.assignment, 0⟩] := by
  have pattern : f.pattern = "table_insert_append" := by
    cases h
    rfl
  have text : sourceFrom (front ++ (a.call ++ behind)) q.offset (some (q.offset + a.call.length)) =
      a.call := by
    rw [sourceFrom, slice, hq, drop_left, Nat.add_sub_cancel_left, take_left]
  have assignment : a.table.text ++ "[#".toList ++ a.table.text ++ "+1] = ".toList ++ a.value.text =
      a.assignment := by
    simp [AppendLine.assignment]
  have append : findingEdits o (front ++ (a.call ++ behind)) f =
      appendEdits (front ++ (a.call ++ behind)) f := by
    rw [findingEdits, pattern]
    rfl
  have value : a.value.text.isEmpty = false := rfl
  rw [append, appendEdits]
  simp only [findingSpan?_append h, nonEmpty?_append h, text, insertedValue?_call, bind,
    Option.bind_some, value, assignment]
  rfl

end Edits

theorem edits_appends (o : Options) (lines : List Chars) (as : List AppendLine) (p : Cursor)
    (front : Chars) (hp : p.offset = front.length) :
    ((callsOf p as).filterMap (Rules.appendFinding? lines)).flatMap
      (findingEdits o (front ++ AppendLine.asCall.script as)) =
        pieceEdits p.offset (as.flatMap piecesOf) := by
  induction as generalizing p front with
  | nil => rfl
  | cons a as ih =>
    have text : front ++ AppendLine.asCall.script (a :: as) =
        (front ++ a.lead) ++ (a.call ++ ('\n' :: AppendLine.asCall.script as)) := by
      simp [AppendLine.Form.script, AppendLine.Form.line, AppendLine.asCall]
    have text' : front ++ AppendLine.asCall.script (a :: as) =
        (front ++ AppendLine.asCall.line a) ++ AppendLine.asCall.script as := by
      simp [AppendLine.Form.script]
    have inside : (a.inside p).offset = (front ++ a.lead).length := by
      rw [a.offset_inside, hp, length_append]
    have next : (AppendLine.asCall.next a p).offset = (front ++ AppendLine.asCall.line a).length := by
      rw [AppendLine.Form.offset_next, hp, length_append]
    obtain ⟨f, found⟩ : ∃ f, Rules.appendFinding? lines (callOf a (a.inside p)) = some f := ⟨_, rfl⟩
    have others := ih (AppendLine.asCall.next a p) _ next
    rw [← text', AppendLine.Form.offset_next] at others
    have size : p.offset + (AppendLine.asCall.line a).length =
        p.offset + a.lead.length + a.call.length + 1 := by
      simp [AppendLine.Form.line, AppendLine.asCall, Nat.add_assoc]
    rw [callsOf, filterMap_cons_some found, flatMap_cons, others, text,
      findingEdits_append found o inside, a.offset_inside, size]
    rfl

/-! ## The fixed script -/

theorem fixable_appends (o : Options) {appends writes : List Finding}
    (ha : ∀ f ∈ appends, f.severity = .green ∧ f.pattern = "table_insert_append")
    (hw : ∀ f ∈ writes, f.severity = .red ∧ f.pattern = "global_write") :
    fixable o (appends ++ writes) = appends := by
  have names : ∀ f ∈ appends ++ writes, fixedBySeverity f.pattern := by
    refine forall_mem_append.mpr ⟨fun f hf => ?_, fun f hf => ?_⟩
    · rw [(ha f hf).2]
      rfl
    · rw [(hw f hf).2]
      rfl
  rw [fixable_eq_filter o names, filter_append, filter_eq_self.mpr, filter_eq_nil_iff.mpr, append_nil]
  · intro f hf
    rw [(hw f hf).1, severities_red]
    exact Bool.false_ne_true
  · intro f hf
    rw [(ha f hf).1, severities_green]

theorem fixSource_appends (o : Options) (as : List AppendLine) :
    ∃ fixed, fixSource o (AppendLine.asCall.script as) = .ok fixed ∧
      fixed.content = AppendLine.asAssignment.script as := by
  obtain ⟨assigns, writes, visit⟩ := visitSource_appends as
  refine fixSource_of_apply visit ?_
  have edits : sourceEdits o (AppendLine.asCall.script as) ((visited (AppendLine.asCall.script as)
      (AppendLine.stats .start as) (callsOf .start as) assigns writes).findings {}) =
      pieceEdits 0 (as.flatMap piecesOf) := by
    rw [sourceEdits, findings_appends, fixable_appends]
    · exact edits_appends o _ as .start [] rfl
    · intro f hf
      obtain ⟨c, -, hc⟩ := mem_filterMap.mp hf
      have about := (of_appendFinding? hc).1
      exact ⟨about.severity, about.pattern⟩
    · intro f hf
      obtain ⟨w, -, hw⟩ := mem_filterMap.mp hf
      exact of_globalWriteFinding? hw
  have applied := apply_pieceEdits (proper_piecesOf as)
  rwa [before_piecesOf, after_piecesOf, ← edits] at applied

/-- A script of appends parses and can be fixed. What comes out parses exactly if no line assigns
what its append gives: an assignment is no expression. -/
theorem appends_stay_script_iff (o : Options) (as : List AppendLine) :
    (Chunk.parse? (AppendLine.asCall.script as)).isSome ∧
      ∃ fixed, fixSource o (AppendLine.asCall.script as) = .ok fixed ∧
        fixed.content = AppendLine.asAssignment.script as ∧
        ((Chunk.parse? fixed.content).isSome ↔ ∀ a ∈ as, a.target = none) := by
  obtain ⟨fixed, done, content⟩ := fixSource_appends o as
  refine ⟨by rw [AppendLine.parse_calls]; rfl, fixed, done, content, ?_⟩
  rw [content]
  exact AppendLine.parse_assignments as

/-- The smallest script that is broken: an assignment is put where a value stood. -/
theorem assigned_append_breaks :
    (Chunk.parse? "x = table.insert(t, v)\n".toList).isSome ∧
      ∃ fixed ∈ (fixSource {} "x = table.insert(t, v)\n".toList).toOption,
        fixed.content = "x = t[#t+1] = v\n".toList ∧
          (Chunk.parse? fixed.content).isSome = false := by
  decide +kernel

end LuaTune.Fix
