import LuaTune.Proofs.Fix.Lines
import LuaTune.Proofs.Fix.Straight
import LuaTune.Proofs.Tables

/-!
# Copies of results in nested blocks

A script that assigns `PlayerId()` four times or more gets one declaration of a copy: in front of
the first call, or in front of the second line of the script if the rows leave the block of the
first call. In the second case it binds all uses exactly if a block that opens on the first line
holds them.
-/

namespace LuaTune.Fix

open Lua Analysis Text List

/-! ## What is recorded -/

def nativeCallAt (p : Cursor) : Call where
  fullName := "PlayerId"
  module := none
  func := "PlayerId"
  args := []
  line := p.line
  node := nativeCallExpr p
  scope := 0
  loopDepth := 0
  conditional := none
  branch := -1

def callPlace (d : Nat) (x : Target) (p : Cursor) : Cursor :=
  ((Line.row d (.call x)).inside p).ahead (x.text.length + 3) 4

def lineCalls (p : Cursor) : Line → List Call
  | .row d (.call x) => [nativeCallAt (callPlace d x p)]
  | .row _ (.use _) | .row _ (.copy _) | .opens _ | .closes _ => []

def linesCalls : Cursor → List Line → List Call
  | _, [] => []
  | p, l :: ls => lineCalls p l ++ linesCalls (l.next p) ls

theorem linesCalls_append (p : Cursor) (ls ms : List Line) :
    linesCalls p (ls ++ ms) = linesCalls p ls ++ linesCalls (afterLines p ls) ms := by
  induction ls generalizing p with
  | nil => rfl
  | cons l ls ih =>
    rw [cons_append, linesCalls, ih, linesCalls, append_assoc]
    rfl

theorem linesCalls_eq_nil {ls : List Line} (h : ∀ l ∈ ls, l.isRow = false) (p : Cursor) :
    linesCalls p ls = [] := by
  induction ls generalizing p with
  | nil => rfl
  | cons l ls ih =>
    obtain ⟨first, others⟩ := forall_mem_cons.mp h
    rw [linesCalls, ih others]
    cases l with
    | row d r => cases first
    | opens d => rfl
    | closes d => rfl

theorem of_mem_linesCalls {ls : List Line} {p : Cursor} {c : Call} (h : c ∈ linesCalls p ls) :
    ∃ q, c = nativeCallAt q := by
  induction ls generalizing p with
  | nil => cases h
  | cons l ls ih =>
    rcases mem_append.mp h with h | h
    · unfold lineCalls at h
      split at h
      · exact ⟨_, mem_singleton.mp h⟩
      all_goals cases h
    · exact ih h

theorem length_linesCalls (o : Outline Target) (d : Nat) (p : Cursor) :
    (linesCalls p ((o.map Row.call).lines d)).length = o.rows := by
  induction o generalizing d p with
  | done => rfl
  | row x o ih => exact congrArg (· + 1) (ih d _)
  | block body o ihBody ih =>
    simp only [Outline.map, Outline.lines, linesCalls, linesCalls_append, lineCalls, nil_append,
      length_append, ihBody, ih, Outline.rows]

theorem makesCalls_outline (o : Outline Target) (d : Nat) (p : Cursor) :
    MakesCalls (visitStats ((o.map Row.call).stats d p)) (linesCalls p ((o.map Row.call).lines d)) := by
  induction o generalizing d p with
  | done => exact makesCalls_nil
  | row x o ih => exact MakesCalls.cons (fun _ _ _ _ => ⟨_, _, rfl⟩) (ih d _)
  | block body o ihBody ih =>
    let q := (Line.opens d).next p
    let inner := (body.map Row.call).lines (d + 1)
    let q' := (Line.closes d).next (afterLines q inner)
    have recorded : linesCalls p ((Outline.map Row.call (.block body o)).lines d) =
        linesCalls q inner ++ linesCalls q' ((o.map Row.call).lines d) := by
      simp only [Outline.map, Outline.lines, linesCalls, linesCalls_append, lineCalls, nil_append]
      rfl
    rw [recorded]
    exact MakesCalls.cons (ihBody (d + 1) q) (ih d q')

/-! ## What is found -/

theorem straight_block {body : List Stat} (h : Straight body) :
    ∀ n ∈ (Stat.block body).walk, IsPlain n := by
  rw [Stat.walk]
  simp only [forall_mem_cons]
  exact ⟨⟨fun _ => rfl, rfl, rfl⟩, ⟨fun _ => rfl, rfl, rfl⟩, h.plain⟩

theorem isPlain_of_mem_row (x : Target) (p : Cursor) : ∀ n ∈ ((Row.call x).stat p).walk, IsPlain n := by
  let q := p.ahead (x.text.length + 3) 4
  have walk : ((Row.call x).stat p).walk =
      [.stat ((Row.call x).stat p), .expr (nameAt (p.token .name x.text)), .expr (nativeCallExpr q),
       .expr (nameAt (nativeToken q))] := rfl
  rw [walk]
  simp only [forall_mem_cons, not_mem_nil, isPlain_name, true_and]
  exact ⟨⟨fun _ => rfl, rfl, rfl⟩, ⟨fun _ => rfl, rfl, rfl⟩, by simp⟩

theorem straight_outline (o : Outline Target) (d : Nat) (p : Cursor) :
    Straight ((o.map Row.call).stats d p) := by
  induction o generalizing d p with
  | done => exact straight_nil
  | row x o ih => exact (ih _ _).cons (isPlain_of_mem_row x _) fun k name => ⟨rfl, rfl⟩
  | block body o ihBody ih =>
    exact (ih _ _).cons (straight_block (ihBody _ _)) fun k name => ⟨rfl, rfl⟩

def wholeScope (lines : List Chars) : Scope :=
  ⟨"<global>", 1, lines.length, none, .global, false, [], []⟩

section Findings

variable {calls : List Call} (natives : ∀ c ∈ calls, ∃ p, c = nativeCallAt p) (lines : List Chars)

include natives

theorem repeatedFindings_natives : Rules.repeatedFindings {} (Tracker.start lines).scopes calls =
      (Rules.repeatedFinding? {} 0 (wholeScope lines) "PlayerId" calls).toList := by
  have expensive : calls.filter (fun c => Vocabulary.expensiveCalls.contains c.fullName) = calls := by
    refine filter_eq_self.mpr fun c hc => ?_
    obtain ⟨p, rfl⟩ := natives c hc
    exact (by decide : Vocabulary.expensiveCalls.contains "PlayerId" = true)
  rw [Rules.repeatedFindings, expensive]
  by_cases empty : calls = []
  · subst empty
    rfl
  · have byFunction : Rules.callsByFunction (Tracker.start lines).scopes calls =
        [(0, [("PlayerId", calls)])] := by
      rw [Rules.callsByFunction, groupOn_eq_singleton (k := 0) _ empty]
      · rw [map_singleton, groupOn_eq_singleton (k := "PlayerId") _ empty]
        intro c hc
        obtain ⟨p, rfl⟩ := natives c hc
        rfl
      · intro c hc
        obtain ⟨p, rfl⟩ := natives c hc
        rfl
    rw [byFunction]
    show (([("PlayerId", calls)].filterMap fun n =>
      Rules.repeatedFinding? {} 0 (wholeScope lines) n.1 n.2) ++ []) = _
    rw [append_nil, filterMap_cons]
    cases Rules.repeatedFinding? {} 0 (wholeScope lines) "PlayerId" calls <;> rfl

theorem callFindings_natives : calls.filterMap (Rules.appendFinding? lines) = [] ∧
    calls.filterMap (Rules.lengthFinding? lines) = [] ∧
    calls.filterMap (Rules.powerFinding? lines) = [] ∧
    calls.filterMap (Rules.debugFinding? lines) = [] ∧
    calls.filterMap (Rules.distanceFinding? lines) = [] := by
  have silent : Vocabulary.debugFunctions.contains "PlayerId" = false := by decide
  refine ⟨?_, ?_, ?_, ?_, ?_⟩ <;> refine filterMap_eq_nil_iff.mpr fun c hc => ?_ <;>
    obtain ⟨p, rfl⟩ := natives c hc
  · rfl
  · rfl
  · rfl
  · rw [Rules.debugFinding?, nativeCallAt, silent, Bool.and_false]
    rfl
  · rfl

end Findings

variable {lines : List Chars} {f : Finding} {calls : List Call}

theorem of_mem_propertyFindings
    (h : f ∈ Rules.propertyFindings lines calls) :
    f.severity = .yellow ∧ f.pattern = "oxlib_cache_suggestion" := by
  obtain ⟨g, -, hg⟩ := mem_filterMap.mp h
  obtain ⟨c, -, rfl⟩ := Option.map_eq_some_iff.mp hg
  exact ⟨rfl, rfl⟩

theorem isFrequent_iff (lines : List Chars) (calls : List Call) :
    Rules.isFrequent {} (wholeScope lines) calls ↔ 4 ≤ calls.length := by
  show decide ((4 : Int) ≤ (calls.length : Int)) = true ↔ _
  rw [decide_eq_true_iff]
  omega

theorem of_repeatedFinding?
    (h : Rules.repeatedFinding? {} 0 (wholeScope lines) "PlayerId" calls = some f) :
    4 ≤ calls.length ∧ f.severity = .green ∧ f.pattern = "repeated_PlayerId" ∧
      f.details.calls? "calls" = some calls ∧ f.details.scope? "scope" = some (wholeScope lines) := by
  unfold Rules.repeatedFinding? at h
  split at h
  · rename_i frequent
    cases h
    have name : Rules.repeatedPattern "PlayerId" = "repeated_PlayerId" := by decide
    exact ⟨(isFrequent_iff lines calls).mp frequent, rfl, name, rfl, rfl⟩
  · cases h

theorem repeatedFinding?_isSome (lines : List Chars) (h : 4 ≤ calls.length) :
    (Rules.repeatedFinding? {} 0 (wholeScope lines) "PlayerId" calls).isSome := by
  rw [Rules.repeatedFinding?, if_pos ((isFrequent_iff lines calls).mpr h)]
  rfl

theorem fixable_outline {repeated writes properties : List Finding}
    (hr : ∀ f ∈ repeated, f.severity = .green ∧ f.pattern = "repeated_PlayerId")
    (hw : ∀ f ∈ writes, f.severity = .red ∧ f.pattern = "global_write")
    (hp : ∀ f ∈ properties, f.severity = .yellow ∧ f.pattern = "oxlib_cache_suggestion") :
    fixable {} (repeated ++ writes ++ properties) = repeated := by
  have names : ∀ f ∈ repeated ++ writes ++ properties, fixedBySeverity f.pattern := by
    simp only [forall_mem_append]
    refine ⟨⟨fun f hf => ?_, fun f hf => ?_⟩, fun f hf => ?_⟩
    · rw [(hr f hf).2]
      decide
    · rw [(hw f hf).2]
      decide
    · rw [(hp f hf).2]
      decide
  rw [fixable_eq_filter {} names, filter_append, filter_append, filter_eq_self.mpr,
    filter_eq_nil_iff.mpr, filter_eq_nil_iff.mpr, append_nil, append_nil]
  · intro f hf
    rw [(hp f hf).1]
    decide
  · intro f hf
    rw [(hw f hf).1]
    decide
  · intro f hf
    rw [(hr f hf).1]
    decide

theorem findings_outline (o : Outline Target) (assigns : List Assignment)
    (writes : List (String × Nat)) :
    let source := (o.map Row.call).text
    let calls := linesCalls .start ((o.map Row.call).lines 0)
    fixable {} ((visited source ((o.map Row.call).stats 0 .start) calls assigns writes).findings {}) =
      (Rules.repeatedFinding? {} 0 (wholeScope (Text.lines source)) "PlayerId" calls).toList := by
  intro source calls
  have natives : ∀ c ∈ calls, ∃ p, c = nativeCallAt p := fun c => of_mem_linesCalls
  obtain ⟨appends, lengths, powers, debugs, distances⟩ :=
    callFindings_natives natives (Text.lines source)
  rw [(straight_outline o 0 .start).findings_eq]
  simp only [appends, lengths, powers, debugs, distances, repeatedFindings_natives natives,
    append_nil, nil_append]
  refine fixable_outline (fun f hf => ?_) (fun f hf => ?_) fun f hf => of_mem_propertyFindings hf
  · obtain ⟨-, green, name, -⟩ := of_repeatedFinding? (Option.mem_toList.mp hf)
    exact ⟨green, name⟩
  · obtain ⟨w, -, hw⟩ := mem_filterMap.mp hf
    exact of_globalWriteFinding? hw

theorem visitSource_outline (o : Outline Target) : ∃ assigns writes, visitSource (o.map Row.call).text =
      .ok (.analyzed (visited (o.map Row.call).text ((o.map Row.call).stats 0 .start)
        (linesCalls .start ((o.map Row.call).lines 0)) assigns writes)) := by
  refine (straight_outline o 0 .start).exists_visitSource (Outline.parse_text _)
    (makesCalls_outline o 0 .start) fun c hc => ?_
  obtain ⟨p, rfl⟩ := of_mem_linesCalls hc
  rfl

/-! ## What is replaced -/

def usedLine : Line → Line
  | .row d (.call x) => .row d (.use x)
  | l => l

def linePieces : Line → List Piece
  | .row d (.call x) =>
    [.kept ((Line.row d (.call x)).indent.chars ++ (x.text ++ [' ', '=', ' '])),
     .replaced nativeCall resultName.text, .kept ['\n']]
  | l => [.kept (l.text ++ ['\n'])]

theorem before_linePieces (ls : List Line) :
    (ls.flatMap linePieces).flatMap Piece.before = render ls := by
  have line (l : Line) : (linePieces l).flatMap Piece.before = l.text ++ ['\n'] := by
    unfold linePieces
    split <;> simp [Piece.before, Line.text, Line.code, Row.code]
  simp only [flatMap_assoc, line, render]

theorem after_linePieces (ls : List Line) :
    (ls.flatMap linePieces).flatMap Piece.after = render (ls.map usedLine) := by
  have line (l : Line) : (linePieces l).flatMap Piece.after = (usedLine l).text ++ ['\n'] := by
    unfold linePieces usedLine
    split <;> simp [Piece.after, Line.text, Line.code, Line.indent, Row.code]
  simp only [flatMap_assoc, line, render, flatMap_map]

theorem proper_linePieces (ls : List Line) : ∀ q ∈ ls.flatMap linePieces, q.Proper := by
  intro q hq
  obtain ⟨l, -, hq⟩ := mem_flatMap.mp hq
  unfold linePieces at hq
  split at hq
  · simp only [mem_cons, not_mem_nil, or_false] at hq
    rcases hq with rfl | rfl | rfl
    · trivial
    · exact cons_ne_nil _ _
    · trivial
  · obtain rfl := mem_singleton.mp hq
    trivial

theorem lines_map_use (o : Outline Target) (d : Nat) :
    (o.map Row.use).lines d = ((o.map Row.call).lines d).map usedLine := by
  induction o generalizing d with
  | done => rfl
  | row x o ih => simp [Outline.map, Outline.lines, usedLine, ih]
  | block body o ihBody ih => simp [Outline.map, Outline.lines, usedLine, ihBody, ih]

theorem start_lt_of_mem_linePieces {place : Nat} {ls : List Line} {e : Edit}
    (h : e ∈ pieceEdits place (ls.flatMap linePieces)) : (place : Int) < e.start := by
  induction ls generalizing place with
  | nil => cases h
  | cons l ls ih =>
    rw [flatMap_cons, pieceEdits_append] at h
    rcases mem_append.mp h with h | h
    · unfold linePieces at h
      split at h
      · rename_i d x
        simp only [pieceEdits, mem_cons, not_mem_nil, or_false] at h
        subst h
        simp only [length_append, length_cons]
        omega
      · cases h
    · have := ih h
      omega

def playerIdCopy : ResultCopy where
  declaration := localWord ++ ' ' :: (resultName.text ++ ' ' :: '=' :: ' ' :: nativeCall)
  name := resultName.text
  call := nativeCall

theorem resultCopy?_repeated (h : f.pattern = "repeated_PlayerId") :
    resultCopy? f = some playerIdCopy := by
  rw [resultCopy?, h]
  rfl

theorem afterLines_append (p : Cursor) (ls ms : List Line) :
    afterLines p (ls ++ ms) = afterLines (afterLines p ls) ms := foldl_append

theorem line_afterLines (p : Cursor) (ls : List Line) : (afterLines p ls).line = p.line + ls.length := by
  induction ls generalizing p with
  | nil => rfl
  | cons l ls ih =>
    have := ih (l.next p)
    rw [l.line_next] at this
    rw [length_cons]
    exact this.trans (by omega)

theorem offset_afterLines (p : Cursor) (ls : List Line) :
    (afterLines p ls).offset = p.offset + (render ls).length := by
  induction ls generalizing p with
  | nil => rfl
  | cons l ls ih =>
    have := ih (l.next p)
    rw [l.offset_next] at this
    rw [render_cons, length_append, length_cons]
    exact this.trans (by omega)

theorem exprSpan_nativeCallExpr (source : Chars) (q : Cursor) :
    exprSpan source (nativeCallExpr q) = (some q.offset, some (q.offset + nativeCall.length)) := by
  have first : (nameAt (nativeToken q)).first = .at (q.token .name nativeName.text) := rfl
  have last : tokenEnd (some (closeToken q)) = some (q.offset + nativeCall.length) := rfl
  have span : callSpan source (nameAt (nativeToken q)) (some (closeToken q)) =
      (some q.offset, tokenEnd (some (closeToken q))) := by
    unfold callSpan
    rw [first, looksLikeParen_name]
    rfl
  rw [nativeCallExpr, exprSpan, span, last]

theorem uses_lines (before ls : List Line) :
    (linesCalls (afterLines .start before) ls).filterMap (resultUse? (render (before ++ ls)) playerIdCopy) =
      pieceEdits (render before).length (ls.flatMap linePieces) := by
  induction ls generalizing before with
  | nil => rfl
  | cons l ls ih =>
    let p := afterLines .start before
    have next : afterLines .start (before ++ [l]) = l.next p := afterLines_append _ _ _
    have sizes : (render (before ++ [l])).length = (render before).length + (render [l]).length := by
      rw [render_append, length_append]
    have others := ih (before ++ [l])
    rw [next, append_assoc, singleton_append, sizes] at others
    have size : (render [l]).length = ((linePieces l).flatMap Piece.before).length := by
      rw [← before_linePieces, flatMap_singleton]
    have offset : p.offset = (render before).length := (offset_afterLines _ _).trans (Nat.zero_add _)
    rw [linesCalls, filterMap_append, others, flatMap_cons, pieceEdits_append, size]
    congr 1
    unfold lineCalls
    split
    · rename_i d x
      let q := callPlace d x p
      have place : q.offset = (render before).length +
          ((Line.row d (.call x)).indent.chars ++ (x.text ++ [' ', '=', ' '])).length := by
        simp only [q, callPlace, Cursor.ahead, Line.inside, Cursor.offset_indented, offset,
          length_append, length_cons, length_nil]
        omega
      have number : q.line = before.length + 1 := by
        simp only [q, callPlace, Cursor.ahead, Line.inside, Cursor.line_indented, p, line_afterLines]
        exact Nat.add_comm _ _
      have here : (before ++ .row d (.call x) :: ls)[before.length]? = some (.row d (.call x)) := by simp
      have text := lineText?_render here
      have use : resultUse? (render (before ++ .row d (.call x) :: ls)) playerIdCopy (nativeCallAt q) =
          some ⟨q.offset, some (q.offset + nativeCall.length : Nat), resultName.text, 0⟩ := by
        have line : (nativeCallAt q).line = before.length + 1 := number
        have node : (nativeCallAt q).node = nativeCallExpr q := rfl
        rw [resultUse?, line, text, Option.any_some, isDeclaredIn_call rfl, node,
          exprSpan_nativeCallExpr]
        rfl
      rw [filterMap_cons_some use, filterMap_nil, linePieces, place]
      rfl
    all_goals rfl

/-! ## Where the copy is declared -/

theorem bodyIndent_spaces (i : Indent) : (bodyIndent i.chars).all isSpace := by
  have spaces := i.spaces
  unfold bodyIndent
  split
  · rfl
  · rfl
  · rename_i c one
    rw [one] at spaces
    exact spaces
  · rw [all_eq_true] at spaces ⊢
    exact fun c hc => spaces c (mem_of_mem_take hc)

def bodyIndentOf (i : Indent) : Indent := ⟨bodyIndent i.chars, bodyIndent_spaces i⟩

section Declaration

variable {ls front middle behind : List Line} {depth : Nat} {x : Target}
  (cut : CutAtRows ls front depth x middle behind)

include cut

theorem getElem?_cut : ls[front.length]? = some (.row depth (.call x)) := by
  rw [cut.lines]
  simp

theorem excess_cut : let numbers := linesBetween 1 (front.length + 1 + 1)
    let lines := numbers.filterMap fun (n : Nat) => lineText? (render ls) n
    excess '\x7b' '\x7d' lines = 0 ∧ excess '(' ')' lines = 0 := by
  intro numbers lines
  have room : front.length + 1 ≤ ls.length := by
    rw [cut.lines, length_append, length_cons]
    omega
  have texts : numbers.map (fun (n : Nat) => lineText? (render ls) n) =
      (ls.take (front.length + 1)).map fun l => some (l.text ++ ['\n']) :=
    map_lineText?_linesBetween 0 room
  have shown : lines = (ls.take (front.length + 1)).map fun l => l.text ++ ['\n'] := by
    show numbers.filterMap (id ∘ fun (n : Nat) => lineText? (render ls) n) = _
    rw [← filterMap_map, texts, filterMap_map]
    exact congrFun filterMap_eq_map _
  rw [shown]
  exact excess_lines _

theorem startsLoop_cut : ((linesBetween 1 (front.length + 1)).any fun (n : Nat) =>
    (lineText? (render ls) n).any startsLoop) = false := by
  have room : front.length ≤ ls.length := by
    rw [cut.lines, length_append]
    omega
  have texts : (linesBetween 1 (front.length + 1)).map (fun (n : Nat) => lineText? (render ls) n) =
      (ls.take front.length).map fun l => some (l.text ++ ['\n']) :=
    map_lineText?_linesBetween 0 room
  have lead : ls.take front.length = front := by rw [cut.lines, take_left]
  show (linesBetween 1 (front.length + 1)).any
    ((fun t => t.any startsLoop) ∘ fun (n : Nat) => lineText? (render ls) n) = false
  rw [← any_map, texts, lead, any_map]
  refine any_eq_false.mpr fun l hl => ?_
  have plain := cut.lead l hl
  cases l with
  | row d r => cases plain
  | opens d => simp [startsLoop_text (l := .opens d) (.inl rfl)]
  | closes d => simp [startsLoop_text (l := .closes d) (.inr rfl)]

theorem blockEnds_cut : blockEnds (render ls) (4 * depth) (front.length + 1 + 1)
    (front.length + 1 + middle.length + 1) = middle.any (closesAt depth) := by
  have room : front.length + 1 + middle.length ≤ ls.length := by
    rw [cut.lines]
    simp only [length_append, length_cons]
    omega
  have rest : ls.drop (front.length + 1) = middle ++ behind := by
    rw [cut.lines, ← drop_drop, drop_left]
    rfl
  rw [blockEnds_render depth (front.length + 1) room, rest, Nat.add_sub_cancel_left, take_left]

/-- The declaration is put in front of the first row, or in front of the second line if the block of
the first row ends before the last one. -/
theorem declarationEdit?_cut (lines : List Chars) :
    let leaves := middle.any (closesAt depth)
    let place := (render (ls.take (if leaves then 1 else front.length))).length
    let indent := if leaves then bodyIndentOf (.ofDepth depth) else .ofDepth depth
    declarationEdit? (render ls) playerIdCopy (wholeScope lines) (front.length + 1)
      (front.length + 1 + middle.length) =
        some ⟨place, some (place : Nat), indent.chars ++ playerIdCopy.declaration ++ ['\n'], 100⟩ := by
  intro leaves place indent
  have here := lineSpan_render (getElem?_cut cut)
  have noComment (n : Nat) : endsInComment ((render ls).take n) = false :=
    endsInComment_eq_false fun h =>
      absurd (mem_of_mem_take h) (not_mem_render (by decide) (by decide))
  have plain : playerIdCopy.call.contains ':' = false := by decide
  obtain ⟨braces, parens⟩ := excess_cut cut
  have noLoop := startsLoop_cut cut
  have own := lineIndent_render (getElem?_cut cut)
  have ends := blockEnds_cut cut
  have size : (Line.row depth (.call x)).indent.chars.length = 4 * depth := length_replicate
  have rows : leaves = true → 0 < middle.length := fun leaves => by
    obtain ⟨l, hl, -⟩ := any_eq_true.mp leaves
    exact length_pos_of_mem hl
  have second : leaves = true → ∃ stop, lineSpan (render ls) ((1 : Nat) + 1) =
      some ((render (ls.take 1)).length, stop) := by
    intro leaves
    have room : 1 < ls.length := by
      have := rows leaves
      rw [cut.lines]
      simp only [length_append, length_cons]
      omega
    exact ⟨_, lineSpan_render (n := 1) (List.getElem?_eq_getElem room)⟩
  unfold declarationEdit?
  simp only [here, noComment, plain, braces, parens, noLoop, own, size, ends, wholeScope, bind,
    Option.bind_some, Bool.false_and, Bool.false_or, Bool.or_self, Int.lt_irrefl, decide_false,
    Bool.false_eq_true, if_false]
  cases h : leaves with
  | true =>
    obtain ⟨stop, second⟩ := second h
    have both : (middle.any (closesAt depth) && decide (front.length + 1 <
        front.length + 1 + middle.length)) = true := by
      rw [decide_eq_true (Nat.lt_add_of_pos_right (rows h)), Bool.and_true]
      exact h
    simp only [both, if_true, second, Option.bind_some, indent, place, h]
    rfl
  | false =>
    have both : (middle.any (closesAt depth) && decide (front.length + 1 <
        front.length + 1 + middle.length)) = false := by
      rw [show middle.any (closesAt depth) = false from h, Bool.false_and]
    simp only [both, Bool.false_eq_true, if_false, indent, place, h]
    rfl

end Declaration

/-! ## The fixed script -/

theorem line_callPlace (d : Nat) (x : Target) (p : Cursor) : (callPlace d x p).line = p.line := by
  simp only [callPlace, Cursor.ahead, Line.inside, Cursor.line_indented]

theorem isCall_of_mem_lines {o : Outline Target} {d : Nat} {l : Line} (h : l ∈ (o.map Row.call).lines d)
    (row : l.isRow) : ∃ e x, l = .row e (.call x) := by
  induction o generalizing d with
  | done => cases h
  | row x o ih =>
    rcases mem_cons.mp h with rfl | h
    · exact ⟨d, x, rfl⟩
    · exact ih h
  | block body o ihBody ih =>
    simp only [Outline.map, Outline.lines, mem_cons, mem_append] at h
    rcases h with rfl | h | rfl | h
    · cases row
    · exact ihBody h
    · cases row
    · exact ih h

section Calls

variable {ls front middle behind : List Line} {depth : Nat} {x : Target}
  (cut : CutAtRows ls front depth x middle behind)
  (rows : ∀ l ∈ ls, l.isRow → ∃ e y, l = .row e (.call y))

include cut rows

theorem ends_linesCalls : ∃ first last, (linesCalls .start ls).head? = some first ∧
    (linesCalls .start ls).getLast? = some last ∧ first.line = front.length + 1 ∧
      last.line = front.length + 1 + middle.length := by
  let p := afterLines .start front
  let q := (Line.row depth (.call x)).next p
  let first := nativeCallAt (callPlace depth x p)
  have calls : linesCalls .start ls = first :: linesCalls q middle := by
    rw [cut.lines, linesCalls_append, linesCalls_eq_nil cut.lead, nil_append, linesCalls, linesCalls_append,
      linesCalls_eq_nil cut.blank, append_nil]
    rfl
  have line : p.line = front.length + 1 := (line_afterLines _ _).trans (Nat.add_comm _ _)
  have firstLine : first.line = front.length + 1 := (line_callPlace depth x p).trans line
  rcases eq_nil_or_concat' middle with rfl | ⟨others, l, rfl⟩
  · exact ⟨first, first, by rw [calls]; rfl, by rw [calls]; rfl, firstLine, firstLine⟩
  · obtain ⟨e, y, rfl⟩ := rows l (by rw [cut.lines]; simp) (cut.ends l (by simp))
    let last := nativeCallAt (callPlace e y (afterLines q others))
    have place : last.line = (afterLines q others).line := line_callPlace e y _
    have lastCalls : linesCalls q (others ++ [.row e (.call y)]) = linesCalls q others ++ [last] :=
      linesCalls_append _ _ _
    refine ⟨first, last, by rw [calls]; rfl, ?_, firstLine, ?_⟩
    · rw [calls, lastCalls, ← cons_append, List.getLast?_concat]
    · rw [place, line_afterLines, Line.line_next, line, length_append, length_singleton]
      omega

theorem repeatedCallEdits_cut
    (pattern : f.pattern = "repeated_PlayerId")
    (calls : f.details.calls? "calls" = some (linesCalls .start ls))
    (scope : f.details.scope? "scope" = some (wholeScope lines)) {declaration : Edit}
    (h : declarationEdit? (render ls) playerIdCopy (wholeScope lines) (front.length + 1)
      (front.length + 1 + middle.length) = some declaration) :
    repeatedCallEdits (render ls) f = declaration :: pieceEdits 0 (ls.flatMap linePieces) := by
  obtain ⟨first, last, head, tail, firstLine, lastLine⟩ := ends_linesCalls cut rows
  have shown : lineText? (render ls) ((front.length + 1 : Nat) : Int) =
      some ((Line.row depth (.call x)).text ++ ['\n']) := lineText?_render (getElem?_cut cut)
  have own : playerIdCopy.isDeclaredIn ((Line.row depth (.call x)).text ++ ['\n']) = false :=
    isDeclaredIn_call rfl depth x
  have uses : (linesCalls .start ls).filterMap (resultUse? (render ls) playerIdCopy) =
      pieceEdits 0 (ls.flatMap linePieces) := uses_lines [] ls
  unfold repeatedCallEdits cachePlan?
  simp only [calls, scope, head, tail, resultCopy?_repeated pattern, firstLine, lastLine, shown, own, h,
    bind, Option.bind_some, Option.any_some, Bool.false_eq_true, if_false, pure, Option.map_some,
    Option.getD_some, CachePlan.edits, uses]
  rfl

end Calls

def withCopy (i : Indent) (o : Outline Target) : Outline Row :=
  if 4 ≤ o.rows then .insertAt i (if o.leavesFirst then 1 else o.lead) (o.map Row.use)
  else o.map Row.call

theorem apply_declaration (o : Outline Target) (i : Indent) {k : Nat} (h : k ≤ o.height) :
    let ls := (o.map Row.call).lines 0
    let place := (render (ls.take k)).length
    Edit.apply (⟨place, some (place : Nat), i.chars ++ playerIdCopy.declaration ++ ['\n'], 100⟩ ::
      pieceEdits 0 (ls.flatMap linePieces)) (render ls) =
        .ok (Outline.insertAt i k (o.map Row.use)).text := by
  intro ls place
  have cut : ls.flatMap linePieces =
      (ls.take k).flatMap linePieces ++ (ls.drop k).flatMap linePieces := by
    rw [← flatMap_append, take_append_drop]
  have start : place = ((ls.take k).flatMap linePieces |>.flatMap Piece.before).length := by
    rw [before_linePieces]
  have applied := apply_insertion (by rw [← cut]; exact proper_linePieces ls) start
    (fun e he => start_lt_of_mem_linePieces he)
    (i.chars ++ playerIdCopy.declaration ++ ['\n']) (show (0 : Int) < 100 by decide)
  rw [← cut, before_linePieces, after_linePieces, after_linePieces] at applied
  obtain ⟨e, lines⟩ := Outline.lines_insertAt i (o.map Row.use) 0 (k := k) (by simpa using h)
  have copy : (Line.row e (.copy i)).text = i.chars ++ playerIdCopy.declaration := rfl
  rw [applied, Outline.text, lines, lines_map_use, ← map_take, ← map_drop, render_append,
    render_cons, copy]
  simp [ls]

theorem fixSource_outline (o : Outline Target) :
    ∃ fixed i, fixSource {} (o.map Row.call).text = .ok fixed ∧
      fixed.content = (withCopy i o).text := by
  obtain ⟨assigns, writes, visit⟩ := visitSource_outline o
  let source := (o.map Row.call).text
  let ls := (o.map Row.call).lines 0
  have found := findings_outline o assigns writes
  have size : (linesCalls .start ls).length = o.rows := length_linesCalls o 0 .start
  by_cases many : 4 ≤ o.rows
  · have frequent : 4 ≤ (linesCalls .start ls).length := size.symm ▸ many
    obtain ⟨f, hf⟩ := Option.isSome_iff_exists.mp (repeatedFinding?_isSome (Text.lines source) frequent)
    obtain ⟨-, -, pattern, calls, scope⟩ := of_repeatedFinding? hf
    obtain ⟨front, depth, x, middle, behind, cut, lead, -, leaves⟩ :=
      Outline.exists_cutAtRows (o := o) (by omega) 0
    let i := if o.leavesFirst then bodyIndentOf (.ofDepth depth) else .ofDepth depth
    have declaration := declarationEdit?_cut cut (Text.lines source)
    rw [leaves, lead] at declaration
    have edits : sourceEdits {} source ((visited source ((o.map Row.call).stats 0 .start)
        (linesCalls .start ls) assigns writes).findings {}) = repeatedCallEdits source f := by
      rw [sourceEdits, found, hf, Option.toList_some, flatMap_singleton, findingEdits, pattern]
      rfl
    have below : (if o.leavesFirst then 1 else o.lead) ≤ o.height := by
      have := o.rows_le_height
      have := Outline.lead_lt_height (o := o) (by omega)
      split <;> omega
    have asked := edits.trans (repeatedCallEdits_cut cut (fun l hl => isCall_of_mem_lines hl) pattern
      calls scope (by rw [lead]; exact declaration))
    have applied : Edit.apply _ source = _ :=
      (congrArg (Edit.apply · source) asked).trans (apply_declaration o i below)
    obtain ⟨fixed, done, content⟩ := fixSource_of_apply visit applied
    exact ⟨fixed, i, done, by rw [content, withCopy, if_pos many]⟩
  · have none : Rules.repeatedFinding? {} 0 (wholeScope (Text.lines source)) "PlayerId"
        (linesCalls .start ls) = none :=
      if_neg fun frequent => many (size ▸ (isFrequent_iff _ _).mp frequent)
    have edits : sourceEdits {} source ((visited source ((o.map Row.call).stats 0 .start)
        (linesCalls .start ls) assigns writes).findings {}) = [] := by
      rw [sourceEdits, found, none]
      rfl
    have applied : Edit.apply [] source = .ok source := rfl
    rw [← edits] at applied
    obtain ⟨fixed, done, content⟩ := fixSource_of_apply visit applied
    exact ⟨fixed, .ofDepth 0, done, by rw [content, withCopy, if_neg many]⟩

theorem unbound_withCopy (i : Indent) (o : Outline Target) :
    (withCopy i o).unbound false = (decide (4 ≤ o.rows) && o.leavesFirst && !o.isHeld) := by
  unfold withCopy
  by_cases many : 4 ≤ o.rows
  · rw [if_pos many, decide_eq_true many, Bool.true_and]
    cases leaves : o.leavesFirst with
    | true => exact Outline.unbound_insertAt_one i leaves
    | false => exact Outline.unbound_insertAt_lead i (by omega) leaves
  · rw [if_neg many, decide_eq_false many]
    exact Outline.unbound_calls o false

/-- A script that assigns the result of a call in nested blocks parses and can be fixed, and what
comes out parses. A copy of the result is then used where nothing binds it exactly if there are four
calls or more, the block of the first one ends before the last one, and no block that opens on the
first line holds them all: the declaration goes in front of the second line in that case. -/
theorem copies_unbound_iff (o : Outline Target) : (Chunk.parse? (o.map Row.call).text).isSome ∧
      ∃ fixed chunk, fixSource {} (o.map Row.call).text = .ok fixed ∧
        Chunk.parse? fixed.content = some chunk ∧
        (chunk.occursFree "playerId" ↔ 4 ≤ o.rows ∧ o.leavesFirst ∧ ¬o.isHeld) := by
  obtain ⟨fixed, i, done, content⟩ := fixSource_outline o
  refine ⟨by rw [Outline.parse_text]; rfl, fixed, (withCopy i o).stats 0 .start, done, ?_, ?_⟩
  · rw [content, Outline.parse_text]
  · have same : Chunk.occursFree "playerId" ((withCopy i o).stats 0 .start) =
        (decide (4 ≤ o.rows) && o.leavesFirst && !o.isHeld) :=
      (Outline.occursFree_stats _ _ _ _).trans (unbound_withCopy i o)
    simp [same, and_assoc]

/-- The smallest script of this kind: the first block holds the declaration, and the calls after it
are replaced too. -/
theorem copies_unbound_after_block :
    let source := "do\n    a = PlayerId()\n    b = PlayerId()\nend\nc = PlayerId()\nd = PlayerId()\n".toList
    (Chunk.parse? source).isSome ∧ ∃ fixed ∈ (fixSource {} source).toOption,
      fixed.content = ("do\n  local playerId = PlayerId()\n    a = playerId\n    b = playerId\nend\n" ++
        "c = playerId\nd = playerId\n").toList ∧
      ∃ chunk ∈ Chunk.parse? fixed.content, chunk.occursFree "playerId" := by
  decide +kernel

end LuaTune.Fix
