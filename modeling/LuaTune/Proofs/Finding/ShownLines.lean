import LuaTune.Fix.Repeated
import LuaTune.Proofs.Finding.Kinds
import LuaTune.Proofs.Text.LineTables

/-!
# The lines that findings show

The parser and the fixes number lines by newlines; the lines that findings show, and that are
searched for tests of a variable, are cut at every line break. Both mean the same line as long as no
other break has text behind it.
-/

namespace LuaTune.Analysis

open Text

theorem shownLine_succ (table : List Chars) (n : Nat) :
    shownLine table (n + 1) = String.ofList (stripRight (table[n]?.getD [])) := by
  rw [shownLine, if_neg (Nat.succ_ne_zero n), Nat.add_sub_cancel]
  cases table[n]? <;> rfl

/-- The two tables show the same first lines exactly if no line break other than the newline has text
behind it in them. -/
theorem shownLine_alike_iff {source : Chars} (unified : '\r' ∉ source) (n : Nat) :
    (∀ i ≤ n, shownLine (lines source) i = shownLine (newlineLines source) i) ↔
      hasInnerBreak (firstLines n source) = false := by
  rw [← lines_alike_iff unified]
  constructor
  · intro h i hi
    have same := h (i + 1) hi
    rw [shownLine_succ, shownLine_succ] at same
    exact String.ofList_injective same
  · intro h i hi
    cases i with
    | zero => rfl
    | succ i => rw [shownLine_succ, shownLine_succ, h i hi]

end LuaTune.Analysis

namespace LuaTune.Fix

open Text Analysis

/-! ## Spans of lines -/

theorem lineStart_zero (lines : List Chars) : lineStart lines 0 = 0 := rfl

theorem lineStart_cons (l : Chars) (lines : List Chars) (n : Nat) :
    lineStart (l :: lines) (n + 1) = l.length + 1 + lineStart lines n := by
  rw [lineStart, List.take_succ_cons, List.map_cons, sumOf_cons]
  rfl

theorem lineStart_succ {lines : List Chars} {n : Nat} {l : Chars} (h : lines[n]? = some l) :
    lineStart lines (n + 1) = lineStart lines n + l.length + 1 := by
  induction lines generalizing n with
  | nil => cases h
  | cons first lines ih =>
    cases n with
    | zero =>
      cases h
      rw [lineStart_cons, lineStart_zero, lineStart_zero]
      omega
    | succ n =>
      rw [lineStart_cons, lineStart_cons, ih h]
      omega

variable {source : Chars} {n : Nat}

theorem lineStart_eq (h : n ≤ (newlineLines source).length) : lineStart (newlineLines source) n =
      (firstLines n source).length + if n = (newlineLines source).length then 1 else 0 := by
  induction source generalizing n with
  | nil =>
    obtain rfl | rfl : n = 0 ∨ n = 1 := by
      have : n ≤ 1 := h
      omega
    · rfl
    · rfl
  | cons c cs ih =>
    obtain ⟨l, ls, table⟩ := List.exists_cons_of_ne_nil (splitOn_ne_nil '\n' cs)
    cases n with
    | zero => simp [lineStart_zero, firstLines, Ne.symm, splitOn_ne_nil]
    | succ n =>
      rw [newlineLines, table] at ih
      rw [newlineLines, splitOn, table] at h ⊢
      by_cases newline : c = '\n'
      · simp only [if_pos newline, List.length_cons, Nat.succ_le_succ_iff] at h
        simp only [lineStart_cons, ih h, firstLines, List.length_cons, List.length_nil,
          newline, isNewline, beq_self_eq_true, if_true, Nat.succ_inj]
        omega
      · simp only [if_neg newline, List.length_cons] at h
        have rest := ih (n := n + 1) h
        rw [lineStart_cons] at rest
        simp only [if_neg newline, lineStart_cons, firstLines, List.length_cons, isNewline,
          beq_false_of_ne newline, Bool.false_eq_true, if_false] at rest ⊢
        omega

theorem lineSpan_eq (h : n < (newlineLines source).length) : lineSpan source (n + 1 : Nat) =
      some ((firstLines n source).length, (firstLines (n + 1) source).length) := by
  have number : (((n + 1 : Nat) : Int) - 1).toNat = n := by omega
  have line := List.getElem?_eq_getElem h
  have here : lineAt? (newlineLines source) (n + 1 : Nat) = some (newlineLines source)[n] := by
    rw [lineAt?, if_pos (by omega), number, line]
  have start := lineStart_eq (Nat.le_of_lt h)
  have next : lineStart (newlineLines source) (n + 1) = _ := lineStart_eq h
  rw [lineStart_succ line] at next
  rw [if_neg (Nat.ne_of_lt h)] at start
  simp only [lineSpan, here, Option.map_some, number, Option.some.injEq, Prod.mk.injEq, Int.ofNat_lt]
  refine ⟨start, ?_⟩
  split at next <;> split <;> omega

theorem lineText?_eq (h : n < (newlineLines source).length) :
    ∃ stop, stop <+: ['\n'] ∧ lineText? source (n + 1 : Nat) = some (piece isNewline n source ++ stop) := by
  obtain ⟨stop, short, text⟩ := firstLines_succ n source
  obtain ⟨rest, whole⟩ := firstLines_isPrefix (n + 1) source
  rw [List.append_assoc] at text
  rw [text] at whole
  refine ⟨stop, short, ?_⟩
  rw [lineText?, lineSpan_eq h, Option.map_some, text, List.length_append]
  exact congrArg some (slice_of_eq whole)

def lineShown (source : Chars) (line : Int) : String :=
  String.ofList (stripRight ((lineText? source line).getD []))

theorem lineShown_eq (h : n ≤ (newlineLines source).length) :
    lineShown source n = shownLine (newlineLines source) n := by
  cases n with
  | zero => rfl
  | succ n =>
    obtain ⟨stop, short, text⟩ := lineText?_eq h
    rw [lineShown, text, Option.getD_some, stripRight_append_blank (isBlank_of_prefix_newline short),
      shownLine_succ, newlineLines, getD_splitOn]

end LuaTune.Fix

namespace LuaTune.Lua

open Text LuaTune.Fix

/-! ## The lines of tokens -/

def Cursor.IsBehind (p : Cursor) (passed : Chars) : Prop :=
  p.offset = passed.length ∧ p.line = countChar '\n' passed + 1

theorem Cursor.IsBehind.pass {p : Cursor} {passed : Chars} (h : p.IsBehind passed) (cs : Chars) :
    (p.pass cs).IsBehind (passed ++ cs) := by
  obtain ⟨offset, line⟩ := h
  constructor
  · rw [List.length_append, ← offset]
    rfl
  · rw [countChar, List.count_append, Nat.add_right_comm]
    rw [countChar] at line
    rw [← line]
    rfl

theorem token_behind {skip : Nat} {p : Cursor} {cs : Chars} {tok : Token} (front : Chars)
    (found : tok ∈ scanFrom skip p cs) (h : p.IsBehind (front ++ cs.take skip)) :
    ∃ passed c rest, front ++ cs = passed ++ c :: rest ∧ tok.start = passed.length ∧
      tok.line = countChar '\n' passed + 1 := by
  induction cs generalizing skip p front with
  | nil => cases found
  | cons c cs ih =>
    have later {skip : Nat} {p : Cursor} (found : tok ∈ scanFrom skip p cs)
        (h : p.IsBehind (front ++ c :: cs.take skip)) :
        ∃ passed d rest, front ++ c :: cs = passed ++ d :: rest ∧ tok.start = passed.length ∧
          tok.line = countChar '\n' passed + 1 := by
      simpa using ih (front ++ [c]) found (by simpa using h)
    cases skip with
    | succ skip => exact later found h
    | zero =>
      have behind : p.IsBehind front := by simpa using h
      have after := behind.pass (c :: cs.take (lexeme c cs).tail)
      rw [scanFrom] at found
      split at found
      · rcases List.mem_cons.mp found with rfl | found
        · exact ⟨front, c, cs, rfl, behind.1, behind.2⟩
        · exact later found after
      · exact later found after
      · exact later found after
      · exact later found after

theorem firstLines_around (passed : Chars) (c : Char) (rest : Chars) :
    countChar '\n' passed < (newlineLines (passed ++ c :: rest)).length ∧
      (firstLines (countChar '\n' passed) (passed ++ c :: rest)).length ≤ passed.length ∧
      passed.length < (firstLines (countChar '\n' passed + 1) (passed ++ c :: rest)).length := by
  induction passed with
  | nil =>
    exact ⟨List.length_pos_iff.mpr (splitOn_ne_nil _ _), Nat.zero_le _, Nat.succ_pos _⟩
  | cons d passed ih =>
    obtain ⟨l, ls, table⟩ := List.exists_cons_of_ne_nil (splitOn_ne_nil '\n' (passed ++ c :: rest))
    rw [newlineLines, table] at ih
    rw [newlineLines, List.cons_append, splitOn, table]
    obtain ⟨inside, before, behind⟩ := ih
    by_cases newline : d = '\n'
    · subst newline
      rw [countChar, List.count_cons_self, if_pos rfl]
      exact ⟨Nat.succ_lt_succ inside, Nat.succ_le_succ before, Nat.succ_lt_succ behind⟩
    · have more (n : Nat) (cs : Chars) :
          (firstLines (n + 1) (d :: cs)).length = (firstLines (n + 1) cs).length + 1 := by
        simp [firstLines, newline]
      rw [countChar, List.count_cons_of_ne newline, if_neg newline, more]
      refine ⟨inside, ?_, Nat.succ_lt_succ behind⟩
      -- nothing has to be shown if no newline was passed
      cases count : List.count '\n' passed with
      | zero => exact Nat.zero_le _
      | succ n =>
        rw [countChar, count] at before
        rw [more]
        exact Nat.succ_le_succ before

theorem token_in_line {source : Chars} {tok : Token} (h : tok ∈ scan source) :
    ∃ span, lineSpan source tok.line = some span ∧ span.1 ≤ tok.start ∧ tok.start < span.2 := by
  obtain ⟨passed, c, rest, whole, start, line⟩ := token_behind [] h ⟨rfl, rfl⟩
  obtain ⟨inside, before, behind⟩ := firstLines_around passed c rest
  rw [← whole, List.nil_append] at inside before behind
  rw [start, line]
  exact ⟨_, lineSpan_eq inside, before, behind⟩

end LuaTune.Lua

namespace LuaTune.Analysis

open Text Lua

/-! ## Tests on lines -/

namespace Tracker

variable {t u : Tracker}

def shown (t : Tracker) (n : Nat) : Chars := stripRight ((t.line? n).getD [])

theorem append_ends {front last : String} (d : Char) (h : last.toList.getLast? = some d)
    (hd : isBlank d = false) : ∃ p d, (front ++ last).toList = p ++ [d] ∧ isBlank d = false := by
  obtain ⟨p, text⟩ := List.getLast?_eq_some_iff.mp h
  exact ⟨front.toList ++ p, d, by rw [String.toList_append, text, List.append_assoc], hd⟩

theorem guards_end (var : String) : ∀ g ∈ guards var, ∃ p d, g = p ++ [d] ∧ isBlank d = false := by
  simp only [guards, List.forall_mem_map, List.forall_mem_cons]
  exact ⟨append_ends 'n' rfl rfl, append_ends 'd' rfl rfl, append_ends 'n' rfl rfl,
    append_ends 'l' rfl rfl, append_ends 'n' rfl rfl, append_ends ':' rfl rfl, append_ends '.' rfl rfl,
    nofun⟩

theorem ofList_shown (t : Tracker) (n : Nat) : String.ofList (t.shown n) = shownLine t.lines n := by
  cases n with
  | zero => rfl
  | succ n => exact (shownLine_succ t.lines n).symm

def isTested (var : String) (l : Chars) : Bool := (guards var).any (contains l)

theorem isTested_stripRight (var : String) (l : Chars) :
    isTested var (stripRight l) = isTested var l := by
  unfold isTested
  rw [Bool.eq_iff_iff, List.any_eq_true, List.any_eq_true]
  refine exists_congr fun g => and_congr_right fun hg => ?_
  obtain ⟨p, d, rfl, hd⟩ := guards_end var g hg
  rw [contains_stripRight l p hd]

theorem isTested_nil (var : String) : isTested var [] = false := by
  refine List.any_eq_false.mpr fun g hg found => ?_
  obtain ⟨p, d, rfl, -⟩ := guards_end var g hg
  simpa using contains_iff_infix.mp found

theorem hasGuard_eq (t : Tracker) (var : String) (assigned used : Nat) : t.hasGuard var assigned used =
      (List.range' assigned (used - assigned)).any fun n => isTested var (t.shown n) := by
  unfold hasGuard
  congr 1
  funext n
  unfold shown
  cases t.line? n with
  | none => exact (isTested_nil var).symm
  | some l => exact (isTested_stripRight var l).symm

theorem hasGuard_congr {var : String} {assigned used : Nat}
    (same : ∀ n, assigned ≤ n → n < used → t.shown n = u.shown n) :
    t.hasGuard var assigned used = u.hasGuard var assigned used := by
  rw [hasGuard_eq, hasGuard_eq, Bool.eq_iff_iff, List.any_eq_true, List.any_eq_true]
  refine exists_congr fun n => and_congr_right fun hn => ?_
  rw [List.mem_range'_1] at hn
  rw [same n hn.1 (by omega)]

theorem strip_shown (t : Tracker) (n : Nat) : strip (t.shown n) = strip ((t.line? n).getD []) :=
  strip_stripRight _

theorem isSafeToGuard_eq (t : Tracker) (source : NilSource) (used : Nat) : t.isSafeToGuard source used =
      (used == source.line + 1 && source.isLocal && source.scope == t.current
        && (t.line? source.line).isSome && !unwrappable.any (startsWith (strip (t.shown used)))) := by
  rw [isSafeToGuard, strip_shown]
  cases t.line? used with
  | none =>
    have nothing : unwrappable.any (startsWith (strip [])) = false := by decide
    rw [Option.getD_none, nothing]
    rfl
  | some l => rfl

theorem isSafeToGuard_congr {source : NilSource} {used : Nat} (scope : t.current = u.current)
    (assigned : t.shown source.line = u.shown source.line) (some : u.shown source.line ≠ [])
    (same : t.shown used = u.shown used) : t.isSafeToGuard source used = u.isSafeToGuard source used := by
  have there {v : Tracker} (h : v.shown source.line ≠ []) : (v.line? source.line).isSome := by
    unfold shown at h
    cases line : v.line? source.line with
    | none => simp [line, stripRight, dropEndWhile] at h
    | some l => rfl
  rw [isSafeToGuard_eq, isSafeToGuard_eq, scope, same, there some, there (assigned ▸ some)]

end Tracker

/-! ## The lines of a visit -/

def KeepsLines (t t' : Tracker) : Prop := t'.lines = t.lines

theorem KeepsLines.of_records {p : Part} {calls : List Expr} {t t' : Tracker} (h : Records p calls t t') :
    KeepsLines t t' := by
  induction h with
  | call | assign | concat | access | names => rfl
  | aside same =>
    have lines := congrArg (fun t : Tracker => t.lines) same
    exact lines
  | andThen _ _ ih ih' => exact ih'.trans ih

theorem follows_keepsLines : Follows fun _ => KeepsLines where
  toFrames := frames_of_log (R := fun _ => KeepsLines) (fun _ => rfl) fun h k => k.trans h
  records := .of_records

theorem lines_visitChunk {c : Chunk} {lines : List Chars} {t : Tracker}
    (h : visitChunk c lines = .ok t) : t.lines = lines :=
  follows_keepsLines.visit (.block c) _ t h

end LuaTune.Analysis

namespace LuaTune

open Text Lua Analysis Rules LuaTune.Fix

variable {settings : Settings} {source : Chars}

/-! ## Findings -/

/-- Findings about a whole scope show advice or examples in place of their line. -/
def Finding.isAboutScope (f : Finding) : Bool := (f.details.get? "scope").isSome

def Finding.ShowsLine (lines : List Chars) (f : Finding) : Prop :=
  f.isAboutScope ∨ f.sourceLine = shownLine lines f.line.toNat

theorem Finding.MadeOf.showsLine {a : Analyzed} {f : Finding} {k : RuleKind}
    (made : f.MadeOf a settings k) : f.ShowsLine a.tracker.lines := by
  have aboutScope {s : Scope} (h : f.details.scope? "scope" = some s) : f.isAboutScope := by
    unfold Details.scope? at h
    split at h
    · next found => simp [Finding.isAboutScope, found]
    · cases h
  cases made with
  | form c hc rule =>
    obtain ⟨p, hp, about⟩ := rule.exists_isAbout
    exact .inr about.line
  | globals found =>
    obtain ⟨_, _, _, _, summary⟩ := of_mem_uncachedFindings found
    exact .inl (aboutScope summary.scope)
  | repeated found =>
    obtain ⟨_, _, _, -, -, -, -, -, scope, -⟩ := mem_repeatedFindings found
    exact .inl (aboutScope scope)
  | lengths notes _ => exact .inr notes.line
  | concat found => exact .inr (concatFindings_notes _ f found).1.line
  | debug c hc found => exact .inr (of_debugFinding? found).1.line
  | nilAccess _ _ found | dead _ _ found => exact .inr (by rw [found]; rfl)
  | advice p hp notes => exact .inr notes.line

theorem analyzeSource_showsLines {findings : List Finding}
    (ran : analyzeSource settings source = .ok findings) :
    ∀ f ∈ findings, f.ShowsLine (lines source) := by
  rcases analyzeSource_cases ran with none | ⟨c, t, -, visited, found⟩
  · rw [none]
    exact nofun
  · rw [← found, ← lines_visitChunk visited]
    exact fun f hf => (Finding.madeOf f hf).showsLine

/-! ## One meaning of a line -/

abbrev Analysis.Tracker.onNewlines (t : Tracker) (source : Chars) : Tracker :=
  { t with lines := newlineLines source }

theorem shown_alike {t : Tracker} (unified : '\r' ∉ source) (same : t.lines = lines source)
    {n i : Nat} (plain : hasInnerBreak (firstLines n source) = false) (h : i ≤ n) :
    t.shown i = (t.onNewlines source).shown i := by
  cases i with
  | zero => rfl
  | succ i =>
    have alike := (lines_alike_iff unified n).mpr plain i h
    rw [← same] at alike
    exact alike

/-- Up to line `n`, a line number means to the findings of a script, and to the tests that are made on
lines, what it means to the fixes. -/
structure MeansLines (source : Chars) (findings : List Finding) (n : Nat) : Prop where
  shown : ∀ f ∈ findings, !f.isAboutScope → 0 < f.line → f.line ≤ n → f.sourceLine = lineShown source f.line
  tested : ∀ t : Tracker, t.lines = lines source → ∀ var assigned used, used ≤ n + 1 →
    t.hasGuard var assigned used = (t.onNewlines source).hasGuard var assigned used
  wrapped : ∀ t : Tracker, t.lines = lines source → ∀ (v : NilSource) (used : Nat), v.line ≤ n → used ≤ n →
    lineShown source v.line ≠ "" → t.isSafeToGuard v used = (t.onNewlines source).isSafeToGuard v used

theorem meansLines_of_plain (unified : '\r' ∉ source) {findings : List Finding}
    (ran : analyzeSource settings source = .ok findings) {n : Nat}
    (room : n ≤ (newlineLines source).length) (plain : hasInnerBreak (firstLines n source) = false) :
    MeansLines source findings n where
  shown f hf line first last := by
    obtain ⟨i, number⟩ := Int.eq_ofNat_of_zero_le (Int.le_of_lt first)
    have short : i ≤ n := by omega
    have alike := (shownLine_alike_iff unified n).mpr plain i short
    rcases analyzeSource_showsLines ran f hf with scope | shows
    · rw [scope] at line
      cases line
    · rw [shows, number, lineShown_eq (Nat.le_trans short room), ← alike]
      rfl
  tested t same var assigned used h :=
    Tracker.hasGuard_congr fun i _ hi => shown_alike unified same plain (by omega)
  wrapped t same v used hv hu text := by
    refine Tracker.isSafeToGuard_congr rfl (shown_alike unified same plain hv) ?_
      (shown_alike unified same plain hu)
    intro blank
    rw [lineShown_eq (Nat.le_trans hv room), ← Tracker.ofList_shown (t.onNewlines source), blank] at text
    exact text rfl

/-- The parser, the findings and the fixes number the lines of a script alike. Tokens stand on the
lines between newlines, and fixes are made on these; findings show the lines between all line breaks.
The first `n` lines are the same exactly if no line break other than the newline has text behind it in
them, and then findings and tests on lines mean the lines of the fixes. -/
theorem shown_lines_iff {settings : Settings} {bs : Bytes} {source : Chars} {findings : List Finding}
    (read : scriptText bs = source) (ran : analyzeSource settings source = .ok findings) :
    (∀ tok ∈ scan source, ∃ span, lineSpan source tok.line = some span ∧ span.1 ≤ tok.start ∧
      tok.start < span.2) ∧
    (∀ f ∈ findings, f.ShowsLine (lines source)) ∧
    ∀ n ≤ (newlineLines source).length, ((∀ i ≤ n, shownLine (lines source) i = lineShown source i) ↔
        hasInnerBreak (firstLines n source) = false) ∧
      (hasInnerBreak (firstLines n source) = false → MeansLines source findings n) := by
  have unified : '\r' ∉ source := read ▸ not_mem_scriptText bs
  refine ⟨fun tok => token_in_line, analyzeSource_showsLines ran, fun n room => ⟨?_, ?_⟩⟩
  · rw [← shownLine_alike_iff unified]
    refine forall_congr' fun i => forall_congr' fun hi => ?_
    rw [lineShown_eq (Nat.le_trans hi room)]
  · exact meansLines_of_plain unified ran room

theorem exists_of_toOption_map {ε α β : Type} {r : Except ε α} {g : α → β} {y : β}
    (h : r.toOption.map g = some y) : ∃ x, r = .ok x ∧ g x = y := by
  cases r with
  | error e => cases h
  | ok x => exact ⟨x, rfl, Option.some.inj h⟩

@[irreducible] def breakAtEnd : Bytes :=
  bytesOfChars "local v = GetVehiclePedIsIn(p, false)\nv:m() -- \xc3\x85\n".toList

theorem breakAtEnd_shown : ∃ findings, analyzeSource {} (scriptText breakAtEnd) = .ok findings ∧
    (findings.map fun f => (f.pattern, f.line, f.isAboutScope)) = [("potential_nil_access", 2, false)] ∧
    MeansLines (scriptText breakAtEnd) findings 3 := by
  have ends : ((analyzeSource {} (scriptText breakAtEnd)).toOption.map fun fs =>
      fs.map fun f => (f.pattern, f.line, f.isAboutScope)) = some [("potential_nil_access", 2, false)] := by
    decide +kernel
  have room : 3 ≤ (newlineLines (scriptText breakAtEnd)).length := by decide +kernel
  have plain : hasInnerBreak (firstLines 3 (scriptText breakAtEnd)) = false := by decide +kernel
  obtain ⟨findings, ran, found⟩ := exists_of_toOption_map ends
  exact ⟨findings, ran, found, ((shown_lines_iff rfl ran).2.2 3 room).2 plain⟩

@[irreducible] def breakBeforeTest : Bytes :=
  bytesOfChars "-- \xc3\x85\nlocal v = GetVehiclePedIsIn(p, false)\nif v then\nv:m()\nend\n".toList

/-- The use on the fourth line is reported although it is tested on the third, and another line is
shown: behind the break all lines are taken for the next ones. -/
theorem breakBeforeTest_missed : ∃ f, analyzeSource {} (scriptText breakBeforeTest) = .ok [f] ∧
    f.pattern = "potential_nil_access" ∧ !f.isAboutScope ∧ f.line = 4 ∧ f.sourceLine = "if v then" ∧
    lineShown (scriptText breakBeforeTest) 3 = "if v then" ∧
    lineShown (scriptText breakBeforeTest) 4 = "v:m()" := by
  have ends : ((analyzeSource {} (scriptText breakBeforeTest)).toOption.map fun fs =>
      fs.map fun f => (f.pattern, !f.isAboutScope, f.line, f.sourceLine)) =
        some [("potential_nil_access", true, 4, "if v then")] := by
    decide +kernel
  have third : lineShown (scriptText breakBeforeTest) 3 = "if v then" := by decide +kernel
  have fourth : lineShown (scriptText breakBeforeTest) 4 = "v:m()" := by decide +kernel
  obtain ⟨findings, ran, found⟩ := exists_of_toOption_map ends
  obtain ⟨f, rfl, same⟩ := List.map_eq_singleton_iff.mp found
  simp only [Prod.mk.injEq] at same
  obtain ⟨pattern, about, line, shown⟩ := same
  exact ⟨f, ran, pattern, about, line, shown, third, fourth⟩

end LuaTune
