import LuaTune.Proofs.Lua.Parsing
import LuaTune.Proofs.Lua.Scan

/-!
# Scripts that append to tables

Lines `table.insert(t, v)` and `x = table.insert(t, v)` with arbitrary names, and the same with
`t[#t+1] = v` in place of each call: their tokens, and what is read from them.
-/

namespace LuaTune.Lua

open List

/-- A line that appends a value to a table, and may assign what that gives. -/
structure AppendLine where
  target : Option Identifier
  table : Identifier
  value : Identifier

namespace AppendLine

def moduleName : Identifier := ⟨'t', ['a', 'b', 'l', 'e'], by decide, by decide, by decide⟩

def funcName : Identifier := ⟨'i', ['n', 's', 'e', 'r', 't'], by decide, by decide, by decide⟩

variable (a : AppendLine)

def lead : Chars :=
  match a.target with
  | none => []
  | some x => x.text ++ [' ', '=', ' ']

def call : Chars := moduleName.text ++ '.' :: (funcName.text ++ '(' ::
    (a.table.text ++ ',' :: ' ' :: (a.value.text ++ [')'])))

def assignment : Chars := a.table.text ++ '[' :: '#' ::
    (a.table.text ++ '+' :: '1' :: ']' :: ' ' :: '=' :: ' ' :: a.value.text)

/-! ## Tokens -/

def leadTokens (p : Cursor) : List Token :=
  match a.target with
  | none => []
  | some x => [p.token .name x.text, (p.ahead (x.text.length + 1) 2).token (.symbol .equal) ['=']]

def inside (p : Cursor) : Cursor :=
  match a.target with
  | none => p
  | some x => p.ahead (x.text.length + 3) 4

def moduleToken (p : Cursor) : Token := p.token .name moduleName.text

def funcToken (p : Cursor) : Token := (p.ahead 6 2).token .name funcName.text

def tableToken (p : Cursor) : Token := (p.ahead 13 4).token .name a.table.text

def valueToken (p : Cursor) : Token :=
  (p.ahead (13 + a.table.text.length + 2) 7).token .name a.value.text

def closeToken (p : Cursor) : Token :=
  (p.ahead (13 + a.table.text.length + 2 + a.value.text.length) 8).token (.symbol .closeParen) [')']

def callTokens (p : Cursor) : List Token :=
  [moduleToken p, (p.ahead 5 1).token (.symbol .dot) ['.'], funcToken p,
   (p.ahead 12 3).token (.symbol .openParen) ['('], a.tableToken p,
   (p.ahead (13 + a.table.text.length) 5).token (.symbol .comma) [','], a.valueToken p,
   a.closeToken p]

def assignmentTokens (p : Cursor) : List Token :=
  let t := a.table.text.length
  [p.token .name a.table.text, (p.ahead t 1).token (.symbol .openBracket) ['['],
   (p.ahead (t + 1) 2).token (.symbol .hash) ['#'],
   (p.ahead (t + 2) 3).token .name a.table.text,
   (p.ahead (t + 2 + t) 4).token (.symbol .plus) ['+'],
   (p.ahead (t + 2 + t + 1) 5).token .number ['1'],
   (p.ahead (t + 2 + t + 2) 6).token (.symbol .closeBracket) [']'],
   (p.ahead (t + 2 + t + 4) 8).token (.symbol .equal) ['='],
   (p.ahead (t + 2 + t + 6) 10).token .name a.value.text]

end AppendLine

namespace AppendLine

variable (a : AppendLine) (p : Cursor)

theorem offset_inside : (a.inside p).offset = p.offset + a.lead.length := by
  unfold inside lead
  cases a.target with
  | none => rfl
  | some x => simp [Cursor.ahead]

theorem scanFrom_lead (cs : Chars) {c : Char} (hc : isNameChar c) :
    scanFrom 0 p (a.lead ++ c :: cs) = a.leadTokens p ++ scanFrom 0 (a.inside p) (c :: cs) := by
  unfold lead leadTokens inside
  cases a.target with
  | none => rfl
  | some x =>
    have text : x.text ++ [' ', '=', ' '] ++ c :: cs = x.text ++ ' ' :: '=' :: ' ' :: c :: cs := by
      simp
    rw [text, scanFrom_identifier x p (by decide), scanFrom_equal p _ _ hc]
    rfl

theorem length_call : a.call.length = 13 + a.table.text.length + 2 + a.value.text.length + 1 := by
  have module : moduleName.text.length = 5 := rfl
  have func : funcName.text.length = 6 := rfl
  simp only [call, length_append, length_cons, length_nil, module, func]
  omega

theorem scanFrom_call (cs : Chars) : scanFrom 0 p (a.call ++ '\n' :: cs) =
      a.callTokens p ++ scanFrom 0 (p.ahead a.call.length 9) ('\n' :: cs) := by
  have text : a.call ++ '\n' :: cs = moduleName.text ++ '.' :: (funcName.text ++ '(' ::
      (a.table.text ++ ',' :: ' ' :: (a.value.text ++ ')' :: '\n' :: cs))) := by
    simp [call]
  have dot (cs : Chars) : lexeme '.' (funcName.text ++ cs) = ⟨.token (.symbol .dot), 0⟩ := rfl
  have opens (cs : Chars) : lexeme '(' cs = ⟨.token (.symbol .openParen), 0⟩ := rfl
  have comma (cs : Chars) : lexeme ',' cs = ⟨.token (.symbol .comma), 0⟩ := rfl
  have blank (k i : Nat) (cs : Chars) : scanFrom 0 (p.ahead k i) (' ' :: (a.value.text ++ cs)) =
        scanFrom 0 (p.ahead (k + 1) (i + 1)) (a.value.text ++ cs) :=
    scanFrom_blank p k i (isNameChar_of_isNameStart a.value.starts) _
  rw [text, scanFrom_identifier _ p (by decide), scanFrom_token _ (dot _) (by decide),
    scanFrom_identifier _ _ (by decide), scanFrom_token _ (opens _) (by decide),
    scanFrom_identifier a.table _ (by decide), scanFrom_token _ (comma _) (by decide)]
  simp only [Cursor.ahead_ahead]
  rw [blank, scanFrom_identifier a.value _ (by decide), Cursor.ahead_ahead, length_call]
  rfl

theorem length_assignment : a.assignment.length =
    a.table.text.length + 2 + a.table.text.length + 6 + a.value.text.length := by
  simp only [assignment, length_append, length_cons]
  omega

theorem scanFrom_assignment (cs : Chars) : scanFrom 0 p (a.assignment ++ '\n' :: cs) =
      a.assignmentTokens p ++ scanFrom 0 (p.ahead a.assignment.length 11) ('\n' :: cs) := by
  have text : a.assignment ++ '\n' :: cs = a.table.text ++ '[' :: '#' :: (a.table.text ++
      '+' :: '1' :: ']' :: ' ' :: '=' :: ' ' :: (a.value.text ++ '\n' :: cs)) := by
    simp [assignment]
  have opens (cs : Chars) : lexeme '[' ('#' :: cs) = ⟨.token (.symbol .openBracket), 0⟩ := rfl
  have hash (cs : Chars) : lexeme '#' (a.table.text ++ cs) = ⟨.token (.symbol .hash), 0⟩ :=
    lexeme_hash (ne_of_isNameChar (isNameChar_of_isNameStart a.table.starts) (by decide)) _
  have plus (cs : Chars) : lexeme '+' cs = ⟨.token (.symbol .plus), 0⟩ := rfl
  have one (cs : Chars) : lexeme '1' (']' :: ' ' :: cs) = ⟨.token .number, 0⟩ := rfl
  have closes (cs : Chars) : lexeme ']' cs = ⟨.token (.symbol .closeBracket), 0⟩ := rfl
  rw [text, scanFrom_identifier a.table _ (by decide), scanFrom_token _ (opens _) (by decide),
    scanFrom_token _ (hash _) (by decide), scanFrom_identifier a.table _ (by decide),
    scanFrom_token _ (plus _) (by decide), scanFrom_token _ (one _) (by decide),
    scanFrom_token _ (closes _) (by decide)]
  simp only [Cursor.ahead_ahead]
  rw [scanFrom_value a.value p _ _ (by decide), length_assignment]
  rfl

end AppendLine

/-! ## Scripts -/

structure AppendLine.Form where
  text : AppendLine → Chars
  tokens : AppendLine → Cursor → List Token
  pieces : Nat
  starts (a : AppendLine) : ∃ c cs, text a = c :: cs ∧ isNameChar c
  begins (a : AppendLine) (p : Cursor) : ∃ text ts, tokens a p = p.token .name text :: ts
  many (a : AppendLine) (p : Cursor) : 8 ≤ (tokens a p).length
  reads (a : AppendLine) (p : Cursor) (cs : Chars) : scanFrom 0 p (text a ++ '\n' :: cs) =
    tokens a p ++ scanFrom 0 (p.ahead (text a).length pieces) ('\n' :: cs)

namespace AppendLine

def asCall : Form where
  text := call
  tokens := callTokens
  pieces := 9
  starts _ := ⟨'t', _, rfl, by decide⟩
  begins _ _ := ⟨_, _, rfl⟩
  many _ _ := Nat.le_refl 8
  reads := scanFrom_call

def asAssignment : Form where
  text := assignment
  tokens := assignmentTokens
  pieces := 11
  starts a := ⟨a.table.first, _, rfl, isNameChar_of_isNameStart a.table.starts⟩
  begins _ _ := ⟨_, _, rfl⟩
  many _ _ := Nat.le_succ 8
  reads := scanFrom_assignment

namespace Form

variable (f : Form)

def line (a : AppendLine) : Chars := a.lead ++ f.text a ++ ['\n']

def script (as : List AppendLine) : Chars := as.flatMap f.line

def lineTokens (a : AppendLine) (p : Cursor) : List Token := a.leadTokens p ++ f.tokens a (a.inside p)

def next (a : AppendLine) (p : Cursor) : Cursor :=
  ((a.inside p).ahead (f.text a).length f.pieces).newline

theorem offset_next (a : AppendLine) (p : Cursor) :
    (f.next a p).offset = p.offset + (f.line a).length := by
  simp only [next, line, Cursor.newline, Cursor.ahead, a.offset_inside, length_append,
    length_cons, length_nil]
  omega

def scriptTokens : Cursor → List AppendLine → List Token
  | _, [] => []
  | p, a :: as => f.lineTokens a p ++ scriptTokens (f.next a p) as

theorem line_starts (a : AppendLine) : ∃ c cs, f.line a = c :: cs ∧ isNameChar c := by
  unfold line lead
  cases a.target with
  | none =>
    obtain ⟨c, cs, text, name⟩ := f.starts a
    exact ⟨c, cs ++ ['\n'], by simp [text], name⟩
  | some x => exact ⟨x.first, _, rfl, isNameChar_of_isNameStart x.starts⟩

theorem script_starts (as : List AppendLine) : ∀ c ∈ (f.script as).head?, startsLine c := by
  cases as with
  | nil => simp [script]
  | cons a as =>
    obtain ⟨c, cs, text, name⟩ := f.line_starts a
    simp [script, text, startsLine, name]

theorem scanFrom_line (a : AppendLine) (p : Cursor) {cs : Chars}
    (h : ∀ c ∈ cs.head?, startsLine c) :
    scanFrom 0 p (f.line a ++ cs) = f.lineTokens a p ++ scanFrom 0 (f.next a p) cs := by
  obtain ⟨c, ds, text, name⟩ := f.starts a
  have lead := a.scanFrom_lead p (ds ++ '\n' :: cs) name
  have body := f.reads a (a.inside p) cs
  rw [text, cons_append, scanFrom_newline _ h] at body
  rw [line, append_assoc, append_assoc, singleton_append, text, cons_append,
    lead, body, lineTokens, append_assoc, next, text]

theorem scanFrom_script (as : List AppendLine) (p : Cursor) :
    scanFrom 0 p (f.script as) = f.scriptTokens p as := by
  induction as generalizing p with
  | nil => rfl
  | cons a as ih =>
    have text : f.script (a :: as) = f.line a ++ f.script as := flatMap_cons
    rw [text, f.scanFrom_line a p (f.script_starts as), scriptTokens, ih]

theorem lineTokens_begin (a : AppendLine) (p : Cursor) :
    ∃ text ts, f.lineTokens a p = p.token .name text :: ts := by
  unfold lineTokens leadTokens inside
  cases a.target with
  | none => exact f.begins a p
  | some x => exact ⟨_, _, rfl⟩

def Follows (ts : List Token) : Prop := ts = [] ∨ ∃ p text rest, ts = Cursor.token p .name text :: rest

theorem follows_scriptTokens (as : List AppendLine) (p : Cursor) : Follows (f.scriptTokens p as) := by
  cases as with
  | nil => exact .inl rfl
  | cons a as =>
    obtain ⟨text, ts, line⟩ := f.lineTokens_begin a p
    refine .inr ⟨p, text, ts ++ f.scriptTokens (f.next a p) as, ?_⟩
    rw [scriptTokens, line, cons_append]

end Form

end AppendLine

/-! ## Statements -/

namespace AppendLine

variable (a : AppendLine)

variable {rest : List Token} {n : Nat}

def callExpr (p : Cursor) : Expr := .call (.index .dot (nameAt (moduleToken p)) (nameAt (funcToken p)))
    [nameAt (a.tableToken p), nameAt (a.valueToken p)] (some (a.closeToken p))

def stat (p : Cursor) : Stat :=
  match a.target with
  | none => .expr (a.callExpr p)
  | some x =>
    let t := p.token .name x.text
    .assign t (a.closeToken (a.inside p)) [nameAt t] [a.callExpr (a.inside p)]

def stats : Cursor → List AppendLine → List Stat
  | _, [] => []
  | p, a :: as => a.stat p :: stats (asCall.next a p) as

open Grammar

theorem reads_line (p : Cursor) (h : Form.Follows rest) :
    Reads .stat (asCall.lineTokens a p ++ rest) (.stat (a.stat p)) rest := by
  refine (givesReads 80).stat _ (a.stat p, rest) ?_
  obtain ⟨target, table, value⟩ := a
  cases target with
  | none => rcases h with rfl | ⟨q, text, rest, rfl⟩ <;> rfl
  | some x =>
    let a : AppendLine := ⟨some x, table, value⟩
    let ts := asCall.lineTokens a p ++ rest
    have parsed : Grammar.stat 80 ts = some (.assign (p.token .name x.text)
        ((lastTaken ts rest).getD (p.token .name x.text)) [nameAt (p.token .name x.text)]
        [a.callExpr (a.inside p)], rest) := by
      rcases h with rfl | ⟨q, text, rest, rfl⟩ <;> rfl
    rw [lastTaken_append] at parsed
    exact parsed

theorem reads_stats (as : List AppendLine) (p : Cursor) :
    Reads .block (asCall.scriptTokens p as) (.block (stats p as)) [] := by
  induction as generalizing p with
  | nil => exact .blockEnd nofun
  | cons a as ih =>
    have first := a.reads_line p (asCall.follows_scriptTokens as (asCall.next a p))
    obtain ⟨text, ts, line⟩ := asCall.lineTokens_begin a p
    rw [Form.scriptTokens, stats]
    rw [line, cons_append] at first ⊢
    exact .blockMore rfl nofun first (ih _)

theorem parse_calls (as : List AppendLine) :
    Chunk.parse? (asCall.script as) = some (stats .start as) := by
  rw [Chunk.parse?, scan, asCall.scanFrom_script]
  exact Chunk.ofTokens?_eq_some.mpr (reads_stats as .start)

theorem reads_assignment (h : a.target = none) (p : Cursor) (hr : Form.Follows rest) :
    ∃ s, Reads .stat (asAssignment.lineTokens a p ++ rest) (.stat s) rest := by
  have parsed : ∃ s, Grammar.stat 80 (asAssignment.lineTokens a p ++ rest) = some (s, rest) := by
    obtain ⟨target, table, value⟩ := a
    cases h
    rcases hr with rfl | ⟨q, text, rest, rfl⟩ <;> exact ⟨_, rfl⟩
  exact parsed.imp fun s => (givesReads 80).stat _ (s, rest)

theorem not_reads_assigned {x : Identifier} {ss : List Stat} (h : a.target = some x) (p : Cursor) :
    ¬Reads .block (asAssignment.lineTokens a p ++ rest) (.block ss) [] := by
  intro read
  obtain ⟨target, table, value⟩ := a
  cases h
  have run : block (20 * _ + 81) _ = some (ss, []) :=
    read.runs (Nat.add_le_add_left (by simp [Goal.depth]) _)
  cases run

theorem reads_assignments (as : List AppendLine) (p : Cursor) :
    (∃ ss, Reads .block (asAssignment.scriptTokens p as) (.block ss) []) ↔ ∀ a ∈ as, a.target = none := by
  induction as generalizing p with
  | nil => exact ⟨fun _ => nofun, fun _ => ⟨[], .blockEnd nofun⟩⟩
  | cons a as ih =>
    rw [Form.scriptTokens, forall_mem_cons, ← ih (asAssignment.next a p)]
    cases target : a.target with
    | some x => exact ⟨fun ⟨ss, read⟩ => absurd read (a.not_reads_assigned target p), fun h => nomatch h.1⟩
    | none =>
      obtain ⟨s, first⟩ := a.reads_assignment target p
        (asAssignment.follows_scriptTokens as (asAssignment.next a p))
      obtain ⟨text, ts, line⟩ := asAssignment.lineTokens_begin a p
      rw [line, cons_append] at first ⊢
      refine ⟨fun ⟨ss, read⟩ => ⟨rfl, ?_⟩, fun ⟨_, ss, more⟩ => ⟨s :: ss, .blockMore rfl nofun first more⟩⟩
      cases read with
      | returnValues ht | returnNothing ht => cases ht
      | blockMore _ _ first' more =>
        obtain ⟨-, rfl⟩ := first'.unique first
        exact ⟨_, more⟩

theorem parse_assignments (as : List AppendLine) :
    (Chunk.parse? (asAssignment.script as)).isSome ↔ ∀ a ∈ as, a.target = none := by
  rw [← reads_assignments as .start, Chunk.parse?, scan, asAssignment.scanFrom_script,
    Option.isSome_iff_exists]
  exact exists_congr fun c => Chunk.ofTokens?_eq_some

end AppendLine

end LuaTune.Lua
