import LuaTune.Proofs.Lua.Parsing
import LuaTune.Proofs.Lua.Scan
import LuaTune.Proofs.Lua.Scoping

/-!
# Scripts of nested blocks

Scripts in which `x = PlayerId()`, `x = playerId` and `local playerId = PlayerId()` stand in nested
blocks: their lines and tokens, what is read from them, and where `playerId` is unbound.
-/

namespace LuaTune.Lua

open List

variable {rest : List Token}

inductive Outline (α : Type) where
  | done
  | row (a : α) (rest : Outline α)
  | block (body rest : Outline α)

def nativeName : Identifier :=
  ⟨'P', ['l', 'a', 'y', 'e', 'r', 'I', 'd'], by decide, by decide, by decide⟩

def resultName : Identifier :=
  ⟨'p', ['l', 'a', 'y', 'e', 'r', 'I', 'd'], by decide, by decide, by decide⟩

structure Target extends Identifier where
  other : toIdentifier.text ≠ resultName.text

structure Indent where
  chars : Chars
  spaces : chars.all isSpace

def Indent.ofDepth (d : Nat) : Indent := ⟨List.replicate (4 * d) ' ', by simp [isSpace]⟩

inductive Row where
  | call (x : Target)
  | use (x : Target)
  /-- `local playerId = PlayerId()`, indented in its own way -/
  | copy (indent : Indent)

/-! ## Rows -/

def nativeCall : Chars := nativeName.text ++ ['(', ')']

def localWord : Chars := ['l', 'o', 'c', 'a', 'l']

def nativeToken (p : Cursor) : Token := p.token .name nativeName.text

def closeToken (p : Cursor) : Token := (p.ahead 9 2).token (.symbol .closeParen) [')']

def nativeTokens (p : Cursor) : List Token :=
  [nativeToken p, (p.ahead 8 1).token (.symbol .openParen) ['('], closeToken p]

namespace Row

def code : Row → Chars
  | .call x => x.text ++ ' ' :: '=' :: ' ' :: nativeCall
  | .use x => x.text ++ ' ' :: '=' :: ' ' :: resultName.text
  | .copy _ => localWord ++ ' ' :: (resultName.text ++ ' ' :: '=' :: ' ' :: nativeCall)

def tokens (p : Cursor) : Row → List Token
  | .call x =>
    p.token .name x.text :: (p.ahead (x.text.length + 1) 2).token (.symbol .equal) ['='] ::
      nativeTokens (p.ahead (x.text.length + 3) 4)
  | .use x =>
    [p.token .name x.text, (p.ahead (x.text.length + 1) 2).token (.symbol .equal) ['='],
     (p.ahead (x.text.length + 3) 4).token .name resultName.text]
  | .copy _ =>
    p.token (.keyword .local_) localWord :: (p.ahead 6 2).token .name resultName.text ::
      (p.ahead 15 4).token (.symbol .equal) ['='] :: nativeTokens (p.ahead 17 6)

def pieces : Row → Nat
  | .call _ => 7
  | .use _ => 5
  | .copy _ => 9

theorem scanFrom_code (r : Row) (p : Cursor) (cs : Chars) : scanFrom 0 p (r.code ++ '\n' :: cs) =
      r.tokens p ++ scanFrom 0 (p.ahead r.code.length r.pieces) ('\n' :: cs) := by
  have word (cs : Chars) : scanFrom 0 p (localWord ++ ' ' :: (resultName.text ++ cs)) =
      p.token (.keyword .local_) localWord :: scanFrom 0 (p.ahead 6 2) (resultName.text ++ cs) := rfl
  cases r with simp only [code, nativeCall, length_append, append_assoc, cons_append]
  | call x | use x =>
    rw [scanFrom_identifier _ p (by decide), scanFrom_value _ p _ _ (by decide)]
    rfl
  | copy i =>
    rw [word, scanFrom_identifier _ _ (by decide), Cursor.ahead_ahead, scanFrom_value _ p _ _ (by decide)]
    rfl

end Row

/-! ## Lines -/

inductive Line where
  | row (depth : Nat) (r : Row)
  | opens (depth : Nat)
  | closes (depth : Nat)

namespace Line

def indent : Line → Indent
  | .row _ (.copy i) => i
  | .row d (.call _) | .row d (.use _) | .opens d | .closes d => .ofDepth d

def code : Line → Chars
  | .row _ r => r.code
  | .opens _ => ['d', 'o']
  | .closes _ => ['e', 'n', 'd']

def codeTokens (p : Cursor) : Line → List Token
  | .row _ r => r.tokens p
  | .opens _ => [p.token (.keyword .do_) ['d', 'o']]
  | .closes _ => [p.token (.keyword .end_) ['e', 'n', 'd']]

def pieces : Line → Nat
  | .row _ r => r.pieces
  | .opens _ | .closes _ => 1

def text (l : Line) : Chars := l.indent.chars ++ l.code

def inside (p : Cursor) (l : Line) : Cursor := p.indented l.indent.chars

def tokens (p : Cursor) (l : Line) : List Token := l.codeTokens (l.inside p)

def next (p : Cursor) (l : Line) : Cursor := ((l.inside p).ahead l.code.length l.pieces).newline

variable (l : Line)

theorem offset_next (p : Cursor) : (l.next p).offset = p.offset + l.text.length + 1 := by
  simp only [next, inside, text, Cursor.newline, Cursor.ahead, Cursor.offset_indented, length_append]
  omega

theorem line_next (p : Cursor) : (l.next p).line = p.line + 1 := by
  simp only [next, inside, Cursor.newline, Cursor.ahead, Cursor.line_indented]

theorem code_starts : ∃ c cs, l.code = c :: cs ∧ isNameChar c := by
  cases l with
  | row d r =>
    cases r with
    | call x | use x => exact ⟨x.first, _, rfl, isNameChar_of_isNameStart x.starts⟩
    | copy i => exact ⟨'l', _, rfl, by decide⟩
  | opens d => exact ⟨'d', _, rfl, by decide⟩
  | closes d => exact ⟨'e', _, rfl, by decide⟩

theorem scanFrom_code (p : Cursor) (cs : Chars) : scanFrom 0 p (l.code ++ '\n' :: cs) =
      l.codeTokens p ++ scanFrom 0 (p.ahead l.code.length l.pieces) ('\n' :: cs) := by
  cases l with
  | row d r => exact r.scanFrom_code p cs
  | opens d | closes d => rfl

theorem text_starts : ∃ c cs, l.text = c :: cs ∧ startsLine c := by
  obtain ⟨c, cs, code, name⟩ := l.code_starts
  unfold text
  cases blanks : l.indent.chars with
  | nil => exact ⟨c, cs, code, by simp [startsLine, name]⟩
  | cons b bs =>
    have spaces := l.indent.spaces
    rw [blanks, all_cons, Bool.and_eq_true] at spaces
    exact ⟨b, _, rfl, by simp [startsLine, spaces.1]⟩

theorem scanFrom_text (p : Cursor) {cs : Chars} (h : ∀ c ∈ cs.head?, startsLine c) :
    scanFrom 0 p (l.text ++ '\n' :: cs) = l.tokens p ++ scanFrom 0 (l.next p) cs := by
  obtain ⟨c, ds, code, name⟩ := l.code_starts
  have blanks := scanFrom_indented p l.indent.spaces name (ds ++ '\n' :: cs)
  rw [← cons_append, ← code] at blanks
  rw [text, append_assoc, blanks, scanFrom_code, scanFrom_newline _ h]
  rfl

end Line

def render (ls : List Line) : Chars := ls.flatMap fun l => l.text ++ ['\n']

def tokensOf : Cursor → List Line → List Token
  | _, [] => []
  | p, l :: ls => l.tokens p ++ tokensOf (l.next p) ls

def afterLines (p : Cursor) (ls : List Line) : Cursor := ls.foldl Line.next p

theorem render_cons (l : Line) (ls : List Line) : render (l :: ls) = l.text ++ '\n' :: render ls := by
  simp [render]

theorem render_append (ls ms : List Line) : render (ls ++ ms) = render ls ++ render ms := flatMap_append

theorem tokensOf_append (p : Cursor) (ls ms : List Line) :
    tokensOf p (ls ++ ms) = tokensOf p ls ++ tokensOf (afterLines p ls) ms := by
  induction ls generalizing p with
  | nil => rfl
  | cons l ls ih =>
    rw [cons_append, tokensOf, ih, tokensOf, append_assoc]
    rfl

theorem render_starts (ls : List Line) : ∀ c ∈ (render ls).head?, startsLine c := by
  cases ls with
  | nil => simp [render]
  | cons l ls =>
    obtain ⟨c, cs, text, starts⟩ := l.text_starts
    simp [render_cons, text, starts]

theorem scanFrom_render (ls : List Line) (p : Cursor) : scanFrom 0 p (render ls) = tokensOf p ls := by
  induction ls generalizing p with
  | nil => rfl
  | cons l ls ih => rw [render_cons, l.scanFrom_text p (render_starts ls), ih, tokensOf]

/-! ## Statements -/

def nativeCallExpr (p : Cursor) : Expr := .call (nameAt (nativeToken p)) [] (some (closeToken p))

def Row.stat (p : Cursor) : Row → Stat
  | .call x =>
    let t := p.token .name x.text
    let q := p.ahead (x.text.length + 3) 4
    .assign t (closeToken q) [nameAt t] [nativeCallExpr q]
  | .use x =>
    let t := p.token .name x.text
    let u := (p.ahead (x.text.length + 3) 4).token .name resultName.text
    .assign t u [nameAt t] [nameAt u]
  | .copy _ =>
    let t := (p.ahead 6 2).token .name resultName.text
    .localAssign (p.token (.keyword .local_) localWord) [⟨t.name, t⟩] [nativeCallExpr (p.ahead 17 6)]

def Follows (ts : List Token) : Prop := ts = [] ∨ ∃ p k text rest, ts = Cursor.token p k text :: rest ∧
    (startsStat k ∨ k = .keyword .end_)

open Grammar

theorem Row.reads (r : Row) (p : Cursor) (h : Follows rest) :
    Reads .stat (r.tokens p ++ rest) (.stat (r.stat p)) rest := by
  refine (givesReads 40).stat _ (r.stat p, rest) ?_
  cases r with
  | call x =>
    let ts := (Row.call x).tokens p ++ rest
    have parsed : Grammar.stat 40 ts = some (.assign (p.token .name x.text)
        ((lastTaken ts rest).getD (p.token .name x.text)) [nameAt (p.token .name x.text)]
        [nativeCallExpr (p.ahead (x.text.length + 3) 4)], rest) := by
      rcases h with rfl | ⟨q, k, text, rest, rfl, (rfl | rfl | rfl) | rfl⟩ <;> rfl
    rw [lastTaken_append] at parsed
    exact parsed
  | use x =>
    let ts := (Row.use x).tokens p ++ rest
    have parsed : Grammar.stat 40 ts = some (.assign (p.token .name x.text)
        ((lastTaken ts rest).getD (p.token .name x.text)) [nameAt (p.token .name x.text)]
        [nameAt ((p.ahead (x.text.length + 3) 4).token .name resultName.text)], rest) := by
      rcases h with rfl | ⟨q, k, text, rest, rfl, (rfl | rfl | rfl) | rfl⟩ <;> rfl
    rw [lastTaken_append] at parsed
    exact parsed
  | copy i => rcases h with rfl | ⟨q, k, text, rest, rfl, (rfl | rfl | rfl) | rfl⟩ <;> rfl

/-! ## Scripts -/

namespace Outline

def lines (d : Nat) : Outline Row → List Line
  | .done => []
  | .row r rest => .row d r :: rest.lines d
  | .block body rest => .opens d :: (body.lines (d + 1) ++ .closes d :: rest.lines d)

def stats (d : Nat) (p : Cursor) : Outline Row → List Stat
  | .done => []
  | .row r rest => r.stat ((Line.row d r).inside p) :: rest.stats d ((Line.row d r).next p)
  | .block body rest =>
    let q := (Line.opens d).next p
    .block (body.stats (d + 1) q) ::
      rest.stats d ((Line.closes d).next (afterLines q (body.lines (d + 1))))

end Outline

def EndsBlock (ts : List Token) : Prop :=
  ts = [] ∨ ∃ p text rest, ts = Cursor.token p (.keyword .end_) text :: rest

theorem Row.tokens_start (r : Row) (p : Cursor) :
    ∃ k text ts, r.tokens p = p.token k text :: ts ∧ startsStat k := by
  cases r with
  | call x | use x => exact ⟨_, _, _, rfl, .inl rfl⟩
  | copy i => exact ⟨_, _, _, rfl, .inr (.inl rfl)⟩

theorem Outline.follows (o : Outline Row) (d : Nat) (p : Cursor) (h : EndsBlock rest) :
    Follows (tokensOf p (o.lines d) ++ rest) := by
  cases o with
  | done =>
    rcases h with rfl | ⟨q, text, ts, rfl⟩
    · exact .inl rfl
    · exact .inr ⟨q, _, text, ts, rfl, .inr rfl⟩
  | row r o =>
    obtain ⟨k, text, ts, tokens, starts⟩ := r.tokens_start ((Line.row d r).inside p)
    have row : tokensOf p (lines d (.row r o)) = r.tokens ((Line.row d r).inside p) ++
        tokensOf ((Line.row d r).next p) (o.lines d) := rfl
    rw [row, tokens]
    exact .inr ⟨_, k, text, _, rfl, .inl starts⟩
  | block body o => exact .inr ⟨_, _, _, _, rfl, .inl (.inr (.inr rfl))⟩

theorem reads_more {p : Cursor} {k : Kind} {text : Chars} {ts us : List Token} {s : Stat}
    {ss : List Stat} (hk : startsStat k) (first : Reads .stat (p.token k text :: ts) (.stat s) us)
    (more : Reads .block us (.block ss) rest) :
    Reads .block (p.token k text :: ts) (.block (s :: ss)) rest := by
  rcases hk with rfl | rfl | rfl <;> exact .blockMore rfl nofun first more

theorem Outline.reads (o : Outline Row) (d : Nat) (p : Cursor) (hr : EndsBlock rest) :
    Reads .block (tokensOf p (o.lines d) ++ rest) (.block (o.stats d p)) rest := by
  induction o generalizing d p rest with
  | done =>
    rcases hr with rfl | ⟨q, text, ts, rfl⟩
    · exact .blockEnd nofun
    · exact .blockEnd fun t ht => Option.some.inj ht ▸ rfl
  | row r o ih =>
    let line := Line.row d r
    have first := r.reads (line.inside p) (o.follows d (line.next p) hr)
    obtain ⟨k, text, ts, tokens, starts⟩ := r.tokens_start (line.inside p)
    rw [lines, tokensOf, append_assoc, Line.tokens, Line.codeTokens, stats]
    rw [tokens, cons_append] at first ⊢
    exact reads_more starts first (ih d (line.next p) hr)
  | block body o ihBody ih =>
    let q := (Line.opens d).next p
    let q' := afterLines q (body.lines (d + 1))
    let behind := tokensOf ((Line.closes d).next q') (o.lines d) ++ rest
    have ends : EndsBlock ((Line.closes d).tokens q' ++ behind) := .inr ⟨_, _, _, rfl⟩
    have inner := ihBody (d + 1) q ends
    have others := ih d ((Line.closes d).next q') hr
    rw [lines, tokensOf, tokensOf_append, tokensOf, stats]
    simp only [append_assoc]
    exact reads_more (.inr (.inr rfl)) (.block rfl (.doBlock rfl inner rfl)) others

def Outline.text (o : Outline Row) : Chars := render (o.lines 0)

theorem Outline.parse_text (o : Outline Row) : Chunk.parse? o.text = some (o.stats 0 .start) := by
  have read := o.reads 0 .start (.inl rfl)
  rw [append_nil] at read
  rw [Chunk.parse?, scan, text, scanFrom_render]
  exact Chunk.ofTokens?_eq_some.mpr read

/-! ## Where the copy is unbound -/

def Outline.unbound (bound : Bool) : Outline Row → Bool
  | .done => false
  | .row (.call _) rest => rest.unbound bound
  | .row (.use _) rest => !bound || rest.unbound bound
  | .row (.copy _) rest => rest.unbound true
  | .block body rest => body.unbound bound || rest.unbound bound

theorem Target.name_ne (x : Target) (p : Cursor) :
    ((p.token .name x.text).name == "playerId") = false := by
  refine beq_eq_false_iff_ne.mpr fun same => x.other ?_
  have text := congrArg String.toList same
  rw [Token.name, String.toList_ofList] at text
  exact text

theorem occursFree_nativeCallExpr (p : Cursor) (bound : Bool) :
    (nativeCallExpr p).occursFree "playerId" bound = false := by
  have other : ((nativeToken p).name == "playerId") = false :=
    show (String.ofList nativeName.text == "playerId") = false by decide
  show ((!bound && (nativeToken p).name == "playerId") || false) = false
  rw [other, Bool.and_false, Bool.or_self]

theorem Outline.occursFree_stats (o : Outline Row) (d : Nat) (p : Cursor) (bound : Bool) :
    statsOccurFree "playerId" bound (o.stats d p) = o.unbound bound := by
  have same (q : Cursor) : ((q.token .name resultName.text).name == "playerId") = true :=
    show (String.ofList resultName.text == "playerId") = true by decide
  induction o generalizing d p bound with
  | done => rfl
  | row r o ih =>
    cases r with
    | call x =>
      simp [stats, Row.stat, statsOccurFree, Stat.occursFree, exprsOccurFree, Expr.occursFree, nameAt,
        Stat.declares, x.name_ne, occursFree_nativeCallExpr, ih, unbound]
    | use x =>
      simp [stats, Row.stat, statsOccurFree, Stat.occursFree, exprsOccurFree, Expr.occursFree, nameAt,
        Stat.declares, x.name_ne, same, ih, unbound]
    | copy i =>
      simp [stats, Row.stat, statsOccurFree, Stat.occursFree, exprsOccurFree,
        Stat.declares, same, occursFree_nativeCallExpr, ih, unbound]
  | block body o ihBody ih =>
    simp [stats, statsOccurFree, Stat.occursFree, Stat.declares, ihBody, ih, unbound]

end LuaTune.Lua
