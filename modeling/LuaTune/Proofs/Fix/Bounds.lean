import LuaTune.Proofs.Finding.DeadPieces
import LuaTune.Proofs.Fix.Spelling
import LuaTune.Proofs.Fix.Substitution

/-!
# Where edits lie

Tokens lie in the source and a node keeps them in order, so an edit lies in the source as soon as it
has an end. A tree keeps no token for the end of a call `base.key{…}`, and an edit that replaces
such a call as a whole has none.
-/

namespace LuaTune.Lua

/-- A call `base.key{…}` or `base[key]{…}`, which has no last token. -/
def Expr.lacksEnd : Expr → Bool
  | .call (.index _ _ _) _ none => true
  | _ => false

end LuaTune.Lua

namespace LuaTune.Fix

open Text Lua Analysis List

variable {source : Chars} {line : Int} {a b : Nat} {stop : Option Nat} {f : Finding}

/-! ## Lines -/

theorem lineSpan_cases {span : Nat × Nat} (h : lineSpan source line = some span) :
    ∃ n, n < (newlineLines source).length ∧ line = (n + 1 : Nat) ∧
      span = ((firstLines n source).length, (firstLines (n + 1) source).length) := by
  obtain ⟨l, found, -⟩ := Option.map_eq_some_iff.mp h
  unfold lineAt? at found
  split at found
  · have inside := (List.getElem?_eq_some_iff.mp found).1
    have number : line = ((line - 1).toNat + 1 : Nat) := by omega
    rw [number, lineSpan_eq inside] at h
    exact ⟨_, inside, number, (Option.some.inj h).symm⟩
  · cases found

theorem firstLines_mono {m n : Nat} (h : m ≤ n) (cs : Chars) :
    (firstLines m cs).length ≤ (firstLines n cs).length := by
  induction h with
  | refl => exact Nat.le_refl _
  | step _ ih => exact Nat.le_trans ih (firstLines_isPrefix_succ _ cs).length_le

theorem lineSpan_le {first last : Int} {c d : Nat} (order : first ≤ last)
    (start : lineSpan source first = some (a, b)) (stop : lineSpan source last = some (c, d)) :
    a ≤ d ∧ d ≤ source.length := by
  obtain ⟨m, -, rfl, span⟩ := lineSpan_cases start
  obtain ⟨n, -, rfl, span'⟩ := lineSpan_cases stop
  cases span
  cases span'
  exact ⟨firstLines_mono (by omega) source, (firstLines_isPrefix _ source).length_le⟩

theorem lineEnd_le {place : Nat} (h : lineEnd source line = some place) : place ≤ source.length := by
  obtain ⟨l, found, rfl⟩ := Option.map_eq_some_iff.mp h
  obtain ⟨⟨a, b⟩, span⟩ : ∃ span, lineSpan source line = some span := by
    rw [lineSpan, found]
    exact ⟨_, rfl⟩
  have inside := (lineSpan_le (Int.le_refl _) span span).2
  simp only [lineSpan, found, Option.map_some, Option.some.injEq, Prod.mk.injEq] at span
  split at span <;> omega

/-! ## Pieces between tokens -/

def Fits (source : Chars) (start : Nat) (stop : Option Nat) : Prop :=
  start ≤ source.length ∧ ∀ x ∈ stop, start ≤ x ∧ x ≤ source.length

theorem Fits.of_le (order : a ≤ b) (inside : b ≤ source.length) : Fits source a (some b) :=
  ⟨Nat.le_trans order inside, fun _ hx => Option.some.inj hx ▸ ⟨order, inside⟩⟩

theorem wordStartBefore_le (source : Chars) (place : Nat) : wordStartBefore source place ≤ place := by
  have drop (p : Char → Bool) (cs : Chars) : (dropEndWhile p cs).length ≤ cs.length := by
    unfold dropEndWhile
    rw [length_reverse, ← cs.length_reverse]
    exact (dropWhile_sublist p).length_le
  refine Nat.le_trans (drop _ _) (Nat.le_trans (drop _ _) ?_)
  exact length_take_le _ _

theorem tokenSpan_eq {first : Anchor} {last : Option Token}
    (h : tokenSpan first last = (some a, stop)) :
    ∃ f l, first = .at f ∧ last = some l ∧ a = f.start ∧ stop = some (l.stop + 1) := by
  unfold tokenSpan at h
  split at h
  · cases h
  · next known =>
    cases last with
    | none => simp at known
    | some l =>
      cases first with
      | «at» f =>
        cases h
        exact ⟨f, l, rfl, rfl, rfl, rfl⟩
      | absent | unreadable => cases h

theorem anchor_of_token? {a : Anchor} {t : Token} (h : a.token? = some t) : a = .at t := by
  cases a with
  | «at» u => exact congrArg Anchor.at (Option.some.inj h)
  | absent | unreadable => cases h

/-- A call starts with its first token or with the word before a parenthesis. Only a call of an
indexed value may have a start and no end. -/
theorem callSpan_eq {callee : Expr} {last : Option Token}
    (h : callSpan source callee last = (some a, stop)) :
    ∃ f, callee.head = .at f ∧ a ≤ f.start ∧ ((∃ l, last = some l ∧ stop = some (l.stop + 1)) ∨
        last = none ∧ stop = none ∧ ∃ form base key, callee = .index form base key) := by
  unfold callSpan at h
  dsimp only at h
  split at h
  · next span found =>
    split at found
    · obtain ⟨start, first, found⟩ := Option.bind_eq_some_iff.mp found
      obtain ⟨x, ends, same⟩ := Option.bind_eq_some_iff.mp found
      obtain ⟨f, hf, rfl⟩ := Option.map_eq_some_iff.mp first
      obtain ⟨l, rfl, rfl⟩ := Option.map_eq_some_iff.mp ends
      cases same
      cases h
      exact ⟨f, Expr.head_of_first callee (anchor_of_token? hf), wordStartBefore_le _ _, .inl ⟨l, rfl, rfl⟩⟩
    · cases found
  · split at h
    · next form base key _ =>
      obtain ⟨start, rfl⟩ := Prod.mk.inj h
      obtain ⟨f, hf, rfl⟩ := Option.map_eq_some_iff.mp start
      refine ⟨f, Expr.head_of_first base (anchor_of_token? hf), Nat.le_refl _, ?_⟩
      cases last with
      | some l => exact .inl ⟨l, rfl, rfl⟩
      | none => exact .inr ⟨rfl, rfl, form, base, key, rfl⟩
    · obtain ⟨f, l, first, rfl, rfl, rfl⟩ := tokenSpan_eq h
      exact ⟨f, Expr.head_of_first callee first, Nat.le_refl _, .inl ⟨l, rfl, rfl⟩⟩

theorem findWord?_le {name text : Chars} {before : Option Char} {n : Nat}
    (h : findWord? name before text = some n) : n + name.length ≤ text.length := by
  induction text generalizing before n with
  | nil => cases h
  | cons c cs ih =>
    rw [findWord?] at h
    dsimp only at h
    split at h
    · next found =>
      cases h
      simp only [Bool.and_eq_true] at found
      have starts := (startsWith_iff.mp found.1.1).length_le
      omega
    · obtain ⟨m, later, rfl⟩ := Option.map_eq_some_iff.mp h
      have := ih later
      rw [length_cons]
      omega

theorem length_sourceFrom_le (source : Chars) (start : Nat) (stop : Option Nat) :
    (sourceFrom source start stop).length ≤ source.length - start := by
  unfold sourceFrom
  split
  · rw [slice, length_take, length_drop]
    exact Nat.min_le_right _ _
  · exact Nat.le_of_eq length_drop

section

variable {tree : Chunk} (parsed : Chunk.parse? source = some tree)
variable {e : Expr} {a : Nat} {stop : Option Nat}

include parsed

theorem allFrom_of_mem (he : .expr e ∈ tree.walk) : AllFrom (· ∈ scan source) e.walk :=
  fun n hn => Chunk.allFrom parsed n (Chunk.walk_subset he hn)

theorem fits_ends {f l : Token} (he : .expr e ∈ tree.walk) (head : e.head = .at f)
    (last : e.last = some l) (start : a ≤ f.start) : Fits source a (some (l.stop + 1)) := by
  have order : f.start ≤ l.start := Chunk.allInOrder parsed _ he f l head last
  have inside := stop_of_mem_scan ((allFrom_of_mem parsed he).last l last)
  exact .of_le (by omega) inside.2

theorem exprSpan_fits (he : .expr e ∈ tree.walk) (h : exprSpan source e = (some a, stop)) :
    Fits source a stop ∧ (stop = none → e.lacksEnd) := by
  have plain (h : tokenSpan e.first e.last = (some a, stop)) :
      Fits source a stop ∧ (stop = none → e.lacksEnd) := by
    obtain ⟨f, l, first, last, rfl, rfl⟩ := tokenSpan_eq h
    exact ⟨fits_ends parsed he (Expr.head_of_first e first) last (Nat.le_refl _), nofun⟩
  cases e with
  | call callee args last =>
    obtain ⟨f, head, start, ⟨l, rfl, rfl⟩ | ⟨rfl, rfl, form, base, key, rfl⟩⟩ := callSpan_eq h
    · exact ⟨fits_ends parsed he head rfl start, nofun⟩
    · have inside := stop_of_mem_scan ((allFrom_of_mem parsed he).head _ f head)
      exact ⟨⟨by omega, nofun⟩, fun _ => rfl⟩
  | nil | bool | number | string | varargs | name | index | invoke | function | table | binary | unary =>
    exact plain h

theorem nameSpanIn_fits {name : Chars} (he : .expr e ∈ tree.walk)
    (h : nameSpanIn source e name = (some a, stop)) :
    ∃ b, stop = some b ∧ a ≤ b ∧ b ≤ source.length := by
  unfold nameSpanIn at h
  split at h
  · cases h
  · next start stop' span =>
    have inside := (exprSpan_fits parsed he span).1.1
    dsimp only at h
    split at h
    · next n found =>
      cases h
      have reach : n + name.length ≤ (sourceFrom source start stop').length := by
        split at found
        · obtain ⟨xs, ys, whole, rfl⟩ := Text.find?_eq_some found
          rw [whole]
          simp
        · exact findWord?_le found
      have rest := length_sourceFrom_le source start stop'
      exact ⟨_, rfl, by omega, by omega⟩
    · cases h

theorem funcSpan_fits {c : Call} {name : Chars} (said : c.IsTrue)
    (he : .expr c.node ∈ tree.walk) (h : funcSpan source c.node name = (some a, stop)) :
    ∃ b, stop = some b ∧ a ≤ b ∧ b ≤ source.length := by
  have names := said.names
  have parts := allFrom_of_mem parsed he
  cases node : c.node with
  | call callee args last =>
    rw [node] at names he h parts
    cases callee with
    | name fn =>
      have span : exprSpan source (.name fn) = (some fn.token.start, some (fn.token.stop + 1)) := rfl
      simp only [funcSpan, span, Prod.mk.injEq, Option.some.injEq] at h
      obtain ⟨rfl, rfl⟩ := h
      have inner : Node.expr (.name fn) ∈ tree.walk :=
        Chunk.walk_subset he (by simp [Node.walk, Expr.walk])
      have fits := (exprSpan_fits parsed inner span).1
      exact ⟨_, rfl, fits.2 _ rfl⟩
    | index form base key =>
      simp only [funcSpan] at h
      split at h
      · next start stop' _ first last' =>
        cases h
        obtain ⟨f, hf, rfl⟩ := Option.map_eq_some_iff.mp first
        obtain ⟨l, hl, rfl⟩ := Option.map_eq_some_iff.mp last'
        have inner : Node.expr (.index form base key) ∈ tree.walk :=
          Chunk.walk_subset he (by simp [Node.walk, Expr.walk])
        have head : (Expr.index form base key).head = .at f := Expr.head_of_first base (anchor_of_token? hf)
        have fits := fits_ends parsed inner head hl (Nat.le_refl _)
        exact ⟨_, rfl, fits.2 _ rfl⟩
      · exact nameSpanIn_fits parsed he h
    | _ => cases names.1
  | invoke object method args =>
    rw [node] at he h parts
    cases h
    have kept : method.token ∈ scan source :=
      (parts (.expr (.name method)) (by simp [Expr.walk])).1 _ mem_cons_self
    have inside := stop_of_mem_scan kept
    exact ⟨_, rfl, by omega, inside.2⟩
  | _ =>
    rw [node] at names
    exact names.elim

end

/-! ## Edits -/

/-- The edit replaces a call as a whole, and the tree keeps no token for the end of the call. -/
def Edit.IsOpen (source : Chars) (tree : Chunk) (e : Edit) : Prop :=
  e.stop = none ∧ ∃ call start, .expr call ∈ tree.walk ∧ call.lacksEnd ∧
    exprSpan source call = (some start, none) ∧ e.start = (start : Int) ∧ start ≤ source.length

def Edit.IsPlaced (source : Chars) (tree : Chunk) (e : Edit) : Prop :=
  e.LiesIn source ∨ e.IsOpen source tree

theorem liesIn_editAt (order : a ≤ b) (inside : b ≤ source.length) (text : Chars)
    (priority : Int) : (editAt a (some b) text priority).LiesIn source :=
  ⟨Int.natCast_nonneg a, b, rfl, Int.ofNat_le.mpr order, Int.ofNat_le.mpr inside⟩

theorem liesIn_insertion {place : Nat} (inside : place ≤ source.length) (text : Chars) (priority : Int) :
    (editAt place (some place) text priority).LiesIn source :=
  liesIn_editAt (Nat.le_refl _) inside text priority

theorem liesIn_line (h : lineSpan source line = some (a, b)) (text : Chars) (priority : Int) :
    (editAt a (some b) text priority).LiesIn source :=
  liesIn_editAt (lineSpan_le (Int.le_refl _) h h).1 (lineSpan_le (Int.le_refl _) h h).2 text priority

theorem isPlaced_exprSpan {tree : Chunk} (parsed : Chunk.parse? source = some tree) {e : Expr}
    (he : .expr e ∈ tree.walk) (h : exprSpan source e = (some a, stop)) (text : Chars)
    (priority : Int) : (editAt a stop text priority).IsPlaced source tree := by
  obtain ⟨fits, lacks⟩ := exprSpan_fits parsed he h
  cases stop with
  | some b => exact .inl (liesIn_editAt (fits.2 b rfl).1 (fits.2 b rfl).2 text priority)
  | none => exact .inr ⟨rfl, e, a, he, lacks rfl, h, rfl, fits.1⟩

/-! ## Edits of lines -/

theorem commentLines_liesIn (first last : Nat) : ∀ e ∈ commentLines source first last, e.LiesIn source := by
  unfold commentLines
  split
  · exact nofun
  · dsimp only
    split
    · exact nofun
    · refine forall_mem_map.mpr fun span hs => ?_
      obtain ⟨n, -, found⟩ := mem_filterMap.mp (mem_filter.mp hs).1
      exact liesIn_line found _ _

theorem debugEdits_liesIn (f : Finding) : ∀ e ∈ debugEdits source f, e.LiesIn source := by
  unfold debugEdits
  split
  · exact commentLines_liesIn _ _
  · split
    · exact commentLines_liesIn _ _
    · exact nofun

theorem lineSpan_gives (line : Int) :
    Gives (lineSpan source line) fun s => lineSpan source line = some s := fun _ h => h

theorem nilGuardEdits_liesIn (f : Finding) : ∀ e ∈ nilGuardEdits source f, e.LiesIn source := by
  unfold nilGuardEdits
  refine Gives.toList (.guarded (.after fun var => .after fun assigned => .guarded ?_))
  refine (lineSpan_gives f.line).bind ?_
  rintro ⟨start, stop⟩ span
  dsimp only
  split
  · exact .none
  · exact .some (liesIn_line span _ _)

theorem deadCodeEdits_liesIn
    (order : ∀ a b, f.details.int? "start_line" = some a → f.details.int? "end_line" = some b → a ≤ b) :
    ∀ e ∈ deadCodeEdits source f, e.LiesIn source := by
  unfold deadCodeEdits
  refine Gives.toList (.guarded ?_)
  have first : Gives (f.details.int? "start_line") fun n => f.details.int? "start_line" = some n :=
    fun _ h => h
  have last : Gives (f.details.int? "end_line") fun n => f.details.int? "end_line" = some n := fun _ h => h
  refine first.bind fun first hf => last.bind fun last hl => (lineSpan_gives first).bind ?_
  rintro ⟨start, x⟩ front
  refine (lineSpan_gives last).bind ?_
  rintro ⟨y, stop⟩ back
  refine .after fun kind => ?_
  have inside := lineSpan_le (order _ _ hf hl) front back
  split
  · exact .some (liesIn_editAt inside.1 inside.2 _ _)
  · exact .none

theorem collectEdit?_liesIn (var : Chars) (line : Int) :
    Gives (collectEdit? source var line) fun e => e.LiesIn source := by
  refine (lineSpan_gives line).bind ?_
  rintro ⟨start, stop⟩ span
  exact .after fun part => .after fun part => .some (liesIn_line span _ _)

theorem lineEnd_gives (line : Int) : Gives (lineEnd source line) (· ≤ source.length) :=
  fun _ h => lineEnd_le h

theorem concatEdits_liesIn (f : Finding) : ∀ e ∈ concatEdits source f, e.LiesIn source := by
  unfold concatEdits
  refine Gives.getD (.after fun var => .after fun first => .after fun loopEnd => ?_)
  refine .guarded (.guarded (.guarded (.guarded ((lineSpan_gives first).bind ?_))))
  rintro ⟨start, stop⟩ span
  refine (Gives.mapM fun n _ => collectEdit?_liesIn var n).bind fun added ha => ?_
  refine (lineEnd_gives loopEnd).bind fun after inside => .some ?_
  refine forall_mem_cons.mpr ⟨liesIn_line span _ _, forall_mem_append.mpr ⟨ha, ?_⟩⟩
  exact forall_mem_singleton.mpr (liesIn_insertion inside _ _)

theorem declarationEdit?_liesIn (copy : ResultCopy) (scope : Scope) (firstLine lastLine : Nat) :
    Gives (declarationEdit? source copy scope firstLine lastLine) fun e => e.LiesIn source := by
  have start {line : Int} {a b : Nat} (span : lineSpan source line = some (a, b)) (text : Chars)
      (priority : Int) : (editAt a (some a) text priority).LiesIn source :=
    have inside := lineSpan_le (Int.le_refl _) span span
    liesIn_insertion (Nat.le_trans inside.1 inside.2) text priority
  unfold declarationEdit?
  refine (lineSpan_gives _).bind ?_
  rintro ⟨place, x⟩ span
  refine .guarded (.guarded (.guarded ?_))
  dsimp only
  split
  · split
    · exact .none
    · refine (lineSpan_gives _).bind ?_
      rintro ⟨place, y⟩ span
      dsimp only
      split
      · exact .none
      · exact .some (start span _ _)
  · exact .some (start span _ _)

/-! ## Edits of calls -/

section

variable {tree : Chunk} (parsed : Chunk.parse? source = some tree) {f : Finding}
include parsed

theorem formEdits_isPlaced (o : Options) {call : Expr} (pattern : f.pattern ∈ formPatterns)
    (node : f.details.node? "node" = some (.expr call)) (he : .expr call ∈ tree.walk) :
    ∀ e ∈ findingEdits o source f, e.IsPlaced source tree := by
  have span : Gives (findingSpan? source f) fun s => exprSpan source call = (some s.1, s.2) := by
    unfold findingSpan?
    rw [node]
    have start : Gives (exprSpan source call).1 fun a => (exprSpan source call).1 = some a := fun _ h => h
    exact start.bind fun a ha => .some (Prod.ext ha rfl)
  have placed {s : Nat × Option Nat} (h : exprSpan source call = (some s.1, s.2)) (text : Chars) :
      (editAt s.1 s.2 text).IsPlaced source tree := isPlaced_exprSpan parsed he h text 0
  simp only [formPatterns, mem_cons, not_mem_nil, or_false] at pattern
  rcases pattern with pattern | pattern | pattern | pattern
  · simp only [findingEdits, pattern]
    refine Gives.toList (span.bind fun s hs => .after fun table => .after fun value => ?_)
    split
    · exact .none
    · exact .some (placed hs _)
  · simp only [findingEdits, pattern]
    exact Gives.toList (span.bind fun s hs => .after fun name => .some (placed hs _))
  · simp only [findingEdits, pattern]
    exact Gives.toList (span.bind fun s hs => .after fun name => .some (placed hs _))
  · simp only [findingEdits, pattern]
    exact Gives.toList (span.bind fun s hs => .after fun base => .after fun text => .some (placed hs _))

theorem globalEdits_liesIn
    (calls : ∀ g ∈ globalCalls f, ∀ c ∈ g.2, c.IsTrue ∧ .expr c.node ∈ tree.walk) :
    ∀ e ∈ globalEdits source f, e.LiesIn source := by
  unfold globalEdits
  refine Gives.getD (.after fun scope => .guarded ((lineEnd_gives _).bind fun place inside => .some ?_))
  refine forall_mem_cons.mpr ⟨liesIn_insertion inside _ _, fun e he => ?_⟩
  obtain ⟨g, hg, he⟩ := mem_flatMap.mp he
  obtain ⟨call, hc, use⟩ := mem_filterMap.mp he
  obtain ⟨said, mem⟩ := calls g hg call hc
  unfold copyUse? at use
  split at use
  · next start stop span =>
    cases use
    obtain ⟨b, rfl, order, inside⟩ := funcSpan_fits parsed said mem span
    exact liesIn_editAt order inside _ _
  · cases use

theorem repeatedCallEdits_isPlaced {calls : List Call} (kept : f.details.calls? "calls" = some calls)
    (mem : ∀ c ∈ calls, .expr c.node ∈ tree.walk) :
    ∀ e ∈ repeatedCallEdits source f, e.IsPlaced source tree := by
  have uses (copy : ResultCopy) (cs : List Call) (hc : ∀ c ∈ cs, c ∈ calls) :
      ∀ e ∈ cs.filterMap (resultUse? source copy), e.IsPlaced source tree := by
    intro e he
    obtain ⟨call, used, use⟩ := mem_filterMap.mp he
    unfold resultUse? at use
    split at use
    · cases use
    · split at use
      · next start stop span =>
        cases use
        exact isPlaced_exprSpan parsed (mem call (hc call used)) span _ _
      · cases use
  have named : Gives (f.details.calls? "calls") (· = calls) :=
    fun _ h => Option.some.inj (h.symm.trans kept)
  unfold repeatedCallEdits cachePlan?
  refine Gives.getD (.map (named.bind ?_))
  rintro _ rfl
  refine .after fun scope => .after fun first => .after fun last => .after fun copy => ?_
  split
  · exact .some (uses copy _ fun _ hc => (mem_filter.mp hc).1)
  · refine (declarationEdit?_liesIn copy scope _ _).bind fun declaration hd => .some ?_
    exact forall_mem_cons.mpr ⟨.inl hd, uses copy _ fun _ hc => hc⟩

end

/-! ## Edits of findings -/

def wholePatterns : List String :=
  formPatterns ++ ["debug_statement", "uncached_globals_summary", "string_concat_in_loop",
    "potential_nil_access"]

theorem findingEdits_of_start (o : Options) {start : Chars}
    (h : startsWith f.pattern.toList start)
    (other : ∀ p ∈ wholePatterns, startsWith p.toList start = false) :
    findingEdits o source f =
      if startsWith f.pattern.toList "dead_code_".toList then
        if o.removeDeadCode then deadCodeEdits source f else []
      else if startsWith f.pattern.toList "repeated_".toList then repeatedCallEdits source f
      else [] := by
  have whole (p : String) (hp : p ∈ wholePatterns) : f.pattern ≠ p := by
    rintro rfl
    exact Bool.false_ne_true ((other _ hp).symm.trans h)
  unfold findingEdits
  split
  iterate 8
    next same => exact absurd same (whole _ (by decide))
  rfl

theorem findingEdits_of_repeated (o : Options)
    (h : startsWith f.pattern.toList "repeated_".toList) :
    findingEdits o source f = repeatedCallEdits source f := by
  rw [findingEdits_of_start o h (by decide), if_neg fun dead => not_repeated_of_dead dead h, if_pos h]

theorem findingEdits_of_dead (o : Options)
    (h : startsWith f.pattern.toList "dead_code_".toList) :
    findingEdits o source f = if o.removeDeadCode then deadCodeEdits source f else [] := by
  rw [findingEdits_of_start o h (by decide), if_pos h]

theorem mem_globalCalls {settings : Settings} {scopes : List Scope} {calls : List Call}
    (hf : f ∈ Rules.uncachedFindings settings scopes calls) :
    ∀ g ∈ globalCalls f, ∀ c ∈ g.2, c ∈ calls := by
  obtain ⟨g', hg', s, -, summary⟩ := of_mem_uncachedFindings hf
  intro g hg c hc
  rw [globalCalls, summary.calls] at hg
  obtain ⟨group, hgroup, rfl⟩ := mem_map.mp hg'
  have named : g ∈ groupOn (·.fullName) group.2 := (mem_filter.mp hg).1
  exact (mem_groupOn hgroup).2 c ((mem_groupOn named).2 c hc)

theorem findingEdits_isPlaced {tree : Chunk} {t : Tracker} {settings : Settings} (o : Options)
    (parsed : Chunk.parse? source = some tree) (visited : visitChunk tree (lines source) = .ok t)
    {k : RuleKind} (made : f.MadeOf ⟨source, tree, t⟩ settings k) :
    ∀ e ∈ findingEdits o source f, e.IsPlaced source tree := by
  have recorded : ∀ c ∈ t.calls, .expr c.node ∈ tree.walk := node_mem_walk visited
  cases made with
  | form c hc rule =>
    obtain ⟨p, hp, about⟩ := rule.exists_isAbout
    exact formEdits_isPlaced parsed o (about.pattern ▸ hp) about.node (recorded c hc)
  | globals found =>
    obtain ⟨_, _, _, _, summary⟩ := of_mem_uncachedFindings found
    simp only [findingEdits, summary.pattern]
    refine fun e he => .inl (globalEdits_liesIn parsed (fun g hg c hc => ?_) e he)
    have mem := mem_globalCalls found g hg c hc
    exact ⟨calls_isTrue visited c mem, recorded c mem⟩
  | repeated found =>
    obtain ⟨name, id, scope, -, -, pattern, -, calls, -⟩ := mem_repeatedFindings found
    rw [findingEdits_of_repeated o (pattern ▸ startsWith_repeatedPattern name)]
    exact repeatedCallEdits_isPlaced parsed calls fun c hc => recorded c (mem_filter.mp hc).1
  | concat found =>
    simp only [findingEdits, (concatFindings_notes _ f found).1.pattern]
    split
    · exact fun e he => .inl (concatEdits_liesIn f e he)
    · exact nofun
  | debug c hc found =>
    simp only [findingEdits, (of_debugFinding? found).1.pattern]
    exact fun e he => .inl (debugEdits_liesIn f e he)
  | nilAccess u hu found =>
    have pattern : f.pattern = "potential_nil_access" := found ▸ rfl
    simp only [findingEdits, pattern]
    split
    · exact fun e he => .inl (nilGuardEdits_liesIn f e he)
    · exact nofun
  | dead d hd found =>
    have pattern : f.pattern = "dead_code_" ++ d.kind.name := found ▸ rfl
    rw [findingEdits_of_dead o (pattern ▸ startsWith_deadCode d.kind)]
    subst found
    split
    · refine fun e he => .inl (deadCodeEdits_liesIn (fun a b first last => ?_) e he)
      have order := Rules.startLine_le_endLine parsed d hd
      cases first
      cases last
      exact Int.ofNat_le.mpr order
    · exact nofun
  | lengths notes none =>
    rw [findingEdits_of_isAdvice o (.inr ⟨notes.pattern, none⟩)]
    exact nofun
  | advice p hp notes =>
    rw [findingEdits_of_isAdvice o (.inl (notes.pattern ▸ hp))]
    exact nofun

/-- Every edit for the findings about a script has bounds in the script, or replaces a call
`base.key{…}` as a whole and has no end. Where no edit is of the second kind, conflicts can be
settled and the edits that are kept are made, each at its place. -/
theorem sourceEdits_placed {tree : Chunk} {findings : List Finding} (o : Options)
    (parsed : Chunk.parse? source = some tree) (found : analyzeSource {} source = .ok findings) :
    (∀ e ∈ sourceEdits o source findings, e.LiesIn source ∨ e.IsOpen source tree) ∧
      ((∀ e ∈ sourceEdits o source findings, ¬ e.IsOpen source tree) →
        ∃ kept, Edit.retain (sourceEdits o source findings) = .ok kept ∧
          Edit.apply (sourceEdits o source findings) source = .ok (Edit.applyAll kept source) ∧
          (¬ Edit.CutsInsertion kept → Edit.applyAll kept source = Edit.substitute kept source)) := by
  have placed : ∀ e ∈ sourceEdits o source findings, e.IsPlaced source tree := by
    intro e he
    obtain ⟨f, hf, edit⟩ := mem_flatMap.mp he
    obtain ⟨t, visited, rfl⟩ := exists_visit parsed found
    exact findingEdits_isPlaced o parsed visited (Finding.madeOf f (mem_of_mem_fixable hf)) e edit
  refine ⟨placed, fun closed => ?_⟩
  have lie : ∀ e ∈ sourceEdits o source findings, e.LiesIn source :=
    fun e he => (placed e he).resolve_right (closed e he)
  obtain ⟨kept, settled⟩ := Edit.retain_isOk lie
  refine ⟨kept, settled, by rw [Edit.apply, settled]; rfl, fun uncut => ?_⟩
  have ends := Edit.backwards_ends lie settled uncut
  have inside : ∀ e ∈ Edit.backwards kept, e.LiesIn source :=
    fun e he => lie e (Edit.mem_of_mem_retain settled (mem_sortBy.mp he))
  exact (Edit.foldl_applyTo inside ends).trans (Edit.substitute_backwards kept source)

def fixPasses (o : Options) (source : Chars) (test : Chunk → List Finding → Fixed → Bool) : Bool :=
  match Chunk.parse? source, analyzeSource {} source, fixSource o source with
  | some tree, .ok findings, .ok fixed => test tree findings fixed
  | _, _, _ => false

theorem of_fixPasses {o : Options} {source : Chars} {test : Chunk → List Finding → Fixed → Bool}
    (h : fixPasses o source test) :
    ∃ tree findings fixed, Chunk.parse? source = some tree ∧ analyzeSource {} source = .ok findings ∧
      fixSource o source = .ok fixed ∧ test tree findings fixed := by
  unfold fixPasses at h
  split at h
  · next tree findings fixed parsed found made => exact ⟨tree, findings, fixed, parsed, found, made, h⟩
  · cases h

def printedLengths : Chars := "x = table.getn(t)\nprint(x, string.len(y), math.pow(x, 2))\n".toList

theorem printedLengths_placed : ∃ tree findings kept, Chunk.parse? printedLengths = some tree ∧
    analyzeSource {} printedLengths = .ok findings ∧
    (sourceEdits { fixDebug := true } printedLengths findings).length = 4 ∧
    (∀ e ∈ sourceEdits { fixDebug := true } printedLengths findings,
      e.LiesIn printedLengths ∨ e.IsOpen printedLengths tree) ∧
    Edit.retain (sourceEdits { fixDebug := true } printedLengths findings) = .ok kept ∧
    Edit.apply (sourceEdits { fixDebug := true } printedLengths findings) printedLengths =
      .ok (Edit.applyAll kept printedLengths) := by
  have checked : fixPasses { fixDebug := true } printedLengths fun _ findings _ =>
      let es := sourceEdits { fixDebug := true } printedLengths findings
      es.length == 4 && es.all fun e => e.stop.isSome := by
    decide +kernel
  obtain ⟨tree, findings, fixed, parsed, found, -, passed⟩ := of_fixPasses checked
  simp only [Bool.and_eq_true, beq_iff_eq, all_eq_true] at passed
  obtain ⟨four, closed⟩ := passed
  obtain ⟨placed, settled⟩ := sourceEdits_placed { fixDebug := true } parsed found
  obtain ⟨kept, retained, applied, -⟩ := settled fun e he isOpen => by
    have known := closed e he
    rw [isOpen.1] at known
    cases known
  exact ⟨tree, findings, kept, parsed, found, four, placed, retained, applied⟩

def bareTableLength : Chars := "x = table.getn\x7b1,2\x7d\n".toList

/-- The edit of the call has no end, and the whole script is written behind it again. -/
theorem bareTableLength_doubled : ∃ tree findings e fixed, Chunk.parse? bareTableLength = some tree ∧
    analyzeSource {} bareTableLength = .ok findings ∧ sourceEdits {} bareTableLength findings = [e] ∧
    e.stop = none ∧ fixSource {} bareTableLength = .ok fixed ∧
    fixed.content = "x = #\x7b...\x7d".toList ++ bareTableLength := by
  have checked : fixPasses {} bareTableLength fun _ findings fixed =>
      let es := sourceEdits {} bareTableLength findings
      es.length == 1 && es.all (fun e => e.stop.isNone) &&
      fixed.content == "x = #\x7b...\x7d".toList ++ bareTableLength := by
    decide +kernel
  obtain ⟨tree, findings, fixed, parsed, found, fixes, passed⟩ := of_fixPasses checked
  simp only [Bool.and_eq_true, beq_iff_eq, all_eq_true] at passed
  obtain ⟨⟨one, isOpen⟩, content⟩ := passed
  obtain ⟨e, only⟩ := length_eq_one_iff.mp one
  have stop := isOpen e (by rw [only]; exact mem_singleton_self e)
  exact ⟨tree, findings, e, fixed, parsed, found, only, Option.isNone_iff_eq_none.mp stop, fixes, content⟩

end LuaTune.Fix
