import LuaTune.Proofs.Finding.ShownLines
import LuaTune.Proofs.Lua.Placed

/-!
# Where dead code stands

A dead piece of code is the end of some block of the script, after a jump, or a conditional or loop
whose test never holds.
-/

namespace LuaTune.Lua

open Text List

theorem line_of_mem_scan {source : Chars} {t : Token} (h : t ∈ scan source) :
    t.line = countChar '\n' (source.take t.start) + 1 := by
  obtain ⟨passed, c, rest, whole, start, line⟩ := token_behind [] h ⟨rfl, rfl⟩
  rw [nil_append] at whole
  rw [line, start, whole, take_left]

theorem line_le {source : Chars} {f l : Token} (hf : f ∈ scan source) (hl : l ∈ scan source)
    (order : f.start ≤ l.start) : f.line ≤ l.line := by
  rw [line_of_mem_scan hf, line_of_mem_scan hl]
  exact Nat.succ_le_succ ((take_sublist_take_left order).count_le _)

end LuaTune.Lua

namespace LuaTune.Rules

open Lua List

variable {kind : DeadKind} {name : String} {inLoop : Bool} {d : DeadCode} {ns : List Node}
    {ss : List Stat}

def EndsBlock (ns : List Node) (ss : List Stat) : Prop :=
  ∃ front, .block (front ++ ss) ∈ ns ∧ walkStats (front ++ ss) ⊆ ns

theorem EndsBlock.tail {s : Stat} (h : EndsBlock ns (s :: ss)) : EndsBlock ns ss := by
  obtain ⟨front, block⟩ := h
  exact ⟨front ++ [s], by simpa using block⟩

theorem EndsBlock.whole (body : List Stat) (held : Node.block body ∈ ns) (sub : walkStats body ⊆ ns) :
    EndsBlock ns body :=
  ⟨[], held, sub⟩

theorem EndsBlock.walk_subset (h : EndsBlock ns ss) {s : Stat} (hs : s ∈ ss) : s.walk ⊆ ns := by
  obtain ⟨front, -, sub⟩ := h
  exact fun n hn => sub (mem_walkStats.mpr ⟨s, mem_append_right _ hs, hn⟩)

def DeadCode.IsTailIn (ns : List Node) (d : DeadCode) : Prop :=
  ∃ kind name inLoop jump rest, EndsBlock ns (jump :: rest) ∧ isJump kind inLoop jump ∧
    deadTail? kind name rest = some d

mutual

theorem isTailIn_of_deadInStats : ∀ {ss : List Stat} {name : String} {inLoop : Bool} {ns : List Node},
    EndsBlock ns ss → d ∈ deadInStats kind name inLoop ss → d.IsTailIn ns
  | [], _, _, _, _, h => by cases h
  | s :: rest, name, inLoop, ns, block, h => by
    rw [deadInStats, mem_append, mem_append] at h
    rcases h with (h | h) | h
    · split at h
      · next jump => exact ⟨kind, name, inLoop, s, rest, block, jump, Option.mem_toList.mp h⟩
      · cases h
    · exact isTailIn_of_deadInStat (block.walk_subset mem_cons_self) h
    · exact isTailIn_of_deadInStats block.tail h

theorem isTailIn_of_deadInStat : ∀ {s : Stat} {name : String} {inLoop : Bool} {ns : List Node},
    s.walk ⊆ ns → d ∈ deadInStat kind name inLoop s → d.IsTailIn ns
  | .function _ _ _ _ _ body, _, _, _, sub, h | .localFunction _ _ _ _ body, _, _, _, sub, h
  | .method _ _ _ _ _ _ body, _, _, _, sub, h | .whileLoop _ body, _, _, _, sub, h
  | .repeatLoop body _, _, _, _, sub, h | .numericFor _ _ body, _, _, _, sub, h
  | .genericFor _ _ body, _, _, _, sub, h => by
    refine isTailIn_of_deadInStats (.whole body (sub ?_) fun n hn => sub ?_) h
    · simp [Stat.walk]
    · simp [Stat.walk, hn]
  | .ifThen _ body orelse, _, _, _, sub, h => by
    rw [deadInStat, mem_append] at h
    rcases h with h | h
    · refine isTailIn_of_deadInStats (.whole body (sub ?_) fun n hn => sub ?_) h
      · simp [Stat.walk]
      · simp [Stat.walk, hn]
    · exact isTailIn_of_deadInOrelse (fun n hn => sub (by simp [Stat.walk, hn])) h
  | .assign _ _ _ _, _, _, _, _, h | .localAssign _ _ _, _, _, _, _, h | .expr _, _, _, _, _, h
  | .block _, _, _, _, _, h | .breakLoop, _, _, _, _, h | .goto _, _, _, _, _, h
  | .label _, _, _, _, _, h | .semicolon, _, _, _, _, h | .returnNothing _ _, _, _, _, _, h
  | .returnValues _ _ _, _, _, _, _, h => by cases h

theorem isTailIn_of_deadInOrelse : ∀ {o : Orelse} {name : String} {inLoop : Bool} {ns : List Node},
    o.walk ⊆ ns → d ∈ deadInOrelse kind name inLoop o → d.IsTailIn ns
  | .none, _, _, _, _, h => by cases h
  | .elseif _ body orelse, _, _, _, sub, h => by
    rw [deadInOrelse, mem_append] at h
    rcases h with h | h
    · refine isTailIn_of_deadInStats (.whole body (sub ?_) fun n hn => sub ?_) h
      · simp [Orelse.walk]
      · simp [Orelse.walk, hn]
    · exact isTailIn_of_deadInOrelse (fun n hn => sub (by simp [Orelse.walk, hn])) h
  | .block body, _, _, _, sub, h => by
    refine isTailIn_of_deadInStats (.whole body (sub ?_) fun n hn => sub ?_) h
    · simp [Orelse.walk]
    · simp [Orelse.walk, hn]

end

/-! ## Lines -/

theorem endLineOf_eq (s : Stat) :
    endLineOf s = 0 ∨ ∃ t ∈ s.ends, endLineOf s = t.line ∧ (s.last = some t ∨ s.first = .at t) := by
  unfold endLineOf Node.endLine Node.line
  dsimp only [Node.last, Node.first]
  cases last : s.last with
  | some t => exact .inr ⟨t, by simp [Stat.ends, last], rfl, .inl rfl⟩
  | none =>
    cases first : s.first with
    | «at» t => exact .inr ⟨t, by simp [Stat.ends, first, Anchor.token?], rfl, .inr rfl⟩
    | absent | unreadable => exact .inl rfl

theorem line_le_endLineOf {source : Chars} {first last : Stat} (order : StatsInOrder ss)
    (tokens : ∀ s ∈ ss, ∀ t ∈ s.ends, t ∈ scan source) (head : ss.head? = some first)
    (tail : ss.getLast? = some last) (ends : endLineOf last ≠ 0) : first.line ≤ endLineOf last := by
  obtain ⟨more, rfl⟩ := List.head?_eq_some_iff.mp head
  rcases endLineOf_eq last with none | ⟨l, hl, line, kept⟩
  · exact absurd none ends
  · cases anchor : first.first with
    | absent | unreadable => simp [Stat.line, Anchor.line, anchor, Anchor.token?]
    | «at» f =>
      have hf : f ∈ first.ends := by simp [Stat.ends, anchor, Anchor.token?]
      have start : first.line = f.line := by simp [Stat.line, Anchor.line, anchor, Anchor.token?]
      rw [start, line]
      refine line_le (tokens first mem_cons_self f hf) (tokens last (mem_of_getLast? tail) l hl) ?_
      cases more with
      | nil =>
        cases tail
        rcases kept with kept | kept
        · exact order.each _ mem_cons_self f l anchor kept
        · cases anchor.symm.trans kept
          exact Nat.le_refl _
      | cons s more =>
        have behind : last ∈ s :: more := by
          rw [List.getLast?_cons_cons] at tail
          exact mem_of_getLast? tail
        exact (pairwise_cons.mp order.pairs).1 last behind f hf l hl

theorem deadCode_cases {tree : Chunk} :
    ∀ d ∈ deadCode tree, d.IsTailIn tree.walk ∨ d.startLine = 0 ∧ d.endLine = 0 := by
  have tests (kind : DeadKind) : ∀ d ∈ tree.walk.filterMap (falseTest? kind), d.startLine = 0 ∧ d.endLine = 0 := by
    refine Gives.filterMap fun n _ d found => ?_
    unfold falseTest? at found
    split at found
    · split at found
      · cases found
        exact ⟨rfl, rfl⟩
      · cases found
    · split at found
      · cases found
        exact ⟨rfl, rfl⟩
      · cases found
    · cases found
  have whole : EndsBlock tree.walk tree :=
    ⟨[], by simp [Chunk.walk], fun n hn => by simpa [Chunk.walk] using .inr (.inr hn)⟩
  have tails (kind : DeadKind) : ∀ d ∈ deadInStats kind "<global>" false tree, d.IsTailIn tree.walk :=
    fun d hd => isTailIn_of_deadInStats whole hd
  unfold deadCode
  simp only [forall_mem_append]
  exact ⟨⟨⟨fun d hd => .inl (tails _ d hd), fun d hd => .inl (tails _ d hd)⟩, fun d hd => .inr (tests _ d hd)⟩,
    fun d hd => .inr (tests _ d hd)⟩

theorem startLine_le_endLine {source : Chars} {tree : Chunk} (parsed : Chunk.parse? source = some tree) :
    ∀ d ∈ deadCode tree, d.startLine ≤ d.endLine := by
  intro d hd
  rcases deadCode_cases d hd with tail | ⟨start, stop⟩
  · obtain ⟨kind, name, inLoop, jump, rest, ⟨front, block, sub⟩, -, found⟩ := tail
    have order : StatsInOrder (front ++ jump :: rest) := Chunk.allInOrder parsed _ block
    have tokens : ∀ s ∈ front ++ jump :: rest, ∀ t ∈ s.ends, t ∈ scan source := by
      intro s hs
      refine AllFrom.ends fun n hn => Chunk.allFrom parsed n (sub ?_)
      exact mem_walkStats.mpr ⟨s, hs, hn⟩
    unfold deadTail? at found
    dsimp only at found
    split at found
    · next first last head tail =>
      cases found
      dsimp only
      split
      · exact Nat.le_refl _
      · next ends =>
        have behind : (rest.filter fun s => !isSemicolon s).Sublist (front ++ jump :: rest) :=
          filter_sublist.trans ((sublist_cons_self _ _).trans (sublist_append_right _ _))
        exact line_le_endLineOf
          ⟨fun s hs => order.each s (behind.subset hs), order.pairs.sublist behind⟩
          (fun s hs => tokens s (behind.subset hs)) head tail ends
    · cases found
  · rw [start, stop]

end LuaTune.Rules
