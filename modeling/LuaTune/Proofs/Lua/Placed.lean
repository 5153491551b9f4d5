import LuaTune.Proofs.Lua.Parsing
import LuaTune.Proofs.Lua.Parts
import LuaTune.Proofs.Lua.Pieces

/-!
# Where the nodes of a tree stand

No expression ends before it starts, and no statement of a block starts or ends before one in front
of it. A call with parentheses keeps its closing one, and in front of that stand the tokens from
which its arguments were read. One induction on the derivation of a script shows all of this.
-/

namespace LuaTune.Lua

open Grammar List

variable {P : Token → Prop} {low low' ts us rest : List Token} {t : Token} {e : Expr}

/-! ## Order -/

def Expr.head : Expr → Anchor
  | .index _ base _ => base.head
  | .call callee _ _ => callee.head
  | .invoke source _ _ => source.head
  | e => e.first

theorem Expr.head_of_first : ∀ e : Expr, e.first = .at t → e.head = .at t
  | .index form base _, h => by
    cases form with
    | dot | bracket => exact head_of_first base h
    | declared => cases h
  | .call base _ _, h | .invoke base _ _, h => head_of_first base h
  | .nil _, h | .bool _ _, h | .number _ _, h | .string _ _ _, h | .varargs, h | .name _, h
  | .function _ _ _ _, h | .table _ _, h | .binary _ _ _, h | .unary _ _ _, h => h

theorem AllFrom.head : ∀ e : Expr, AllFrom P e.walk → ∀ t, e.head = .at t → P t
  | .index _ base _, h, t, ht | .call base _ _, h, t, ht | .invoke base _ _, h, t, ht => by
    simp only [Expr.walk, cons_append, allFrom_cons, allFrom_append] at h
    exact AllFrom.head base h.2.1 t ht
  | .nil _, h, t, ht | .bool _ _, h, t, ht | .number _ _, h, t, ht | .string _ _ _, h, t, ht
  | .varargs, h, t, ht | .name _, h, t, ht | .function _ _ _ _, h, t, ht | .table _ _, h, t, ht
  | .binary _ _ _, h, t, ht | .unary _ _ _, h, t, ht => by
    exact h.first t (congrArg Anchor.token? (show Expr.first _ = .at t from ht))

theorem AllFrom.last (h : AllFrom P e.walk) : ∀ t ∈ e.last, P t := by
  intro t ht
  have own := (h (.expr e) (mem_walk e)).1
  cases e with
  | index form base key =>
    simp only [Expr.walk, cons_append, allFrom_cons, allFrom_append] at h
    cases form with
    | dot =>
      cases key with
      | name id =>
        cases ht
        exact (h.2.2 _ (mem_walk _)).1 _ mem_cons_self
      | _ => cases ht
    | bracket | declared => cases ht
  | nil | bool | string | name | function | unary =>
    cases ht
    exact own _ (by simp)
  | number | call => exact own t (Option.mem_toList.mpr ht)
  | varargs | invoke | table | binary => cases ht

def Stat.ends (s : Stat) : List Token := s.first.token?.toList ++ s.last.toList

theorem AllFrom.ends {P : Token → Prop} {s : Stat} (h : AllFrom P s.walk) : ∀ t ∈ s.ends, P t := by
  intro t ht
  have own (mem : Node.stat s ∈ s.walk) (kept : t ∈ s.kept) : P t := (h _ mem).1 t kept
  cases s with
  | expr e =>
    rcases mem_append.mp ht with ht | ht
    · exact AllFrom.first h t (Option.mem_toList.mp ht)
    · exact AllFrom.last h t (Option.mem_toList.mp ht)
  | localAssign first targets values =>
    rcases mem_append.mp ht with ht | ht
    · exact own (by simp [Stat.walk]) ht
    · obtain ⟨e, last, found⟩ := Option.bind_eq_some_iff.mp (Option.mem_toList.mp ht)
      refine AllFrom.last (e := e) (fun n hn => h n ?_) t found
      exact mem_append_right _ (mem_walkExprs.mpr ⟨e, mem_of_getLast? last, hn⟩)
  | assign | function | method | localFunction | returnValues | returnNothing =>
    exact own (by simp [Stat.walk]) ht
  | whileLoop | repeatLoop | ifThen | numericFor | genericFor | block | breakLoop | goto | label
  | semicolon => cases ht

def Expr.InOrder (e : Expr) : Prop := ∀ f l, e.head = .at f → e.last = some l → f.start ≤ l.start

def Stat.InOrder (s : Stat) : Prop := ∀ f l, s.first = .at f → s.last = some l → f.start ≤ l.start

/-- No statement ends before it starts, or starts or ends before one in front of it. -/
structure StatsInOrder (ss : List Stat) : Prop where
  each : ∀ s ∈ ss, s.InOrder
  pairs : ss.Pairwise fun s s' => ∀ f ∈ s.ends, ∀ l ∈ s'.ends, f.start ≤ l.start

@[simp]
def Node.InOrder : Node → Prop
  | .expr e => e.InOrder
  | .block ss | .chunk ss => StatsInOrder ss
  | _ => True

@[simp]
theorem Expr.InOrder.of_last (h : e.last = none ∨ e.last.map .at = some e.head) : e.InOrder := by
  intro f l hf hl
  rw [hf, hl] at h
  cases h with
  | inl none => cases none
  | inr same =>
    cases same
    exact Nat.le_refl _

theorem Stat.InOrder.absent {s : Stat} (first : s.first = .absent) : s.InOrder := by
  intro f l hf
  rw [first] at hf
  cases hf

attribute [local simp] Expr.first Expr.head Expr.last Anchor.ofToken?

/-! ## Calls -/

def Expr.NamedIn (ts : List Token) : Expr → Prop
  | .name id => ∃ t ∈ ts, t.kind = .name ∧ id = identAt t
  | .index _ base key => base.NamedIn ts ∧ key.NamedIn ts
  | _ => True

theorem Expr.NamedIn.mono {ts us : List Token} (sub : ts ⊆ us) :
    ∀ {e : Expr}, e.NamedIn ts → e.NamedIn us
  | .name _, ⟨t, ht, found⟩ => ⟨t, sub ht, found⟩
  | .index _ _ _, ⟨base, key⟩ => ⟨base.mono sub, key.mono sub⟩
  | .nil _, _ | .bool _ _, _ | .number _ _, _ | .string _ _ _, _ | .varargs, _ | .call _ _ _, _
  | .invoke _ _ _, _ | .function _ _ _ _, _ | .table _ _, _ | .binary _ _ _, _ | .unary _ _ _, _ =>
    trivial

/-- The arguments of a call were read from the tokens between two parentheses, and what is called
stands before them. -/
def Encloses (all : List Token) (callee : Expr) (args : List Expr) (close : Token) : Prop :=
  ∃ before opening inner after, all = before ++ opening :: (inner ++ close :: after) ∧
    opening.kind = .symbol .openParen ∧
    Reads .arguments (inner ++ close :: after) (.arguments args close) after ∧ callee.NamedIn before

@[simp]
def Node.CallIn (all : List Token) : Node → Prop
  | .expr (.call callee args last) =>
    (∃ close, last = some close ∧ Encloses all callee args close) ∨
      args.length = 1 ∧ ∀ t ∈ last, t.kind ≠ .symbol .closeParen
  | _ => True

theorem Node.CallIn.widen (hl : low <:+ low') : ∀ {n : Node}, n.CallIn low → n.CallIn low'
  | .expr (.call callee args last), h => by
    obtain ⟨front, rfl⟩ := hl
    refine h.imp_left fun ⟨close, found, before, opening, inner, after, whole, paren, read, names⟩ => ?_
    refine ⟨close, found, front ++ before, opening, inner, after, by rw [whole, append_assoc], paren, read, ?_⟩
    exact names.mono (subset_append_right _ _)
  | .expr (.nil _), _ | .expr (.bool _ _), _ | .expr (.number _ _), _ | .expr (.string _ _ _), _
  | .expr .varargs, _ | .expr (.name _), _ | .expr (.index _ _ _), _ | .expr (.invoke _ _ _), _
  | .expr (.function _ _ _ _), _ | .expr (.table _ _), _ | .expr (.binary _ _ _), _
  | .expr (.unary _ _ _), _ | .binder _, _ | .field _, _ | .stat _, _ | .elseif _ _ _, _ | .block _, _
  | .chunk _, _ => trivial

namespace Grammar

variable {t : Token} {e : Expr} {k : Nat}

/-! ## Places -/

def before (low ts : List Token) : List Token := low.take (low.length - ts.length)

theorem before_append (front ts : List Token) : before (front ++ ts) ts = front := by
  simp [before]

theorem before_mono (h : Takes k ts us) : before low ts ⊆ before low us := by
  have := h.length_le
  exact take_subset_take_left _ (by omega)

theorem Takes.suffix (h : Takes k ts us) (hs : ts <:+ low) : us <:+ low := by
  obtain ⟨taken, rfl, -⟩ := h
  exact (suffix_append _ _).trans hs

theorem mem_of_before (h : t ∈ before low rest) : t ∈ low := mem_of_mem_take h

structure Behind (low ts : List Token) : Prop where
  sorted : low.Pairwise fun s t => s.start < t.start
  suffix : ts <:+ low

namespace Behind

variable {k : Nat} {t f l : Token}

theorem next (h : Behind low ts) (ht : Takes k ts us) : Behind low us := ⟨h.sorted, ht.suffix h.suffix⟩

theorem tail (h : Behind low (t :: ts)) : Behind low ts := h.next Takes.refl.cons

theorem own (h : Behind low ts) : Behind ts ts := ⟨h.sorted.sublist h.suffix.sublist, suffix_refl _⟩

theorem mem (h : Behind low (t :: ts)) : t ∈ before low ts := by
  obtain ⟨front, rfl⟩ := h.suffix
  rw [append_cons, before_append]
  simp

theorem taken (h : Behind low (t :: ts)) (ht : Takes k ts rest) : t ∈ before low rest :=
  before_mono ht h.mem

theorem widen (h : Behind low ts) : before ts rest ⊆ before low rest := by
  obtain ⟨front, rfl⟩ := h.suffix
  intro t ht
  unfold before at ht ⊢
  rw [length_append, take_append]
  refine mem_append_right _ (take_subset_take_left _ ?_ ht)
  omega

theorem start_lt (h : Behind low ts) (hf : f ∈ before low ts) (hl : l ∈ ts) : f.start < l.start := by
  obtain ⟨sorted, front, rfl⟩ := h
  rw [before_append] at hf
  exact (pairwise_append.mp sorted).2.2 f hf l hl

theorem start_le (h : Behind low (t :: ts)) (hl : l ∈ t :: ts) : t.start ≤ l.start := by
  rcases mem_cons.mp hl with rfl | later
  · exact Nat.le_refl _
  · exact Nat.le_of_lt (h.tail.start_lt h.mem later)

end Behind

theorem Takes.mem {l : Token} (h : Takes k ts us) (hl : l ∈ before us rest) : l ∈ t :: ts :=
  mem_cons_of_mem _ ((h.suffix (suffix_refl _)).subset (mem_of_before hl))

/-- What a node keeps stands in front of the tokens that are left, in order, and so do the arguments of
a call. -/
@[simp]
def Node.Placed (low rest : List Token) (n : Node) : Prop :=
  n.From (· ∈ before low rest) ∧ n.InOrder ∧ n.CallIn low

def AllPlaced (low rest : List Token) (ns : List Node) : Prop := ∀ n ∈ ns, Node.Placed low rest n

@[simp]
theorem allPlaced_nil : AllPlaced low rest [] := by
  simp [AllPlaced]

@[simp]
theorem allPlaced_cons {n : Node} {ns : List Node} :
    AllPlaced low rest (n :: ns) ↔ Node.Placed low rest n ∧ AllPlaced low rest ns :=
  forall_mem_cons

@[simp]
theorem allPlaced_append {ns ms : List Node} :
    AllPlaced low rest (ns ++ ms) ↔ AllPlaced low rest ns ∧ AllPlaced low rest ms :=
  forall_mem_append

section

variable {ns : List Node}

theorem AllPlaced.allFrom (h : AllPlaced low rest ns) : AllFrom (· ∈ before low rest) ns :=
  fun n hn => (h n hn).1

theorem AllPlaced.mono (h : AllPlaced low us ns) (ht : Takes k us rest) : AllPlaced low rest ns := by
  intro n hn
  obtain ⟨⟨kept, spelled⟩, others⟩ := h n hn
  exact ⟨⟨fun t m => before_mono ht (kept t m), spelled⟩, others⟩

theorem AllPlaced.widen (h : AllPlaced ts rest ns) (hl : Behind low ts) : AllPlaced low rest ns := by
  intro n hn
  obtain ⟨⟨kept, spelled⟩, order, call⟩ := h n hn
  exact ⟨⟨fun t m => hl.widen (kept t m), spelled⟩, order, call.widen hl.suffix⟩

end

theorem identAt_from (h : P t) : (identAt t).From P := by
  simp [identAt, h]

theorem placed_name (h : t ∈ before low rest) : Node.Placed low rest (.expr (.name (identAt t))) :=
  ⟨identAt_from h, by simp, trivial⟩

section

variable {ids : List Ident} {sep : Symbol}

theorem NamesAfter.allFrom (h : NamesAfter sep ts ids rest) :
    Behind low ts → ∀ id ∈ ids, id.From (· ∈ before low rest) := by
  induction h with
  | stop => exact fun _ => nofun
  | more _ _ more ih =>
    intro hl
    exact forall_mem_cons.mpr ⟨identAt_from (hl.tail.taken more.takes), ih hl.tail.tail⟩

theorem NamesAfter.allFrom_cons {t : Token} (h : NamesAfter sep ts ids rest) (hl : Behind low (t :: ts)) :
    ∀ id ∈ identAt t :: ids, id.From (· ∈ before low rest) :=
  forall_mem_cons.mpr ⟨identAt_from (hl.taken h.takes), h.allFrom hl.tail⟩

theorem allPlaced_binderNodes (h : ∀ id ∈ ids, id.From (· ∈ before low rest)) :
    AllPlaced low rest (binderNodes ids) := by
  intro n hn
  obtain ⟨id, hid, rfl⟩ := mem_map.mp hn
  exact ⟨h id hid, trivial, trivial⟩

theorem allPlaced_dottedNodes {base : Ident} (h : ∀ id ∈ base :: ids, id.From (· ∈ before low rest)) :
    AllPlaced low rest (dottedNodes base ids) := by
  intro n hn
  rcases mem_append.mp hn with hn | hn
  · obtain ⟨k, hk, rfl⟩ := mem_map.mp hn
    rcases eq_nil_or_concat (ids.take (ids.length - k)) with short | ⟨front, id, long⟩
    · have length := congrArg List.length short
      rw [length_take, length_nil] at length
      rw [mem_range] at hk
      omega
    · rw [long, dottedName, concat_eq_append, foldl_append]
      exact ⟨by simp, .of_last (.inl rfl), trivial⟩
  · obtain ⟨id, hid, rfl⟩ := mem_map.mp hn
    exact ⟨h id hid, by simp, trivial⟩

end

section

variable {ps : List Param}

theorem ParamsAfter.allPlaced (h : ParamsAfter ts ps rest) :
    Behind low ts → AllPlaced low rest (paramNodes ps) := by
  induction h with
  | stop => exact fun _ => allPlaced_nil
  | dots => exact fun _ => by simp [paramNodes, Param.expr]
  | more _ _ more ih =>
    intro hl
    exact allPlaced_cons.mpr ⟨placed_name (hl.tail.taken more.takes), ih hl.tail.tail⟩

theorem Params.allPlaced (h : Params ts ps rest) (hl : Behind low ts) : AllPlaced low rest (paramNodes ps) := by
  cases h with
  | none => exact allPlaced_nil
  | dots => simp [paramNodes, Param.expr]
  | names _ _ more =>
    have names := more.allPlaced hl.tail.tail
    exact allPlaced_cons.mpr ⟨placed_name (hl.tail.taken more.takes.tail), names.mono Takes.refl.cons⟩

end

theorem lastTaken_mem (ht : Takes k ts rest) :
    (lastTaken (t :: ts) rest).getD t ∈ before (t :: ts) rest := by
  obtain ⟨taken, rfl, -⟩ := ht
  have last : lastTaken (t :: (taken ++ rest)) rest = some ((t :: taken).getLast (by simp)) := by
    rw [← cons_append, lastTaken, length_append, Nat.add_sub_cancel, take_left,
      List.getLast?_eq_some_getLast]
  rw [last, Option.getD_some, ← cons_append, before_append]
  exact getLast_mem (cons_ne_nil t taken)

theorem Stat.inOrder_at {s : Stat} (hl : Behind low (t :: ts)) (first : s.first = .at t)
    (last : ∀ l ∈ s.last, l ∈ t :: ts) : s.InOrder := by
  intro f l hf found
  cases first.symm.trans hf
  exact hl.start_le (last l found)

structure Expr.Placed (low ts : List Token) (e : Expr) : Prop where
  names : e.NamedIn (before low ts)
  nodes : AllPlaced low ts e.walk

theorem Expr.Placed.mono (h : Expr.Placed low ts e) (ht : Takes k ts us) :
    Expr.Placed low us e :=
  ⟨h.names.mono (before_mono ht), h.nodes.mono ht⟩

theorem Expr.Placed.goOn {base : Expr} {l : Token} (h : Expr.Placed low us base)
    (hl : Behind low us) (head : e.head = base.head) (last : e.last = some l) (later : l ∈ us) :
    e.InOrder := by
  intro f u hf hu
  cases last.symm.trans hu
  exact Nat.le_of_lt (hl.start_lt (AllFrom.head base h.nodes.allFrom f (head ▸ hf)) later)

structure Body.Placed (low rest : List Token) (ps : List Param) (body : List Stat) (last : Token) : Prop where
  params : AllPlaced low rest (paramNodes ps)
  order : StatsInOrder body
  stats : AllPlaced low rest (walkStats body)
  last : last ∈ before low rest

theorem Body.Placed.widen {ps : List Param} {body : List Stat} {last : Token} (h : Body.Placed ts rest ps body last)
    (hl : Behind low ts) : Body.Placed low rest ps body last :=
  ⟨h.params.widen hl, h.order, h.stats.widen hl, hl.widen h.last⟩

@[simp]
def Goal.Placed (low ts : List Token) : Goal → Prop
  | .chainTail _ e | .powerTail e | .suffixes e => Expr.Placed low ts e
  | _ => True

@[simp]
def Item.Placed (low rest : List Token) : Item → Prop
  | .expr e => Expr.Placed low rest e
  | .exprs es => AllPlaced low rest (walkExprs es)
  | .arguments es close => AllPlaced low rest (walkExprs es) ∧ close ∈ before low rest
  | .fields fs => AllPlaced low rest (walkFields fs)
  | .field f _ => AllPlaced low rest f.walk
  | .funcBody ps body last => Body.Placed low rest ps body last
  | .block ss => StatsInOrder ss ∧ AllPlaced low rest (walkStats ss)
  | .stat s => s.InOrder ∧ AllPlaced low rest s.walk
  | .orelse o => AllPlaced low rest o.walk

theorem single_placed {s : Stat} (order : s.InOrder) (nodes : AllPlaced low rest s.walk) :
    Item.Placed low rest (.block [s]) :=
  ⟨⟨forall_mem_singleton.mpr order, pairwise_singleton _ _⟩, by simpa [walkStats] using nodes⟩

attribute [local simp] Expr.walk Field.walk Stat.walk Orelse.walk walkExprs walkFields

theorem literal?_placed (h : literal? t = some e) (place : t ∈ before low rest) :
    Expr.Placed low rest e := by
  unfold literal? at h
  split at h
  · cases h; exact ⟨trivial, by simp⟩
  · obtain ⟨v, -, rfl⟩ := Option.map_eq_some_iff.mp h
    exact ⟨trivial, by simp [place]⟩
  · cases h; exact ⟨trivial, by simp [Anchor.token?, place]⟩
  · cases h; exact ⟨trivial, by simp [place]⟩
  · cases h; exact ⟨trivial, by simp [place]⟩
  · cases h; exact ⟨trivial, by simp [place]⟩
  · cases h

theorem Reads.placed {g : Goal} {x : Item} (h : Reads g ts x rest) :
    ∀ {low}, Behind low ts → g.Placed low ts → x.Placed low rest := by
  induction h with
    intro low hl hg
  | chain first _ ih ih' | power first _ ih ih' =>
    exact ih' (hl.next first.takes) (ih hl trivial)
  | operandChain _ _ ih | operandUnary _ _ ih | unaryNone _ _ ih | atomSuffixed _ _ ih =>
    exact ih hl trivial
  | chainEnd | powerEnd | suffixesEnd => exact hg
  | chainOne _ h ih =>
    have left := hg.mono h.takes.cons
    have right := ih hl.tail trivial
    exact ⟨trivial, by simp [left.nodes, right.nodes]⟩
  | chainMore _ _ h _ ih ih' | powerMore _ h _ ih ih' =>
    have left := hg.mono h.takes.cons
    have right := ih hl.tail trivial
    exact ih' (hl.tail.next h.takes) ⟨trivial, by simp [left.nodes, right.nodes]⟩
  | unaryLength _ h ih | unaryOther _ _ h ih =>
    have operand := ih hl.tail trivial
    exact ⟨trivial, by simp [hl.taken h.takes, operand.nodes]⟩
  | @atomFunction ts ps body last rest t _ h ih =>
    have own := ih hl.tail.own trivial
    have inner := own.widen hl.tail
    have order : (Expr.function t last ps body).InOrder := by
      intro f l hf found
      cases hf
      cases found
      exact hl.start_le (Takes.refl.mem own.last)
    refine ⟨trivial, ?_⟩
    simp [order, hl.taken h.takes, inner.params, inner.order, inner.stats, inner.last]
  | atomTable _ _ ih =>
    have fields : AllPlaced low _ (walkFields _) := ih hl.tail trivial
    exact ⟨trivial, by simp [Anchor.token?, fields]⟩
  | atomLiteral ht => exact literal?_placed ht hl.mem
  | suffixedParen _ h _ _ ih ih' =>
    have inner := ih hl.tail trivial
    exact ih' (hl.tail.next h.takes.tail) (inner.mono Takes.refl.cons)
  | suffixedName ht _ ih =>
    exact ih hl.tail ⟨⟨_, hl.mem, ht, rfl⟩, allPlaced_cons.mpr ⟨placed_name hl.mem, allPlaced_nil⟩⟩
  | @indexDot base ts r rest t u _ hu _ ih =>
    have inner := hl.tail
    have base := hg.mono Takes.refl.cons.cons
    have key := placed_name inner.mem
    have order : (Expr.index .dot _ (.name (identAt u))).InOrder :=
      hg.goOn hl rfl rfl (mem_cons_of_mem _ mem_cons_self)
    refine ih inner.tail ⟨⟨base.names, u, inner.mem, hu, rfl⟩, ?_⟩
    simp only [Expr.walk, cons_append, allPlaced_cons, allPlaced_append, allPlaced_nil, and_true]
    exact ⟨⟨by simp, order, trivial⟩, base.nodes, key⟩
  | indexBracket _ h _ _ ih ih' =>
    have base := hg.mono h.takes.tail.cons
    have key := (ih hl.tail trivial).mono Takes.refl.cons
    exact ih' (hl.tail.next h.takes.tail)
      ⟨⟨base.names, key.names⟩, by simp [base.nodes, key.nodes]⟩
  | invokeArguments _ _ _ h _ ih ih' =>
    have inner := hl.tail.tail
    have base := hg.mono h.takes.cons.cons.cons
    have method := placed_name (hl.tail.taken h.takes.cons)
    obtain ⟨args, -⟩ := ih inner.tail trivial
    refine ih' (inner.tail.next h.takes) ⟨trivial, ?_⟩
    simpa [base.nodes, args] using method
  | invokeTable _ _ _ h _ ih ih' =>
    have inner := hl.tail.tail
    have base := hg.mono h.takes.cons.cons.cons
    have method := placed_name (hl.tail.taken h.takes.cons)
    have fields : AllPlaced low _ (walkFields _) := ih inner.tail trivial
    refine ih' (inner.tail.next h.takes) ⟨trivial, ?_⟩
    simpa [Anchor.token?, base.nodes, fields] using method
  | invokeString _ _ _ _ ih =>
    have inner := hl.tail.tail
    have base := hg.mono Takes.refl.cons.cons.cons
    have method := placed_name (hl.tail.taken Takes.refl.cons)
    have order (v : Chars) (l : Token) : (Expr.string v .unreadable l).InOrder := fun f u hf => by cases hf
    refine ih inner.tail ⟨trivial, ?_⟩
    simpa [Anchor.token?, base.nodes, order, inner.mem] using method
  | @callArguments ts args close us base _ _ t ht _ h _ ih ih' =>
    have inner := hl.tail
    obtain ⟨inside, place⟩ := ih inner.own trivial
    have encloses : Encloses low base args close := by
      obtain ⟨front, rfl⟩ := hl.suffix
      have names := hg.names
      rw [before_append] at names
      obtain ⟨between, rfl⟩ : ∃ between, ts = between ++ close :: us := by
        cases h with
        | argumentsNone => exact ⟨[], rfl⟩
        | argumentsSome _ h _ =>
          obtain ⟨between, rfl, -⟩ := h.takes
          exact ⟨between, rfl⟩
      exact ⟨front, t, between, us, rfl, ht, h, names⟩
    have order : (Expr.call base args (some close)).InOrder := hg.goOn hl rfl rfl (Takes.refl.mem place)
    have callee := hg.mono h.takes.cons
    refine ih' (inner.next h.takes) ⟨trivial, ?_⟩
    simp [callee.nodes, inside.widen inner, inner.widen place, order, encloses]
  | callTable _ h _ ih ih' =>
    have callee := hg.mono h.takes.cons
    have fields : AllPlaced low _ (walkFields _) := ih hl.tail trivial
    have order (callee : Expr) (args : List Expr) : (Expr.call callee args none).InOrder := .of_last (.inl rfl)
    refine ih' (hl.tail.next h.takes) ⟨trivial, ?_⟩
    simpa [callee.nodes, fields, order] using callee.nodes.allFrom.first
  | @callString ts _ _ t base ht _ ih =>
    have callee := hg.mono (Takes.refl.cons (t := t))
    have text (v : Chars) : (Expr.string v base.first t).InOrder := by
      intro f l hf hl'
      cases hl'
      have front := AllFrom.head base hg.nodes.allFrom f (Expr.head_of_first base hf)
      exact Nat.le_of_lt (hl.start_lt front mem_cons_self)
    have order (args : List Expr) : (Expr.call base args (some t)).InOrder :=
      hg.goOn hl rfl rfl mem_cons_self
    refine ih hl.tail ⟨trivial, ?_⟩
    simpa [callee.nodes, ht, hl.mem, text, order] using callee.nodes.allFrom.first
  | argumentsNone => exact ⟨allPlaced_nil, hl.mem⟩
  | fieldsEnd | targetsEnd | orelseEnd =>
    simp
  | goto | label | breakLoop | semicolon =>
    exact ⟨.absent rfl, by simp⟩
  | argumentsSome _ h _ ih =>
    have values : AllPlaced low _ (walkExprs _) := ih hl trivial
    exact ⟨values.mono Takes.refl.cons, (hl.next h.takes).mem⟩
  | exprsOne _ _ ih =>
    have first := ih hl trivial
    simpa using first.nodes
  | exprsMore h _ more ih ih' =>
    have first := (ih hl trivial).mono (Takes.refl.cons.trans more.takes)
    exact allPlaced_append.mpr ⟨first.nodes, ih' (hl.next h.takes.tail) trivial⟩
  | fieldsLast _ _ _ ih =>
    have first : AllPlaced low _ (Field.walk _) := ih hl trivial
    simpa using first.mono Takes.refl.cons
  | fieldsMore _ h _ more ih ih' =>
    have first : AllPlaced low _ (Field.walk _) := ih hl trivial
    exact allPlaced_append.mpr ⟨first.mono (Takes.refl.cons.trans more.takes),
      ih' (hl.next h.takes.tail) trivial⟩
  | fieldKey _ hk _ _ h ih ih' =>
    have key := (ih hl.tail trivial).mono (Takes.refl.cons.cons.trans h.takes)
    have value := ih' (hl.tail.next hk.takes.tail.tail) trivial
    simp [key.nodes, value.nodes]
  | fieldName _ _ h ih =>
    have name := placed_name (hl.taken h.takes.cons)
    have value := ih hl.tail.tail trivial
    simpa [value.nodes] using name
  | fieldNext _ _ _ ih =>
    have value := ih hl trivial
    simp [value.nodes]
  | funcBody hp h _ ih =>
    have inner := hl.next hp.takes
    have params := (hp.allPlaced hl).mono h.takes.tail
    obtain ⟨order, stats⟩ := ih inner trivial
    exact ⟨params, order, stats.mono Takes.refl.cons, (inner.next h.takes).mem⟩
  | blockEnd => exact ⟨⟨forall_mem_nil _, .nil⟩, allPlaced_nil⟩
  | @returnValues _ _ _ _ t _ _ h hr ih =>
    have values : AllPlaced low _ (walkExprs _) := ih hl.tail trivial
    have last := lastTaken_mem (t := t) (h.takes.trans hr.takes)
    refine single_placed (Stat.inOrder_at hl rfl fun l found => Option.some.inj found ▸ mem_of_before last) ?_
    simp [values.mono hr.takes, hl.taken (h.takes.trans hr.takes), hl.widen last]
  | @returnNothing _ _ t _ _ hr =>
    have last := lastTaken_mem (t := t) hr.takes
    refine single_placed (Stat.inOrder_at hl rfl fun l found => Option.some.inj found ▸ mem_of_before last) ?_
    simp [hl.taken hr.takes, hl.widen last]
  | @blockMore ts s us ss rest t _ _ h more ih ih' =>
    have inner := hl.next h.takes
    obtain ⟨order, first⟩ := ih hl trivial
    -- the statements behind are read from the tokens that are left after the first one
    obtain ⟨behind, nodes⟩ := ih' inner.own trivial
    have pairs : ∀ s' ∈ ss, ∀ f ∈ s.ends, ∀ l ∈ s'.ends, f.start ≤ l.start := by
      intro s' hs' f hf l hl
      have later := AllFrom.ends (fun n hn => (nodes n (mem_walkStats.mpr ⟨s', hs', hn⟩)).1) l hl
      exact Nat.le_of_lt (inner.start_lt (first.allFrom.ends f hf) (mem_of_before later))
    refine ⟨⟨forall_mem_cons.mpr ⟨order, behind.each⟩, pairwise_cons.mpr ⟨pairs, behind.pairs⟩⟩, ?_⟩
    exact allPlaced_append.mpr ⟨first.mono more.takes, nodes.widen inner⟩
  | doBlock _ _ _ ih =>
    obtain ⟨order, stats⟩ := ih hl.tail trivial
    exact ⟨order, stats.mono Takes.refl.cons⟩
  | @assign ts _ us _ _ _ rest t _ _ h _ hm _ hv ih ihm ihv =>
    have inner := hl.next h.takes
    have behind := hm.takes.tail.trans hv.takes
    have target := (ih hl trivial).mono behind
    have more : AllPlaced low _ (walkExprs _) := ihm inner trivial
    have values : AllPlaced low _ (walkExprs _) := ihv (inner.next hm.takes.tail) trivial
    have takes : Takes 0 ts rest := by
      obtain ⟨taken, same, one⟩ := h.takes.trans behind
      cases taken with
      | nil => simp [Goal.least] at one
      | cons u taken =>
        cases same
        exact ⟨taken, rfl, Nat.zero_le _⟩
    have last := lastTaken_mem (t := t) takes
    refine ⟨Stat.inOrder_at hl rfl fun l hl => Option.some.inj hl ▸ mem_of_before last, ?_⟩
    simp [target.nodes, more.mono (Takes.refl.cons.trans hv.takes), values, hl.taken takes, hl.widen last]
  | @expr _ e _ _ _ _ _ ih =>
    have inner := ih hl trivial
    refine ⟨fun f l first last => ?_, inner.nodes⟩
    exact (inner.nodes (.expr e) (mem_walk e)).2.1 f l (Expr.head_of_first e first) last
  | whileLoop _ h hb ih ih' =>
    have test := (ih hl.tail trivial).mono hb.takes
    obtain ⟨order, stats⟩ := ih' (hl.tail.next h.takes) trivial
    exact ⟨.absent rfl, by simp [test.nodes, order, stats]⟩
  | repeatLoop _ hb _ h ih ih' =>
    obtain ⟨order, stats⟩ := ih hl.tail trivial
    have test := ih' (hl.tail.next hb.takes.tail) trivial
    have body := stats.mono (Takes.refl.cons.trans h.takes)
    exact ⟨.absent rfl, by simp [test.nodes, order, body]⟩
  | localFunction _ _ _ h ih =>
    have inner := hl.tail.tail.tail
    have own := ih inner.own trivial
    have body := own.widen inner
    have name := identAt_from (hl.tail.tail.taken h.takes)
    refine ⟨Stat.inOrder_at hl rfl fun l found => ?_, ?_⟩
    · exact Option.some.inj found ▸ Takes.refl.cons.cons.mem own.last
    · simpa [body.params, body.order, body.stats, body.last, hl.taken h.takes.cons.cons] using name
  | localAssign _ _ hi _ h ih =>
    have inner := hl.tail.tail.next hi.takes.tail
    have nodes : AllPlaced _ _ (walkExprs _) := ih inner.own trivial
    have names := (allPlaced_binderNodes (hi.allFrom_cons hl.tail)).mono (Takes.refl.cons.trans h.takes)
    refine ⟨Stat.inOrder_at hl rfl fun l found => ?_, ?_⟩
    · obtain ⟨e, last, found⟩ := Option.bind_eq_some_iff.mp found
      have own : AllPlaced _ _ e.walk := fun n hn =>
        nodes n (mem_walkExprs.mpr ⟨e, mem_of_getLast? last, hn⟩)
      exact hi.takes.tail.cons.mem (own.allFrom.last l found)
    · simp [names, nodes.widen inner, hl.taken (hi.takes.tail.trans h.takes).cons]
  | localNames _ _ hi =>
    have names := allPlaced_binderNodes (hi.allFrom_cons hl.tail)
    exact ⟨Stat.inOrder_at hl rfl (fun _ h => by cases h), by simp [names, hl.taken hi.takes.cons]⟩
  | ifThen _ h _ hb ho ih ihb iho =>
    have inner := hl.tail.next h.takes.tail
    have test := (ih hl.tail trivial).mono (Takes.refl.cons.trans (hb.takes.trans ho.takes))
    obtain ⟨order, stats⟩ := ihb inner trivial
    have others : AllPlaced low _ (Orelse.walk _) := iho (inner.next hb.takes) trivial
    exact ⟨.absent rfl, by simp [test.nodes, order, stats.mono ho.takes, others]⟩
  | numericFor _ _ _ h hb ih ih' =>
    have inner := hl.tail.tail.tail
    have name := hl.tail.taken (h.takes.trans hb.takes).cons
    have bounds : AllPlaced low _ (walkExprs _) := ih inner trivial
    obtain ⟨order, stats⟩ := ih' (inner.next h.takes) trivial
    exact ⟨.absent rfl, by simp [identAt, name, bounds.mono hb.takes, order, stats]⟩
  | genericFor _ _ _ hi _ h hb ih ih' =>
    have names := (allPlaced_binderNodes (hi.allFrom_cons hl.tail)).mono
      (Takes.refl.cons.trans (h.takes.trans hb.takes))
    have inner := hl.tail.tail.next hi.takes.tail
    have iterators : AllPlaced low _ (walkExprs _) := ih inner trivial
    obtain ⟨order, stats⟩ := ih' (inner.next h.takes) trivial
    exact ⟨.absent rfl, by simp [names, iterators.mono hb.takes, order, stats]⟩
  | method _ _ hi _ _ h ih =>
    have inner := hl.tail.tail.next hi.takes.tail.tail
    have own := ih inner.own trivial
    have body := own.widen inner
    have dotted := (allPlaced_dottedNodes (hi.allFrom_cons hl.tail)).mono h.takes.cons.cons
    have name := identAt_from ((hl.tail.tail.next hi.takes.tail).taken h.takes)
    refine ⟨Stat.inOrder_at hl rfl fun l found => ?_, ?_⟩
    · exact Option.some.inj found ▸ hi.takes.tail.tail.cons.mem own.last
    · simpa [dotted, body.params, body.order, body.stats, body.last,
        hl.taken (hi.takes.tail.tail.trans h.takes).cons] using name
  | function _ _ hi _ h ih =>
    have inner := hl.tail.tail.next hi.takes
    have own := ih inner.own trivial
    have body := own.widen inner
    have dotted := (allPlaced_dottedNodes (hi.allFrom_cons hl.tail)).mono h.takes
    refine ⟨Stat.inOrder_at hl rfl fun l found => ?_, ?_⟩
    · exact Option.some.inj found ▸ hi.takes.cons.mem own.last
    · simp [dotted, body.params, body.order, body.stats, body.last, hl.taken (hi.takes.trans h.takes).cons]
  | block _ _ ih =>
    obtain ⟨order, stats⟩ := ih hl trivial
    exact ⟨.absent rfl, by simp [order, stats]⟩
  | targetsMore _ h more ih ih' =>
    have first := (ih hl.tail trivial).mono more.takes
    exact allPlaced_append.mpr ⟨first.nodes, ih' (hl.tail.next h.takes) trivial⟩
  | boundsTwo h _ more _ ih ih' =>
    have start := (ih hl trivial).mono more.takes.cons
    have limit := ih' (hl.next h.takes.tail) trivial
    simp [start.nodes, limit.nodes]
  | boundsComma h _ more _ _ ih ih' =>
    have start := (ih hl trivial).mono more.takes.tail.cons
    have limit := (ih' (hl.next h.takes.tail) trivial).mono Takes.refl.cons
    simp [start.nodes, limit.nodes]
  | boundsThree h _ more _ _ behind ihs ihl ih =>
    have inner := hl.next h.takes.tail
    have start := (ihs hl trivial).mono (more.takes.tail.trans behind.takes).cons
    have limit := (ihl inner trivial).mono behind.takes.cons
    have step := ih (inner.next more.takes.tail) trivial
    simp [start.nodes, limit.nodes, step.nodes]
  | orelseBlock _ _ _ ih =>
    obtain ⟨order, stats⟩ := ih hl.tail trivial
    simp [order, stats.mono Takes.refl.cons]
  | elseif _ h _ hb ho ih ihb iho =>
    have inner := hl.tail.next h.takes.tail
    have test := (ih hl.tail trivial).mono (Takes.refl.cons.trans (hb.takes.trans ho.takes))
    obtain ⟨order, stats⟩ := ihb inner trivial
    have others : AllPlaced low _ (Orelse.walk _) := iho (inner.next hb.takes) trivial
    simp [test.nodes, order, stats.mono ho.takes, others]

end Grammar

/-! ## Scripts -/

theorem scanFrom_sorted (p : Cursor) (text : Chars) :
    (scanFrom 0 p text).Pairwise fun s t => s.start < t.start := by
  induction text using lexeme_induction generalizing p with
  | nil => exact .nil
  | cons c cs rest r found ih =>
    rw [scanFrom_cons p found, pairwise_append]
    refine ⟨?_, ih _, fun s hs t ht => ?_⟩
    · cases r with
      | token k => exact pairwise_singleton _ _
      | lineBreak | hidden | dropped => exact .nil
    · have place := start_of_mem_scanFrom ht
      rw [Cursor.offset_after, length_cons] at place
      cases r with
      | token k =>
        cases mem_singleton.mp hs
        change p.offset < t.start
        omega
      | lineBreak | hidden | dropped => cases hs

theorem stop_of_mem_scan {source : Chars} (h : t ∈ scan source) :
    t.start ≤ t.stop ∧ t.stop + 1 ≤ source.length := by
  obtain ⟨front, back, tokens⟩ := append_of_mem h
  obtain ⟨xs, c, cs, rest, q, whole, cut, -, same, -⟩ := scanFrom_cut tokens
  have place : q.offset = 0 + xs.length := cut.offset
  have stop := q.stop_token t.kind c cs
  have start : (q.token t.kind (c :: cs)).start = q.offset := rfl
  rw [← same] at stop start
  rw [whole]
  simp only [length_append, length_cons] at stop ⊢
  omega

section

variable {source : Chars} {c : Chunk}

theorem Chunk.allPlaced (h : Chunk.parse? source = some c) : AllPlaced (scan source) [] c.walk := by
  have derived := Chunk.ofTokens?_eq_some.mp h
  have whole : Behind (scan source) (scan source) := ⟨scanFrom_sorted _ _, suffix_refl _⟩
  obtain ⟨order, stats⟩ := derived.placed whole trivial
  simp [Chunk.walk, order, stats]

theorem Chunk.allFrom (h : Chunk.parse? source = some c) : AllFrom (· ∈ scan source) c.walk := by
  intro n hn
  obtain ⟨⟨kept, spelled⟩, -⟩ := Chunk.allPlaced h n hn
  exact ⟨fun t ht => mem_of_before (kept t ht), spelled⟩

theorem Chunk.callsIn (h : Chunk.parse? source = some c) : ∀ n ∈ c.walk, n.CallIn (scan source) :=
  fun n hn => (Chunk.allPlaced h n hn).2.2

theorem Chunk.allInOrder (h : Chunk.parse? source = some c) : ∀ n ∈ c.walk, n.InOrder :=
  fun n hn => (Chunk.allPlaced h n hn).2.1

end

end LuaTune.Lua
