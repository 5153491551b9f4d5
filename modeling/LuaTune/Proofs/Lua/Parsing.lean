import LuaTune.Proofs.Lua.Grammar
import LuaTune.Proofs.Lua.Origins

/-!
# The parsers and the grammar

What a parser gives is derivable, by induction on the bound on the depth of calls. What is derivable
is given within every bound of twenty calls for each token and a few more, by induction on the
derivation: the rules take a token at least every twenty calls.
-/

namespace LuaTune.Lua.Grammar

open List

variable {ts us rest : List Token} {k : Kind} {t : Token} {ids : List Ident} {g : Goal} {x : Item}

/-! ## Single tokens -/

theorem expect_reads (k : Kind) : Gives (expect k ts) fun x => x.1.kind = k ∧ ts = x.1 :: x.2 := by
  cases ts with
  | nil => exact .none
  | cons t ts =>
    rw [expect]
    split
    · next same => exact .some ⟨same, rfl⟩
    · exact .none

theorem ident_reads :
    Gives (ident ts) fun x => ∃ t, t.kind = .name ∧ ts = t :: x.2 ∧ x.1 = identAt t := by
  refine (expect_reads .name).bind ?_
  rintro ⟨t, ts⟩ ⟨ht, rfl⟩
  exact .some ⟨t, ht, rfl, rfl⟩

theorem nextIs_iff : nextIs k ts = true ↔ ∃ t us, ts = t :: us ∧ t.kind = k := by
  cases ts with
  | nil => simp [nextIs]
  | cons t ts => simp [nextIs]

theorem semicolon_reads (ts : List Token) :
    Semicolon ts (if nextSymbol .semicolon ts then ts.drop 1 else ts) := by
  split
  · next h =>
    obtain ⟨t, us, rfl, ht⟩ := nextIs_iff.mp h
    exact .some ht
  · next h => exact .none (Bool.eq_false_iff.mpr h)

/-! ## Names -/

theorem namesTail_reads {sep : Symbol} (n : Nat) :
    Gives (namesTail sep n ts) fun x => NamesAfter sep ts x.1 x.2 := by
  induction n generalizing ts with
  | zero => exact .none
  | succ n ih =>
    unfold namesTail
    split
    · next h =>
      obtain ⟨s, us, rfl, hs⟩ := nextIs_iff.mp h
      refine ident_reads.bind ?_
      rintro ⟨id, us⟩ ⟨t, ht, rfl, rfl⟩
      exact ih.bind fun x hx => .some (.more hs ht hx)
    · next h => exact .some (.stop (Bool.eq_false_iff.mpr h))

theorem paramsTail_reads (n : Nat) : Gives (paramsTail n ts) fun x => ParamsAfter ts x.1 x.2 := by
  induction n generalizing ts with
  | zero => exact .none
  | succ n ih =>
    unfold paramsTail
    split
    · next h =>
      obtain ⟨s, us, rfl, hs⟩ := nextIs_iff.mp h
      split
      · next h =>
        obtain ⟨t, us, rfl, ht⟩ := nextIs_iff.mp h
        exact .some (.dots hs ht)
      · refine ident_reads.bind ?_
        rintro ⟨id, us⟩ ⟨t, ht, rfl, rfl⟩
        exact ih.bind fun x hx => .some (.more hs ht hx)
    · next h => exact .some (.stop (Bool.eq_false_iff.mpr h))

theorem idents_reads :
    Gives (idents ts) fun x => ∃ t us ids, ts = t :: us ∧ t.kind = .name ∧ x.1 = identAt t :: ids ∧
      NamesAfter .comma us ids x.2 := by
  refine ident_reads.bind ?_
  rintro ⟨id, us⟩ ⟨t, ht, rfl, rfl⟩
  exact (namesTail_reads _).bind fun x hx => .some ⟨t, us, x.1, rfl, ht, rfl, hx⟩

theorem params_reads : Gives (params ts) fun x => Params ts x.1 x.2 := by
  refine (expect_reads _).bind ?_
  rintro ⟨o, ts⟩ ⟨ho, rfl⟩
  dsimp only
  split
  · next h =>
    obtain ⟨c, us, rfl, hc⟩ := nextIs_iff.mp h
    exact .some (.none ho hc)
  · split
    · next h =>
      obtain ⟨d, us, rfl, hd⟩ := nextIs_iff.mp h
      refine (expect_reads _).bind ?_
      rintro ⟨c, us⟩ ⟨hc, rfl⟩
      exact .some (.dots ho hd hc)
    · refine ident_reads.bind ?_
      rintro ⟨id, us⟩ ⟨t, ht, rfl, rfl⟩
      refine (paramsTail_reads _).bind ?_
      rintro ⟨ps, us⟩ hps
      refine (expect_reads _).bind ?_
      rintro ⟨c, us⟩ ⟨hc, rfl⟩
      exact .some (.names ho ht hps hc)

/-! ## What is given is derivable -/

def Derives {α : Type} (item : α → Item) (g : Goal) (parse : List Token → Option (α × List Token)) : Prop :=
  ∀ ts, Gives (parse ts) fun x => Reads g ts (item x.1) x.2

/-- Whatever a parser gives within a bound on the depth of calls is derivable. -/
structure GivesReads (n : Nat) : Prop where
  chain (l : Level) : Derives .expr (.chain l) (chain n l)
  operand (l : Level) : Derives .expr (.operand l) (operand n l)
  chainTail (l : Level) (left : Expr) : Derives .expr (.chainTail l left) (chainTail n l left)
  unary : Derives .expr .unary (unary n)
  power : Derives .expr .power (power n)
  powerTail (left : Expr) : Derives .expr (.powerTail left) (powerTail n left)
  atom : Derives .expr .atom (atom n)
  suffixed : Derives .expr .suffixed (suffixed n)
  suffixes (base : Expr) : Derives .expr (.suffixes base) (suffixes n base)
  arguments (ts : List Token) :
    Gives (arguments n ts) fun x => Reads .arguments ts (.arguments x.1 x.2.1) x.2.2
  exprs : Derives .exprs .exprs (exprs n)
  tableFields (k : Nat) : Derives .fields (.fields k) (tableFields n k)
  field (k : Nat) (ts : List Token) :
    Gives (field n k ts) fun x => Reads (.field k) ts (.field x.1 x.2.1) x.2.2
  funcBody (ts : List Token) :
    Gives (funcBody n ts) fun x => Reads .funcBody ts (.funcBody x.1 x.2.1 x.2.2.1) x.2.2.2
  block : Derives .block .block (block n)
  doBlock : Derives .block .doBlock (doBlock n)
  stat : Derives .stat .stat (stat n)
  targetsTail : Derives .exprs .targets (targetsTail n)
  forBounds : Derives .exprs .bounds (forBounds n)
  orelse : Derives .orelse .orelse (orelse n)

theorem givesReads_zero : GivesReads 0 := by
  constructor <;> intros <;> first | exact .none | exact fun _ => .none

namespace GivesReads

variable {n : Nat} (G : GivesReads n)
include G

theorem chain_succ (l : Level) : Derives .expr (.chain l) (Grammar.chain (n + 1) l) := by
  intro ts
  refine (G.operand l ts).bind ?_
  rintro ⟨left, us⟩ first
  exact fun x hx => .chain first (G.chainTail l left us x hx)

theorem operand_succ (l : Level) : Derives .expr (.operand l) (Grammar.operand (n + 1) l) := by
  intro ts
  unfold Grammar.operand
  split
  · next hl => exact fun x hx => .operandChain hl (G.chain _ ts x hx)
  · next hl => exact fun x hx => .operandUnary hl (G.unary ts x hx)

theorem chainTail_succ (l : Level) (left : Expr) : Derives .expr (.chainTail l left) (Grammar.chainTail (n + 1) l left) := by
  intro ts
  cases ts with
  | nil => exact .some (.chainEnd (by simp))
  | cons t rest =>
    rw [Grammar.chainTail]
    split
    · next ht => exact .some (.chainEnd (by simpa using ht))
    · next op ht =>
      refine (G.operand l rest).bind ?_
      rintro ⟨right, rest⟩ hr
      dsimp only
      split
      · next hl =>
        subst hl
        exact .some (.chainOne ht hr)
      · next hl => exact fun x hx => .chainMore hl ht hr (G.chainTail l _ rest x hx)

theorem unary_succ : Derives .expr .unary (Grammar.unary (n + 1)) := by
  intro ts
  cases ts with
  | nil => exact .none
  | cons t rest =>
    rw [Grammar.unary]
    split
    · next ht => exact fun x hx => .unaryNone ht (G.power _ x hx)
    · next op ht =>
      by_cases ho : op = .length
      · subst ho
        rw [if_pos rfl]
        exact (G.power rest).bind fun x hx => .some (.unaryLength ht hx)
      · rw [if_neg ho]
        exact (G.unary rest).bind fun x hx => .some (.unaryOther ht ho hx)

theorem power_succ : Derives .expr .power (Grammar.power (n + 1)) := by
  intro ts
  refine (G.atom ts).bind ?_
  rintro ⟨e, us⟩ first
  exact fun x hx => .power first (G.powerTail e us x hx)

theorem powerTail_succ (left : Expr) : Derives .expr (.powerTail left) (Grammar.powerTail (n + 1) left) := by
  intro ts
  unfold Grammar.powerTail
  split
  · next h =>
    obtain ⟨t, us, rfl, ht⟩ := nextIs_iff.mp h
    refine (G.atom us).bind ?_
    rintro ⟨right, us⟩ hr
    exact fun x hx => .powerMore ht hr (G.powerTail _ us x hx)
  · next h => exact .some (.powerEnd (Bool.eq_false_iff.mpr h))

theorem atom_succ : Derives .expr .atom (Grammar.atom (n + 1)) := by
  intro ts
  cases ts with
  | nil => exact .none
  | cons t rest =>
    rw [Grammar.atom]
    split
    iterate 2
      · next ht => exact fun x hx => .atomSuffixed (by rw [ht]; rfl) (G.suffixed _ x hx)
    · next ht => exact (G.funcBody rest).bind fun x hx => .some (.atomFunction ht hx)
    · next ht => exact (G.tableFields 1 rest).bind fun x hx => .some (.atomTable ht hx)
    · next ht => exact .some (.atomLiteral (by simp [literal?, ht]))
    · next ht =>
      cases value : Numeral.ofText? t.text with
      | none => exact .none
      | some v => exact .some (.atomLiteral (by simp [literal?, ht, value]))
    iterate 4
      · next ht => exact .some (.atomLiteral (by simp [literal?, ht]))
    · exact .none

theorem suffixed_succ : Derives .expr .suffixed (Grammar.suffixed (n + 1)) := by
  intro ts
  unfold Grammar.suffixed
  split
  · next h =>
    obtain ⟨t, us, rfl, ht⟩ := nextIs_iff.mp h
    refine (G.chain .or us).bind ?_
    rintro ⟨e, us⟩ he
    refine (expect_reads _).bind ?_
    rintro ⟨u, us⟩ ⟨hu, rfl⟩
    exact fun x hx => .suffixedParen ht he hu (G.suffixes e us x hx)
  · refine ident_reads.bind ?_
    rintro ⟨id, us⟩ ⟨t, ht, rfl, rfl⟩
    exact fun x hx => .suffixedName ht (G.suffixes _ us x hx)

theorem suffixes_succ (base : Expr) : Derives .expr (.suffixes base) (Grammar.suffixes (n + 1) base) := by
  intro ts
  cases ts with
  | nil => exact .some (.suffixesEnd (by simp))
  | cons t rest =>
    rw [Grammar.suffixes]
    split
    · next ht =>
      refine ident_reads.bind ?_
      rintro ⟨id, rest⟩ ⟨u, hu, rfl, rfl⟩
      exact fun x hx => .indexDot ht hu (G.suffixes _ rest x hx)
    · next ht =>
      refine (G.chain .or rest).bind ?_
      rintro ⟨key, rest⟩ hk
      refine (expect_reads _).bind ?_
      rintro ⟨u, rest⟩ ⟨hu, rfl⟩
      exact fun x hx => .indexBracket ht hk hu (G.suffixes _ rest x hx)
    · next ht =>
      refine ident_reads.bind ?_
      rintro ⟨id, rest⟩ ⟨u, hu, rfl, rfl⟩
      cases rest with
      | nil => exact .none
      | cons v rest =>
        dsimp only
        split
        · next hv =>
          refine (G.arguments rest).bind ?_
          rintro ⟨args, close, rest⟩ hargs
          exact fun x hx => .invokeArguments ht hu hv hargs (G.suffixes _ rest x hx)
        · next hv =>
          refine (G.tableFields 1 rest).bind ?_
          rintro ⟨fs, rest⟩ hfs
          exact fun x hx => .invokeTable ht hu hv hfs (G.suffixes _ rest x hx)
        · next hv => exact fun x hx => .invokeString ht hu hv (G.suffixes _ rest x hx)
        · exact .none
    · next ht =>
      split
      · exact .none
      · next hb =>
        refine (G.arguments rest).bind ?_
        rintro ⟨args, close, rest⟩ hargs
        exact fun x hx =>
          .callArguments ht (Bool.eq_false_iff.mpr hb) hargs (G.suffixes _ rest x hx)
    · next ht =>
      refine (G.tableFields 1 rest).bind ?_
      rintro ⟨fs, rest⟩ hfs
      exact fun x hx => .callTable ht hfs (G.suffixes _ rest x hx)
    · next ht => exact fun x hx => .callString ht (G.suffixes _ rest x hx)
    · next no1 no2 no3 no4 no5 no6 =>
      refine .some (.suffixesEnd ?_)
      simp only [List.head?_cons, Option.mem_some_iff, forall_eq']
      unfold isSuffix
      split
      · next s hs => simp_all
      · next hs => exact absurd hs no6
      · rfl

theorem arguments_succ : Gives (Grammar.arguments (n + 1) ts) fun x =>
      Reads .arguments ts (.arguments x.1 x.2.1) x.2.2 := by
  cases ts with
  | nil => exact .none
  | cons t rest =>
    rw [Grammar.arguments]
    split
    · next ht => exact .some (.argumentsNone ht)
    · next ht =>
      refine (G.exprs _).bind ?_
      rintro ⟨es, us⟩ hes
      refine (expect_reads _).bind ?_
      rintro ⟨u, us⟩ ⟨hu, rfl⟩
      exact .some (.argumentsSome (beq_eq_false_iff_ne.mpr ht) hes hu)

theorem exprs_succ : Derives .exprs .exprs (Grammar.exprs (n + 1)) := by
  intro ts
  refine (G.chain .or ts).bind ?_
  rintro ⟨e, us⟩ he
  dsimp only
  split
  · next h =>
    obtain ⟨u, us, rfl, hu⟩ := nextIs_iff.mp h
    exact (G.exprs us).bind fun x hx => .some (.exprsMore he hu hx)
  · next h => exact .some (.exprsOne he (Bool.eq_false_iff.mpr h))

theorem tableFields_succ (k : Nat) : Derives .fields (.fields k) (Grammar.tableFields (n + 1) k) := by
  intro ts
  unfold Grammar.tableFields
  split
  · next h =>
    obtain ⟨t, us, rfl, ht⟩ := nextIs_iff.mp h
    exact .some (.fieldsEnd ht)
  · next h =>
    have hn := Bool.eq_false_iff.mpr h
    refine (G.field k ts).bind ?_
    rintro ⟨f, k', us⟩ hf
    dsimp only
    split
    · next h =>
      rw [Bool.or_eq_true, nextIs_iff, nextIs_iff] at h
      rcases h with ⟨u, us, rfl, hu⟩ | ⟨u, us, rfl, hu⟩
      · exact (G.tableFields k' us).bind fun x hx => .some (.fieldsMore hn hf (.inl hu) hx)
      · exact (G.tableFields k' us).bind fun x hx => .some (.fieldsMore hn hf (.inr hu) hx)
    · refine (expect_reads _).bind ?_
      rintro ⟨u, us⟩ ⟨hu, rfl⟩
      exact .some (.fieldsLast hn hf hu)

theorem field_succ (k : Nat) :
    Gives (Grammar.field (n + 1) k ts) fun x => Reads (.field k) ts (.field x.1 x.2.1) x.2.2 := by
  unfold Grammar.field
  split
  · next h =>
    obtain ⟨t, us, rfl, ht⟩ := nextIs_iff.mp h
    refine (G.chain .or us).bind ?_
    rintro ⟨key, us⟩ hk
    refine (expect_reads _).bind ?_
    rintro ⟨u, us⟩ ⟨hu, rfl⟩
    refine (expect_reads _).bind ?_
    rintro ⟨v, us⟩ ⟨hv, rfl⟩
    exact (G.chain .or us).bind fun x hx => .some (.fieldKey ht hk hu hv hx)
  · next hn =>
    split
    · next h =>
      rw [Bool.and_eq_true, nextIs_iff] at h
      obtain ⟨⟨t, us, rfl, ht⟩, h⟩ := h
      obtain ⟨u, us, rfl, hu⟩ := nextIs_iff.mp h
      rw [ident, expect, if_pos ht]
      exact (G.chain .or us).bind fun x hx => .some (.fieldName ht hu hx)
    · next hm =>
      exact (G.chain .or ts).bind fun x hx =>
        .some (.fieldNext (Bool.eq_false_iff.mpr hn) (Bool.eq_false_iff.mpr hm) hx)

theorem funcBody_succ : Gives (Grammar.funcBody (n + 1) ts) fun x =>
      Reads .funcBody ts (.funcBody x.1 x.2.1 x.2.2.1) x.2.2.2 := by
  refine params_reads.bind ?_
  rintro ⟨ps, us⟩ hps
  refine (G.block us).bind ?_
  rintro ⟨body, us⟩ hbody
  refine (expect_reads _).bind ?_
  rintro ⟨v, us⟩ ⟨hv, rfl⟩
  exact .some (.funcBody hps hbody hv)

theorem block_succ : Derives .block .block (Grammar.block (n + 1)) := by
  intro ts
  cases ts with
  | nil => exact .some (.blockEnd (by simp))
  | cons t rest =>
    rw [Grammar.block]
    split
    iterate 4
      · next ht => exact .some (.blockEnd (by simp [ht, endsBlock]))
    · next ht =>
      split
      · next hs =>
        refine (G.exprs rest).bind ?_
        rintro ⟨es, us⟩ hes
        exact .some (.returnValues ht hs hes (semicolon_reads us))
      · next hs => exact .some (.returnNothing ht (Bool.eq_false_iff.mpr hs) (semicolon_reads rest))
    · next no1 no2 no3 no4 hr =>
      have ht : endsBlock t.kind = false := by
        unfold endsBlock
        split
        · simp_all
        · rfl
      refine (G.stat _).bind ?_
      rintro ⟨s, us⟩ hs
      exact (G.block us).bind fun x hx => .some (.blockMore ht hr hs hx)

theorem doBlock_succ : Derives .block .doBlock (Grammar.doBlock (n + 1)) := by
  intro ts
  refine (expect_reads _).bind ?_
  rintro ⟨t, us⟩ ⟨ht, rfl⟩
  refine (G.block us).bind ?_
  rintro ⟨body, us⟩ hbody
  refine (expect_reads _).bind ?_
  rintro ⟨u, us⟩ ⟨hu, rfl⟩
  exact .some (.doBlock ht hbody hu)

theorem assignment_reads {t : Token} (ht : startsSuffixed t.kind) :
    Gives (Grammar.suffixed n (t :: rest) >>= fun x =>
      if nextSymbol .comma x.2 || nextSymbol .equal x.2 then do
        let (more, rest') ← Grammar.targetsTail n x.2
        let (_, rest') ← symbol .equal rest'
        let (values, rest') ← Grammar.exprs n rest'
        return (Stat.assign t ((lastTaken (t :: rest) rest').getD t) (x.1 :: more) values, rest')
      else return (Stat.expr x.1, x.2)) fun x => Reads .stat (t :: rest) (.stat x.1) x.2 := by
  refine (G.suffixed _).bind ?_
  rintro ⟨target, us⟩ htarget
  dsimp only
  split
  · next hn =>
    refine (G.targetsTail us).bind ?_
    rintro ⟨more, us⟩ hmore
    refine (expect_reads _).bind ?_
    rintro ⟨u, us⟩ ⟨hu, rfl⟩
    exact (G.exprs us).bind fun x hx => .some (.assign ht htarget hn hmore hu hx)
  · next hn => exact .some (.expr ht htarget (Bool.eq_false_iff.mpr hn))

theorem stat_succ : Derives .stat .stat (Grammar.stat (n + 1)) := by
  intro ts
  cases ts with
  | nil => exact .none
  | cons t rest =>
    rw [Grammar.stat]
    split
    · next ht => exact G.assignment_reads (by rw [ht]; rfl)
    · next ht => exact G.assignment_reads (by rw [ht]; rfl)
    · next ht =>
      refine (G.chain .or rest).bind ?_
      rintro ⟨test, us⟩ htest
      exact (G.doBlock us).bind fun x hx => .some (.whileLoop ht htest hx)
    · next ht =>
      refine (G.block rest).bind ?_
      rintro ⟨body, us⟩ hbody
      refine (expect_reads _).bind ?_
      rintro ⟨u, us⟩ ⟨hu, rfl⟩
      exact (G.chain .or us).bind fun x hx => .some (.repeatLoop ht hbody hu hx)
    · next ht =>
      split
      · next h =>
        obtain ⟨u, us, rfl, hu⟩ := nextIs_iff.mp h
        refine ident_reads.bind ?_
        rintro ⟨id, us⟩ ⟨v, hv, hvs, rfl⟩
        cases hvs
        exact (G.funcBody us).bind fun x hx => .some (.localFunction ht hu hv hx)
      · refine idents_reads.bind ?_
        rintro ⟨ids, us⟩ ⟨u, vs, ids, rfl, hu, rfl, hids⟩
        dsimp only
        split
        · next h =>
          obtain ⟨v, us, rfl, hv⟩ := nextIs_iff.mp h
          exact (G.exprs us).bind fun x hx => .some (.localAssign ht hu hids hv hx)
        · next h => exact .some (.localNames ht hu hids (Bool.eq_false_iff.mpr h))
    · next ht =>
      refine ident_reads.bind ?_
      rintro ⟨id, us⟩ ⟨u, hu, rfl, rfl⟩
      exact .some (.goto ht hu)
    · next ht =>
      refine (G.chain .or rest).bind ?_
      rintro ⟨test, us⟩ htest
      refine (expect_reads _).bind ?_
      rintro ⟨u, us⟩ ⟨hu, rfl⟩
      refine (G.block us).bind ?_
      rintro ⟨body, us⟩ hbody
      exact (G.orelse us).bind fun x hx => .some (.ifThen ht htest hu hbody hx)
    · next ht =>
      split
      · next h =>
        refine ident_reads.bind ?_
        rintro ⟨id, us⟩ ⟨u, hu, rfl, rfl⟩
        obtain ⟨v, us, rfl, hv⟩ := nextIs_iff.mp h
        refine (G.forBounds us).bind ?_
        rintro ⟨bounds, us⟩ hbounds
        exact (G.doBlock us).bind fun x hx => .some (.numericFor ht hu hv hbounds hx)
      · next h =>
        refine idents_reads.bind ?_
        rintro ⟨ids, us⟩ ⟨u, vs, ids, rfl, hu, rfl, hids⟩
        refine (expect_reads _).bind ?_
        rintro ⟨v, us⟩ ⟨hv, rfl⟩
        refine (G.exprs us).bind ?_
        rintro ⟨es, us⟩ hes
        exact (G.doBlock us).bind fun x hx =>
          .some (.genericFor ht hu (Bool.eq_false_iff.mpr h) hids hv hes hx)
    · next ht =>
      refine ident_reads.bind ?_
      rintro ⟨id, us⟩ ⟨u, hu, rfl, rfl⟩
      refine (namesTail_reads _).bind ?_
      rintro ⟨path, us⟩ hpath
      dsimp only
      split
      · next h =>
        obtain ⟨v, us, rfl, hv⟩ := nextIs_iff.mp h
        refine ident_reads.bind ?_
        rintro ⟨id, us⟩ ⟨w, hw, hws, rfl⟩
        cases hws
        exact (G.funcBody us).bind fun x hx => .some (.method ht hu hpath hv hw hx)
      · next h =>
        exact (G.funcBody us).bind fun x hx =>
          .some (.function ht hu hpath (Bool.eq_false_iff.mpr h) hx)
    · next ht =>
      refine ident_reads.bind ?_
      rintro ⟨id, us⟩ ⟨u, hu, rfl, rfl⟩
      refine (expect_reads _).bind ?_
      rintro ⟨v, us⟩ ⟨hv, rfl⟩
      exact .some (.label ht hu hv)
    · next ht => exact (G.doBlock _).bind fun x hx => .some (.block ht hx)
    · next ht => exact .some (.breakLoop ht)
    · next ht => exact .some (.semicolon ht)
    · exact .none

theorem targetsTail_succ : Derives .exprs .targets (Grammar.targetsTail (n + 1)) := by
  intro ts
  unfold Grammar.targetsTail
  split
  · next h =>
    obtain ⟨t, us, rfl, ht⟩ := nextIs_iff.mp h
    refine (G.suffixed us).bind ?_
    rintro ⟨e, us⟩ he
    exact (G.targetsTail us).bind fun x hx => .some (.targetsMore ht he hx)
  · next h => exact .some (.targetsEnd (Bool.eq_false_iff.mpr h))

theorem forBounds_succ : Derives .exprs .bounds (Grammar.forBounds (n + 1)) := by
  intro ts
  refine (G.chain .or ts).bind ?_
  rintro ⟨start, us⟩ hstart
  refine (expect_reads _).bind ?_
  rintro ⟨u, us⟩ ⟨hu, rfl⟩
  refine (G.chain .or us).bind ?_
  rintro ⟨limit, us⟩ hlimit
  dsimp only
  split
  · next h =>
    obtain ⟨v, us, rfl, hv⟩ := nextIs_iff.mp h
    split
    · next hs =>
      exact (G.chain .or us).bind fun x hx => .some (.boundsThree hstart hu hlimit hv hs hx)
    · next hs => exact .some (.boundsComma hstart hu hlimit hv (Bool.eq_false_iff.mpr hs))
  · next h => exact .some (.boundsTwo hstart hu hlimit (Bool.eq_false_iff.mpr h))

theorem orelse_succ : Derives .orelse .orelse (Grammar.orelse (n + 1)) := by
  intro ts
  cases ts with
  | nil => exact .none
  | cons t rest =>
    rw [Grammar.orelse]
    split
    · next ht => exact .some (.orelseEnd ht)
    · next ht =>
      refine (G.block rest).bind ?_
      rintro ⟨body, us⟩ hbody
      refine (expect_reads _).bind ?_
      rintro ⟨u, us⟩ ⟨hu, rfl⟩
      exact .some (.orelseBlock ht hbody hu)
    · next ht =>
      refine (G.chain .or rest).bind ?_
      rintro ⟨test, us⟩ htest
      refine (expect_reads _).bind ?_
      rintro ⟨u, us⟩ ⟨hu, rfl⟩
      refine (G.block us).bind ?_
      rintro ⟨body, us⟩ hbody
      exact (G.orelse us).bind fun x hx => .some (.elseif ht htest hu hbody hx)
    · exact .none

theorem succ : GivesReads (n + 1) where
  chain := G.chain_succ
  operand := G.operand_succ
  chainTail := G.chainTail_succ
  unary := G.unary_succ
  power := G.power_succ
  powerTail := G.powerTail_succ
  atom := G.atom_succ
  suffixed := G.suffixed_succ
  suffixes := G.suffixes_succ
  arguments _ := G.arguments_succ
  exprs := G.exprs_succ
  tableFields := G.tableFields_succ
  field k _ := G.field_succ k
  funcBody _ := G.funcBody_succ
  block := G.block_succ
  doBlock := G.doBlock_succ
  stat := G.stat_succ
  targetsTail := G.targetsTail_succ
  forBounds := G.forBounds_succ
  orelse := G.orelse_succ

end GivesReads

theorem givesReads : ∀ n, GivesReads n
  | 0 => givesReads_zero
  | n + 1 => (givesReads n).succ

/-! ## What is derivable is given -/

theorem expect_cons (h : t.kind = k) : expect k (t :: ts) = some (t, ts) := if_pos h

theorem ident_cons (h : t.kind = .name) : ident (t :: ts) = some (identAt t, ts) := by
  rw [ident, expect_cons h]
  rfl

theorem nextIs_cons (h : t.kind = k) : nextIs k (t :: ts) = true := beq_iff_eq.mpr h

theorem NamesAfter.namesTail {sep : Symbol} (h : NamesAfter sep ts ids rest) :
    ∀ n, ts.length < n → Grammar.namesTail sep n ts = some (ids, rest) := by
  induction h with
    (rintro (_ | n) hlt
     · exact absurd hlt (Nat.not_lt_zero _))
  | stop hn =>
    rw [Grammar.namesTail, hn]
    rfl
  | @more ts _ _ s t hs ht _ ih =>
    have run := ih n (by simp only [length_cons] at hlt; omega)
    simp [Grammar.namesTail, nextIs_cons hs, ident_cons ht, run]

theorem ParamsAfter.paramsTail {ps : List Param} (h : ParamsAfter ts ps rest) :
    ∀ n, ts.length < n → Grammar.paramsTail n ts = some (ps, rest) := by
  induction h with
    (rintro (_ | n) hlt
     · exact absurd hlt (Nat.not_lt_zero _))
  | stop hn =>
    rw [Grammar.paramsTail, hn]
    rfl
  | dots hs ht => simp [Grammar.paramsTail, nextIs_cons hs, nextIs_cons ht]
  | @more ts _ _ s t hs ht _ ih =>
    have run := ih n (by simp only [length_cons] at hlt; omega)
    have name : nextIs (.symbol .dots) (t :: ts) = false := by simp [nextIs, ht]
    simp [Grammar.paramsTail, nextIs_cons hs, name, ident_cons ht, run]

theorem NamesAfter.idents (ht : t.kind = .name) (h : NamesAfter .comma ts ids rest) :
    Grammar.idents (t :: ts) = some (identAt t :: ids, rest) := by
  rw [Grammar.idents, ident_cons ht]
  simp [h.namesTail _ (Nat.lt_succ_self _)]

theorem Params.params {ps : List Param} (h : Params ts ps rest) :
    Grammar.params ts = some (ps, rest) := by
  cases h with
  | none ho hc => simp [Grammar.params, expect_cons ho, nextIs_cons hc]
  | dots ho hd hc => simp [Grammar.params, expect_cons ho, nextIs, hd, expect_cons hc]
  | names ho ht h hc =>
    simp [Grammar.params, expect_cons ho, nextIs, ht, ident_cons ht,
      h.paramsTail _ (Nat.lt_succ_self _), expect_cons hc]

theorem Semicolon.eq (h : Semicolon ts rest) :
    (if nextSymbol .semicolon ts then ts.drop 1 else ts) = rest := by
  cases h with
  | none h => rw [h]; rfl
  | some ht => exact if_pos (nextIs_cons ht)

@[reducible, simp]
def Runs (n : Nat) : Goal → List Token → Item → List Token → Prop
  | .chain l, ts, .expr e, rest => chain n l ts = some (e, rest)
  | .operand l, ts, .expr e, rest => operand n l ts = some (e, rest)
  | .chainTail l left, ts, .expr e, rest => chainTail n l left ts = some (e, rest)
  | .unary, ts, .expr e, rest => unary n ts = some (e, rest)
  | .power, ts, .expr e, rest => power n ts = some (e, rest)
  | .powerTail left, ts, .expr e, rest => powerTail n left ts = some (e, rest)
  | .atom, ts, .expr e, rest => atom n ts = some (e, rest)
  | .suffixed, ts, .expr e, rest => suffixed n ts = some (e, rest)
  | .suffixes base, ts, .expr e, rest => suffixes n base ts = some (e, rest)
  | .arguments, ts, .arguments es close, rest => arguments n ts = some (es, close, rest)
  | .exprs, ts, .exprs es, rest => exprs n ts = some (es, rest)
  | .fields k, ts, .fields fs, rest => tableFields n k ts = some (fs, rest)
  | .field k, ts, .field f k', rest => field n k ts = some (f, k', rest)
  | .funcBody, ts, .funcBody ps body last, rest => funcBody n ts = some (ps, body, last, rest)
  | .block, ts, .block ss, rest => block n ts = some (ss, rest)
  | .doBlock, ts, .block ss, rest => doBlock n ts = some (ss, rest)
  | .stat, ts, .stat s, rest => stat n ts = some (s, rest)
  | .targets, ts, .exprs es, rest => targetsTail n ts = some (es, rest)
  | .bounds, ts, .exprs es, rest => forBounds n ts = some (es, rest)
  | .orelse, ts, .orelse o, rest => orelse n ts = some (o, rest)
  | _, _, _, _ => False

def Level.height : Level → Nat
  | .bits => 0
  | .product => 1
  | .sum => 2
  | .concat => 3
  | .relation => 4
  | .and => 5
  | .or => 6

def Goal.depth : Goal → Nat
  | .atom | .doBlock => 2
  | .power | .stat => 3
  | .unary | .block => 4
  | .operand l => 5 + 2 * l.height
  | .chain l => 6 + 2 * l.height
  | .exprs | .field _ | .bounds => 19
  | .arguments | .fields _ => 20
  | _ => 1

theorem Level.height_next {l l' : Level} (h : l.next? = some l') : l.height = l'.height + 1 := by
  cases l <;> cases h <;> rfl

theorem Level.height_le (l : Level) : l.height ≤ 6 := by
  cases l <;> decide

theorem Goal.depth_pos (g : Goal) : 0 < g.depth := by
  cases g <;> simp only [Goal.depth] <;> omega

theorem Goal.depth_le (g : Goal) : g.depth ≤ 20 := by
  cases g with
  | chain l | operand l =>
    have := l.height_le
    simp only [Goal.depth]
    omega
  | _ => simp [Goal.depth]

def Paid (n : Nat) (g : Goal) (ts : List Token) : Prop := 20 * ts.length + g.depth ≤ n

theorem Paid.after {g' : Goal} {k n : Nat} (hn : Paid (n + 1) g ts) (h : Takes (k + 1) ts us) :
    Paid n g' us := by
  have := h.length_le
  have := g.depth_pos
  have := g'.depth_le
  unfold Paid at hn ⊢
  omega

theorem Paid.tail {g' : Goal} {n : Nat} (hn : Paid (n + 1) g (t :: ts)) : Paid n g' ts :=
  hn.after Takes.refl.cons

theorem Paid.within {g' : Goal} {n : Nat} (hn : Paid (n + 1) g ts)
    (h : g'.depth < g.depth := by simp [Goal.depth, Level.height]) : Paid n g' ts := by
  unfold Paid at hn ⊢
  omega

theorem one_call (step : ∀ {n}, Paid (n + 1) g ts → Runs (n + 1) g ts x rest) :
    ∀ {n}, Paid n g ts → Runs n g ts x rest
  | 0, hn => absurd hn (by have := g.depth_pos; unfold Paid; omega)
  | _ + 1, hn => step hn

attribute [local simp] Grammar.chainTail Grammar.unary Grammar.powerTail Grammar.atom Grammar.suffixed
  Grammar.suffixes Grammar.arguments Grammar.exprs Grammar.tableFields Grammar.field Grammar.funcBody
  Grammar.block Grammar.doBlock Grammar.stat Grammar.targetsTail Grammar.forBounds Grammar.orelse expect nextIs
  ident_cons

theorem Reads.runs (h : Reads g ts x rest) : ∀ {n}, Paid n g ts → Runs n g ts x rest := by
  induction h with
    refine one_call fun paid => ?_
  | chain first _ ih ih' =>
    have run := ih paid.within
    rw [Runs, Grammar.chain, run]
    exact ih' (paid.after first.takes)
  | power first _ ih ih' =>
    have run := ih paid.within
    rw [Runs, Grammar.power, run]
    exact ih' (paid.after first.takes)
  | operandChain hl _ ih =>
    have lower := Level.height_next hl
    rw [Runs, Grammar.operand, hl]
    exact ih (paid.within (by simp only [Goal.depth]; omega))
  | operandUnary hl _ ih =>
    rw [Runs, Grammar.operand, hl]
    exact ih (paid.within (by simp only [Goal.depth]; omega))
  | @chainEnd left l ts hn =>
    cases ts with
    | nil => rfl
    | cons t ts => simp [hn t rfl]
  | unaryNone ht _ ih | exprsOne _ ht ih | block ht _ ih =>
    have run := ih paid.within
    simp [ht, run]
  | chainOne ht _ ih | unaryLength ht _ ih | atomFunction ht _ ih | atomTable ht _ ih | callString ht _ ih
  | suffixedName ht _ ih =>
    have run := ih paid.tail
    simp [ht, run]
  | unaryOther ht hu _ ih | doBlock ht _ hu ih | orelseBlock ht _ hu ih =>
    have run := ih paid.tail
    simp [ht, hu, run]
  | powerMore ht h _ ih ih' | callTable ht h _ ih ih' | whileLoop ht h _ ih ih' | targetsMore ht h _ ih ih' =>
    have run := ih paid.tail
    have run' := ih' (paid.after h.takes.cons)
    simp [ht, run, run']
  | chainMore hu ht h _ ih ih' | callArguments ht hu h _ ih ih' =>
    have run := ih paid.tail
    have run' := ih' (paid.after h.takes.cons)
    simp [ht, hu, run, run']
  | suffixedParen ht h hu _ ih ih' | indexBracket ht h hu _ ih ih' | repeatLoop ht h hu _ ih ih' =>
    have run := ih paid.tail
    have run' := ih' (paid.after h.takes.tail.cons)
    simp [ht, hu, run, run']
  | indexDot ht hu _ ih | fieldName ht hu _ ih =>
    have run := ih (paid.after Takes.refl.cons.cons)
    simp [ht, hu, run]
  | invokeArguments ht hu hv h _ ih ih' | invokeTable ht hu hv h _ ih ih' | numericFor ht hu hv h _ ih ih' =>
    have run := ih (paid.after Takes.refl.cons.cons.cons)
    have run' := ih' (paid.after h.takes.cons.cons.cons)
    simp [ht, hu, hv, run, run']
  | invokeString ht hu hv _ ih | localFunction ht hu hv _ ih =>
    have run := ih (paid.after Takes.refl.cons.cons.cons)
    simp [ht, hu, hv, run]
  | powerEnd ht | argumentsNone ht | fieldsEnd ht | breakLoop ht | semicolon ht | targetsEnd ht | orelseEnd ht =>
    simp [ht]
  | atomSuffixed ht _ ih =>
    have run := ih paid.within
    simp only [startsSuffixed, Bool.or_eq_true, beq_iff_eq] at ht
    rcases ht with ht | ht <;> simp [ht, run]
  | atomLiteral ht =>
    unfold literal? at ht
    split at ht
    · next hk => cases ht; simp [hk]
    · next hk =>
      obtain ⟨v, hv, rfl⟩ := Option.map_eq_some_iff.mp ht
      simp [hk, hv]
    · next hk => cases ht; simp [hk]
    · next hk => cases ht; simp [hk]
    · next hk => cases ht; simp [hk]
    · next hk => cases ht; simp [hk]
    · cases ht
  | @suffixesEnd base ts hn =>
    cases ts with
    | nil => rfl
    | cons t ts =>
      have ends := hn t rfl
      rw [Runs, Grammar.suffixes]
      split <;> simp_all [isSuffix]
  | @argumentsSome ts es us u hn h hu ih =>
    have run := ih paid.within
    cases ts with
    | nil => exact absurd h.takes.length_le (by simp [Goal.least])
    | cons t ts =>
      have other : t.kind ≠ .symbol .closeParen := by simpa [nextIs] using hn
      simp [other, run, hu]
  | exprsMore h hu _ ih ih' =>
    have run := ih paid.within
    have run' := ih' (paid.after h.takes.tail)
    simp [run, hu, run']
  | fieldsLast hn h hu ih =>
    have run := ih paid.within
    simp [hn, run, hu]
  | fieldsMore hn h hu _ ih ih' =>
    have run := ih paid.within
    have run' := ih' (paid.after h.takes.tail)
    rcases hu with hu | hu <;> simp [hn, run, hu, run']
  | fieldKey ht hk hu hv _ ih ih' =>
    have run := ih paid.tail
    have run' := ih' (paid.after hk.takes.tail.tail.cons)
    simp [ht, run, hu, hv, run']
  | fieldNext hn hm _ ih =>
    have run := ih paid.within
    rw [Runs, Grammar.field, hn, hm, run]
    rfl
  | funcBody hp _ hv ih =>
    have run := ih (paid.after hp.takes)
    simp [hp.params, run, hv]
  | @blockEnd ts hn =>
    cases ts with
    | nil => rfl
    | cons t ts =>
      have ends := hn t rfl
      unfold endsBlock at ends
      split at ends
      · next k hk =>
        simp only [contains_eq_mem, mem_cons, not_mem_nil, or_false, decide_eq_true_eq] at ends
        rcases ends with rfl | rfl | rfl | rfl <;> simp [hk]
      · cases ends
  | returnValues ht hs h hr ih =>
    have run := ih paid.tail
    have left := hr.eq
    simp only [Runs, Grammar.block, ht, hs, run, if_true, Option.bind_eq_bind, Option.bind_some, left]
    rfl
  | returnNothing ht hs hr =>
    have left := hr.eq
    simp only [Runs, Grammar.block, ht, hs, left]
    rfl
  | blockMore ht hr h _ ih ih' =>
    have run := ih paid.within
    have run' := ih' (paid.after h.takes)
    rw [Runs, Grammar.block]
    split
    iterate 4
      · next hk => simp [hk, endsBlock] at ht
    · next hk => exact absurd hk hr
    · simp [run, run']
  | assign ht h hn hm hu _ ih ihm ihv =>
    have run := ih paid.within
    have run' := ihm (paid.after h.takes)
    have run'' := ihv (paid.after (h.takes.trans hm.takes.tail))
    simp only [startsSuffixed, Bool.or_eq_true, beq_iff_eq] at ht
    rcases ht with ht | ht <;> simp [ht, run, Bool.or_eq_true _ _ ▸ hn, run', expect_cons hu, run'']
  | expr ht _ hn ih =>
    have run := ih paid.within
    simp only [startsSuffixed, Bool.or_eq_true, beq_iff_eq] at ht
    rcases ht with ht | ht <;> simp [ht, run, Bool.or_eq_false_iff.mp hn]
  | localAssign ht hu hi hv _ ih =>
    have run := ih (paid.after hi.takes.tail.cons.cons)
    simp [ht, hu, hi.idents hu, hv, run]
  | localNames ht hu hi hn =>
    simp [ht, hu, hi.idents hu, hn]
  | goto ht hu | label ht hu hv =>
    simp [*]
  | ifThen ht h hu hb _ ih ihb iho | elseif ht h hu hb _ ih ihb iho =>
    have run := ih paid.tail
    have run' := ihb (paid.after h.takes.tail.cons)
    have run'' := iho (paid.after (h.takes.tail.trans hb.takes).cons)
    simp [ht, run, hu, run', run'']
  | genericFor ht hu hn hi hv h _ ih ih' =>
    have run := ih (paid.after hi.takes.tail.cons.cons)
    have run' := ih' (paid.after (hi.takes.tail.trans h.takes).cons.cons)
    simp [ht, hn, hi.idents hu, hv, run, run']
  | method ht hu hi hv hw _ ih =>
    have run := ih (paid.after hi.takes.tail.tail.cons.cons)
    simp [ht, hu, hi.namesTail _ (Nat.lt_succ_self _), hv, hw, run]
  | function ht hu hi hn _ ih =>
    have run := ih (paid.after hi.takes.cons.cons)
    simp [ht, hu, hi.namesTail _ (Nat.lt_succ_self _), hn, run]
  | boundsTwo hs hu _ hn ih ih' =>
    have run := ih paid.within
    have run' := ih' (paid.after hs.takes.tail)
    simp [run, hu, run', hn]
  | boundsComma hs hu _ hv hn ih ih' =>
    have run := ih paid.within
    have run' := ih' (paid.after hs.takes.tail)
    simp [run, hu, run', hv, hn]
  | boundsThree hs hu hl hv hn _ ihs ihl ih =>
    have run := ihs paid.within
    have run' := ihl (paid.after hs.takes.tail)
    have both := hs.takes.tail.trans hl.takes.tail
    have run'' := ih (paid.after both)
    simp [run, hu, run', hv, hn, run'']

theorem Runs.unique {n : Nat} {ts rest rest' : List Token} {y : Item} (h : Runs n g ts x rest)
    (h' : Runs n g ts y rest') : x = y ∧ rest = rest' := by
  unfold Runs at h
  split at h
  case h_21 => exact h.elim
  all_goals cases y <;> simp only [Runs] at h'
  all_goals
    have same := h.symm.trans h'
    simpa [and_assoc] using same

theorem Reads.unique {ts rest rest' : List Token} {y : Item} (h : Reads g ts x rest)
    (h' : Reads g ts y rest') : x = y ∧ rest = rest' := by
  have paid : Paid (20 * ts.length + g.depth) g ts := Nat.le_refl _
  exact (h.runs paid).unique (h'.runs paid)

end LuaTune.Lua.Grammar

namespace LuaTune.Lua

open Grammar in
theorem Chunk.ofTokens?_eq_some {ts : List Token} {c : Chunk} :
    Chunk.ofTokens? ts = some c ↔ Reads .block ts (.block c) [] := by
  constructor
  · intro h
    unfold Chunk.ofTokens? at h
    split at h
    · next body run =>
      cases h
      exact (givesReads _).block ts _ run
    · cases h
  · intro h
    have run : Grammar.block (20 * (ts.length + 2)) ts = some (c, []) :=
      h.runs (by simp only [Paid, Goal.depth]; omega)
    unfold Chunk.ofTokens?
    rw [run]

end LuaTune.Lua
