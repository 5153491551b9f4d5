import LuaTune.Proofs.Lua.Parsing

/-!
# More tokens after what was read

What was read to the end of the tokens is read in the same way in front of others, if none of them
goes on with it.
-/

namespace LuaTune.Lua.Grammar

open List

def Goal.Stops (more : List Token) : Goal → Prop
  | .power | .powerTail _ =>
    (∀ t ∈ more.head?, isSuffix t.kind = false) ∧ nextSymbol .caret more = false
  | .atom | .suffixed | .suffixes _ => ∀ t ∈ more.head?, isSuffix t.kind = false
  | .arguments | .fields _ | .funcBody => True
  | _ => False

section

variable {ts us rest more : List Token} {k : Kind}

theorem Takes.ne_nil {j : Nat} (h : Takes j us rest) (ne : rest ≠ []) : us ≠ [] := by
  obtain ⟨taken, rfl, -⟩ := h
  simp [ne]

theorem Takes.some {j : Nat} (h : Takes (j + 1) us rest) : us ≠ [] := by
  rintro rfl
  have := h.length_le
  simp at this

theorem nextIs_append (ne : ts ≠ []) : nextIs k (ts ++ more) = nextIs k ts := by
  cases ts with
  | nil => exact absurd rfl ne
  | cons t ts => rfl

theorem nextSymbol_append {s : Symbol} (ne : ts ≠ []) : nextSymbol s (ts ++ more) = nextSymbol s ts :=
  nextIs_append ne

theorem head?_append_of_ne (ne : ts ≠ []) : (ts ++ more).head? = ts.head? := by
  cases ts with
  | nil => exact absurd rfl ne
  | cons t ts => rfl

theorem startsExpr_append (ne : ts ≠ []) : startsExpr (ts ++ more) = startsExpr ts := by
  cases ts with
  | nil => exact absurd rfl ne
  | cons t ts => rfl

theorem lastTaken_append_append (ts rest more : List Token) (h : rest.length ≤ ts.length) :
    lastTaken (ts ++ more) (rest ++ more) = lastTaken ts rest := by
  have count : (ts ++ more).length - (rest ++ more).length = ts.length - rest.length := by
    simp only [length_append]
    omega
  rw [lastTaken, lastTaken, count, take_append_of_le_length (Nat.sub_le _ _)]

theorem NamesAfter.append {sep : Symbol} {ids : List Ident} (h : NamesAfter sep ts ids rest)
    (ne : rest ≠ []) : NamesAfter sep (ts ++ more) ids (rest ++ more) := by
  induction h with
  | stop h => exact .stop ((nextIs_append ne).trans h)
  | more hs ht _ ih => exact .more hs ht (ih ne)

theorem ParamsAfter.append {ps : List Param} (h : ParamsAfter ts ps rest) (ne : rest ≠ []) :
    ParamsAfter (ts ++ more) ps (rest ++ more) := by
  induction h with
  | stop h => exact .stop ((nextIs_append ne).trans h)
  | dots hs ht => exact .dots hs ht
  | more hs ht _ ih => exact .more hs ht (ih ne)

theorem Params.append {ps : List Param} (h : Params ts ps rest) :
    Params (ts ++ more) ps (rest ++ more) := by
  cases h with
  | none ho hc => exact .none ho hc
  | dots ho hd hc => exact .dots ho hd hc
  | names ho ht h hc => exact .names ho ht (h.append (cons_ne_nil _ _)) hc

theorem Semicolon.append (h : Semicolon ts rest) (ne : rest ≠ []) :
    Semicolon (ts ++ more) (rest ++ more) := by
  cases h with
  | none h => exact .none ((nextIs_append ne).trans h)
  | some ht => exact .some ht

end

/-- What was read is read in front of more tokens too, if nothing was left and they do not go on with
it, or if something was left. -/
theorem Reads.append {g : Goal} {ts rest more : List Token} {x : Item} (h : Reads g ts x rest) :
    (rest = [] → g.Stops more) → Reads g (ts ++ more) x (rest ++ more) := by
  induction h with
    intro stops
  | chain _ tail ih ih' => exact .chain (ih (tail.takes.ne_nil stops)) (ih' stops)
  | operandChain hl _ ih => exact .operandChain hl (ih stops)
  | operandUnary hl _ ih => exact .operandUnary hl (ih stops)
  | chainEnd hn => exact .chainEnd (by rw [head?_append_of_ne stops]; exact hn)
  | chainOne ht _ ih => exact .chainOne ht (ih stops)
  | chainMore hl ht _ tail ih ih' => exact .chainMore hl ht (ih (tail.takes.ne_nil stops)) (ih' stops)
  | unaryNone ht _ ih => exact .unaryNone ht (ih fun h => (stops h).elim)
  | unaryLength ht _ ih => exact .unaryLength ht (ih fun h => (stops h).elim)
  | unaryOther ht ho _ ih => exact .unaryOther ht ho (ih stops)
  | power _ tail ih ih' =>
    refine .power (ih fun h => (stops ?_).1) (ih' stops)
    obtain ⟨taken, parts, -⟩ := tail.takes
    rw [h] at parts
    exact (append_eq_nil_iff.mp parts.symm).2
  | @powerEnd ts left hn =>
    refine .powerEnd ?_
    by_cases ne : ts = []
    · rw [ne]
      exact (stops ne).2
    · exact (nextIs_append ne).trans hn
  | powerMore ht _ tail ih ih' =>
    refine .powerMore ht (ih fun h => (stops ?_).1) (ih' stops)
    obtain ⟨taken, parts, -⟩ := tail.takes
    rw [h] at parts
    exact (append_eq_nil_iff.mp parts.symm).2
  | atomSuffixed ht _ ih => exact .atomSuffixed ht (ih stops)
  | atomFunction ht _ ih => exact .atomFunction ht (ih fun _ => trivial)
  | atomTable ht _ ih => exact .atomTable ht (ih fun _ => trivial)
  | atomLiteral ht => exact .atomLiteral ht
  | suffixedParen ht _ hu _ ih ih' => exact .suffixedParen ht (ih (by simp)) hu (ih' stops)
  | suffixedName ht _ ih => exact .suffixedName ht (ih stops)
  | @suffixesEnd base ts hn =>
    refine .suffixesEnd ?_
    by_cases ne : ts = []
    · rw [ne]
      exact stops ne
    · rw [head?_append_of_ne ne]
      exact hn
  | indexDot ht hu _ ih => exact .indexDot ht hu (ih stops)
  | indexBracket ht _ hu _ ih ih' => exact .indexBracket ht (ih (by simp)) hu (ih' stops)
  | invokeArguments ht hu hv _ _ ih ih' =>
    exact .invokeArguments ht hu hv (ih fun _ => trivial) (ih' stops)
  | invokeTable ht hu hv _ _ ih ih' => exact .invokeTable ht hu hv (ih fun _ => trivial) (ih' stops)
  | invokeString ht hu hv _ ih => exact .invokeString ht hu hv (ih stops)
  | callArguments ht hb _ _ ih ih' => exact .callArguments ht hb (ih fun _ => trivial) (ih' stops)
  | callTable ht _ _ ih ih' => exact .callTable ht (ih fun _ => trivial) (ih' stops)
  | callString ht _ ih => exact .callString ht (ih stops)
  | argumentsNone ht => exact .argumentsNone ht
  | argumentsSome hn h hu ih =>
    have ne := h.takes.ne_nil (cons_ne_nil _ _)
    exact .argumentsSome ((nextIs_append ne).trans hn) (ih (by simp)) hu
  | exprsOne _ hn ih => exact .exprsOne (ih stops) ((nextIs_append stops).trans hn)
  | exprsMore _ hu _ ih ih' => exact .exprsMore (ih (by simp)) hu (ih' stops)
  | fieldsEnd ht => exact .fieldsEnd ht
  | fieldsLast hn h hu ih =>
    have ne := h.takes.ne_nil (cons_ne_nil _ _)
    exact .fieldsLast ((nextIs_append ne).trans hn) (ih (by simp)) hu
  | fieldsMore hn h hu _ ih ih' =>
    have ne := h.takes.ne_nil (cons_ne_nil _ _)
    exact .fieldsMore ((nextIs_append ne).trans hn) (ih (by simp)) hu (ih' fun _ => trivial)
  | fieldKey ht _ hu hv _ ih ih' =>
    exact .fieldKey ht (ih (by simp)) hu hv (ih' stops)
  | fieldName ht hu _ ih => exact .fieldName ht hu (ih stops)
  | @fieldNext value rest k ts hn hm h ih =>
    have ne := h.takes.ne_nil stops
    refine .fieldNext ((nextIs_append ne).trans hn) ?_ (ih stops)
    obtain ⟨taken, rfl, positive⟩ := h.takes
    cases taken with
    | nil => simp [Goal.least] at positive
    | cons t taken =>
      rw [nextIs_append ne, cons_append, cons_append, drop_succ_cons, drop_zero,
        nextSymbol_append (append_ne_nil_of_right_ne_nil _ stops)]
      exact hm
  | funcBody hp _ hv ih => exact .funcBody hp.append (ih (by simp)) hv
  | blockEnd hn => exact .blockEnd (by rw [head?_append_of_ne stops]; exact hn)
  | @returnValues ts es us rest t ht hs h hr ih =>
    have left := hr.takes.ne_nil stops
    have ne := h.takes.ne_nil left
    have taken := (h.takes.trans hr.takes).cons (t := t) |>.length_le
    have last := lastTaken_append_append (t :: ts) rest more (by omega)
    rw [← last]
    exact .returnValues ht ((startsExpr_append ne).trans hs) (ih left) (hr.append stops)
  | @returnNothing ts rest t ht hs hr =>
    have ne := hr.takes.ne_nil stops
    have taken := hr.takes.cons (t := t) |>.length_le
    have last := lastTaken_append_append (t :: ts) rest more (by omega)
    rw [← last]
    exact .returnNothing ht ((startsExpr_append ne).trans hs) (hr.append stops)
  | blockMore ht hr _ more ih ih' =>
    exact .blockMore ht hr (ih (more.takes.ne_nil stops)) (ih' stops)
  | doBlock ht _ hu ih => exact .doBlock ht (ih (by simp)) hu
  | @assign ts target us others vs values rest t u ht h hn hm hu hv ih ihm ihv =>
    have ne := hm.takes.ne_nil (cons_ne_nil u vs)
    have taken := (h.takes.trans (hm.takes.tail.trans hv.takes)).length_le
    have last := lastTaken_append_append (t :: ts) rest more (by omega)
    rw [← last]
    refine .assign ht (ih fun h => absurd h ne) ?_ (ihm (by simp)) hu (ihv stops)
    rw [nextSymbol_append ne, nextSymbol_append ne, hn]
  | expr ht _ hn ih =>
    refine .expr ht (ih fun h => (stops h).elim) ?_
    rw [nextSymbol_append stops, nextSymbol_append stops, hn]
  | whileLoop ht _ hb ih ih' => exact .whileLoop ht (ih hb.takes.some) (ih' stops)
  | repeatLoop ht _ hu _ ih ih' => exact .repeatLoop ht (ih (by simp)) hu (ih' stops)
  | localFunction ht hu hv _ ih => exact .localFunction ht hu hv (ih fun _ => trivial)
  | localAssign ht hu hi hv _ ih =>
    exact .localAssign ht hu (hi.append (cons_ne_nil _ _)) hv (ih stops)
  | localNames ht hu hi hn =>
    exact .localNames ht hu (hi.append stops) ((nextIs_append stops).trans hn)
  | goto ht hu => exact .goto ht hu
  | ifThen ht _ hu _ ho ih ihb iho =>
    exact .ifThen ht (ih (by simp)) hu (ihb ho.takes.some) (iho stops)
  | numericFor ht hu hv _ hb ih ih' => exact .numericFor ht hu hv (ih hb.takes.some) (ih' stops)
  | genericFor ht hu hn hi hv _ hb ih ih' =>
    have names := hi.takes.ne_nil (cons_ne_nil _ _)
    exact .genericFor ht hu ((nextIs_append names).trans hn) (hi.append (cons_ne_nil _ _)) hv
      (ih hb.takes.some) (ih' stops)
  | method ht hu hi hv hw _ ih =>
    exact .method ht hu (hi.append (cons_ne_nil _ _)) hv hw (ih fun _ => trivial)
  | function ht hu hi hn h ih =>
    have ne := h.takes.some
    exact .function ht hu (hi.append ne) ((nextIs_append ne).trans hn) (ih fun _ => trivial)
  | label ht hu hv => exact .label ht hu hv
  | block ht _ ih => exact .block ht (ih stops)
  | breakLoop ht => exact .breakLoop ht
  | semicolon ht => exact .semicolon ht
  | targetsEnd hn => exact .targetsEnd ((nextIs_append stops).trans hn)
  | targetsMore ht _ others ih ih' =>
    exact .targetsMore ht (ih fun h => absurd h (others.takes.ne_nil stops)) (ih' stops)
  | boundsTwo _ hu _ hn ih ih' =>
    exact .boundsTwo (ih (by simp)) hu (ih' stops) ((nextIs_append stops).trans hn)
  | boundsComma _ hu _ hv hn ih ih' =>
    exact .boundsComma (ih (by simp)) hu (ih' (by simp)) hv ((startsExpr_append stops).trans hn)
  | boundsThree _ hu _ hv hn h ihs ihl ih =>
    have ne := h.takes.ne_nil stops
    exact .boundsThree (ihs (by simp)) hu (ihl (by simp)) hv ((startsExpr_append ne).trans hn) (ih stops)
  | orelseEnd ht => exact .orelseEnd ht
  | orelseBlock ht _ hu ih => exact .orelseBlock ht (ih (by simp)) hu
  | elseif ht _ hu _ ho ih ihb iho =>
    exact .elseif ht (ih (by simp)) hu (ihb ho.takes.some) (iho stops)

end LuaTune.Lua.Grammar
