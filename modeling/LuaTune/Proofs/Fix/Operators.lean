import LuaTune.Proofs.Fix.Inserted
import LuaTune.Proofs.Fix.Spelling
import LuaTune.Proofs.Lua.Operators

/-!
# Calls replaced by operators

`table.getn(t)` and `string.len(s)` become a length, `math.pow(x, n)` a root or a product. What is
written is the text that reports show of the argument, and it may not be read as the argument.
-/

namespace LuaTune.Fix

open Lua Text Analysis Rules List

/-! ## Edits -/

/-- The operator that a finding about a call asks for, and its argument. -/
def operator? (pattern : String) (args : List Expr) : Option (Operator × Expr) :=
  match pattern, args with
  | "table_getn", [arg] => some (.length, arg)
  | "string_len", [arg] => some (.length, arg)
  | "math_pow_simple", [arg, .number exponent _] =>
    if exponent.isQuotient 1 2 then some (.root, arg)
    else (smallPower? exponent).map fun k => (.product (k - 1), arg)
  | _, _ => none

theorem two_le_of_smallPower? {n : Numeral} {k : Nat} (h : smallPower? n = some k) : 2 ≤ k := by
  have listed := mem_of_find?_eq_some h
  simp only [mem_cons, not_mem_nil, or_false] at listed
  omega

theorem intercalate_replicate (text : Chars) (n : Nat) :
    ['*'].intercalate (List.replicate (n + 1) text) = text ++ Operator.factors text n := by
  induction n with
  | zero => simp [Operator.factors]
  | succ n ih =>
    rw [replicate_succ, replicate_succ, intercalate_cons_cons, ← replicate_succ, ih, append_assoc]
    rfl

theorem nonEmpty?_of_text {f : Finding} {key text : String} (kept : f.details.text? key = some text)
    (some : text.toList ≠ []) : nonEmpty? f key = Option.some text.toList := by
  rw [nonEmpty?, kept, Option.bind_some, if_neg]
  intro empty
  exact some (by simpa using empty)

section

variable {source : Chars} {f : Finding} (w : DottedCall source)

theorem findingSpan?_of_node (node : f.details.node? "node" = some (.expr w.call)) :
    findingSpan? source f = some (w.head.start, some (w.close.stop + 1)) := by
  have listed : w.head ∈ scan source := by
    rw [w.tokens]
    simp
  simp only [findingSpan?, node, nodeSpan, DottedCall.call, DottedCall.callee,
    exprSpan_dotted listed w.isName, Option.bind_eq_bind, Option.bind_some]
  rfl

theorem findingEdits_of_operator {o : Options} {op : Operator} {arg : Expr} {lines : List Chars}
    {c : Call} (rule : lengthFinding? lines c = some f ∨ powerFinding? lines c = some f)
    (node : f.details.node? "node" = some (.expr w.call)) (args : c.args = w.args)
    (asked : operator? f.pattern w.args = some (op, arg)) (shown : arg.text.toList ≠ []) :
    findingEdits o source f =
      [editAt w.head.start (some (w.close.stop + 1)) (op.text arg.text.toList)] := by
  have span := findingSpan?_of_node w node
  rw [← args] at asked
  rcases rule with length | power
  · obtain ⟨arg', one, ⟨about, -, kept⟩ | ⟨about, -, kept⟩⟩ := of_lengthFinding? length
    · rw [about.pattern, one] at asked
      cases asked
      simp only [findingEdits, about.pattern, lengthEdits, span, nonEmpty?_of_text kept shown]
      rfl
    · rw [about.pattern, one] at asked
      cases asked
      simp only [findingEdits, about.pattern, lengthEdits, span, nonEmpty?_of_text kept shown]
      rfl
  · obtain ⟨about, -, base, exponent, token, two, kept, form⟩ := of_powerFinding? power
    rw [about.pattern, two] at asked
    simp only [operator?] at asked
    rcases form with ⟨isHalf, kind⟩ | ⟨other, k, small, -, kind, whole⟩
    · rw [if_pos isHalf] at asked
      cases asked
      simp only [findingEdits, about.pattern, powerEdits, span, nonEmpty?_of_text kept shown, powerText?, kind]
      rfl
    · rw [if_neg (Bool.eq_false_iff.mp other), small] at asked
      cases asked
      obtain ⟨n, rfl⟩ : ∃ n, k = n + 1 := ⟨k - 1, by have := two_le_of_smallPower? small; omega⟩
      simp only [findingEdits, about.pattern, powerEdits, span, nonEmpty?_of_text kept shown, powerText?, kind,
        wholeExponent?, whole, Option.map_some, Int.toNat_natCast, intercalate_replicate]
      rfl

end

theorem applyTo_editAt (source text : Chars) (a b : Nat) :
    (editAt a (some b) text).applyTo source = source.take a ++ text ++ source.drop b := by
  have offset (n : Nat) : Edit.offset source.length (n : Int) = min n source.length := by
    rw [Edit.offset, if_neg (by omega), Int.toNat_natCast]
  have front : source.take (min a source.length) = source.take a := by
    rw [← take_take, take_length]
  have behind : source.drop (min b source.length) = source.drop b := by
    rcases Nat.le_total b source.length with inside | outside
    · rw [Nat.min_eq_left inside]
    · rw [Nat.min_eq_right outside, drop_length, drop_of_length_le outside]
  simp only [Edit.applyTo, editAt, Option.map_some, Int.ofNat_eq_natCast, offset, front, behind]

theorem apply_singleton (e : Edit) (source : Chars) :
    Edit.apply [e] source = .ok (e.applyTo source) := by
  have kept : Edit.retain [e] = .ok [e] := by
    have sorted : Edit.sort [e] = [e] := rfl
    rw [Edit.retain, sorted]
    simp [Edit.retainFrom, Edit.overlapsAny, bind, Except.bind, pure, Except.pure]
  rw [Edit.apply, kept]
  rfl

variable {source : Chars}

theorem fixSource_of_edit {o : Options} {findings : List Finding} {e : Edit}
    (found : analyzeSource {} source = .ok findings) (edits : sourceEdits o source findings = [e]) :
    ∃ fixed, fixSource o source = .ok fixed ∧ fixed.content = e.applyTo source := by
  have fixes : ∃ fixed, fixFindings o source findings = .ok fixed ∧ fixed.content = e.applyTo source := by
    unfold fixFindings
    rw [edits]
    dsimp only
    rw [apply_singleton]
    by_cases same : e.applyTo source = source
    · refine ⟨⟨false, source, 0, Edit.sort [e]⟩, ?_, same.symm⟩
      simp [bind, Except.bind, same, pure, Except.pure]
    · refine ⟨⟨true, e.applyTo source, 1, Edit.sort [e]⟩, ?_, rfl⟩
      simp [bind, Except.bind, same, pure, Except.pure]
  obtain ⟨fixed, fixes, content⟩ := fixes
  refine ⟨fixed, ?_, content⟩
  rw [fixSource, found]
  simp [Except.mapError, bind, Except.bind, fixes]

/-! ## Fixed scripts -/

variable {args : List Expr}

theorem operator?_pattern {pattern : String} {op : Operator} {arg : Expr}
    (h : operator? pattern args = some (op, arg)) :
    pattern ∈ ["table_getn", "string_len", "math_pow_simple"] := by
  unfold operator? at h
  split at h
  · simp
  · simp
  · simp
  · cases h

theorem operator?_product {pattern : String} {n : Nat} {arg : Expr}
    (h : operator? pattern args = some (.product n, arg)) : 0 < n := by
  unfold operator? at h
  split at h
  · cases h
  · cases h
  · split at h
    · cases h
    · obtain ⟨k, small, same⟩ := Option.map_eq_some_iff.mp h
      cases same
      have := two_le_of_smallPower? small
      omega
  · cases h

theorem rule_of_operator {tree : Chunk} {lines : List Chars} {t : Tracker}
    {settings : Settings} {f : Finding} {w : DottedCall source} {op : Operator} {arg : Expr}
    (parsed : Chunk.parse? source = some tree) (visited : visitChunk tree lines = .ok t)
    (hf : f ∈ (⟨source, tree, t⟩ : Analyzed).findings settings)
    (node : f.details.node? "node" = some (.expr w.call))
    (asked : operator? f.pattern w.args = some (op, arg)) :
    ∃ c, (lengthFinding? t.lines c = some f ∨ powerFinding? t.lines c = some f) ∧ c.args = w.args := by
  have listed := operator?_pattern asked
  have form : f.pattern ∈ formPatterns := mem_cons_of_mem _ listed
  obtain ⟨c, hc, rule⟩ := Finding.exists_form hf form
  have args (about : f.details.node? "node" = some (.expr c.node)) (plain : ':' ∉ c.fullName.toList) :
      c.args = w.args := by
    obtain ⟨callee, last, isCall, -⟩ := node_of_dottedName parsed visited hc plain
    have same : c.node = w.call := Node.expr.inj (Option.some.inj (about.symm.trans node))
    rw [isCall] at same
    exact (Expr.call.inj same).2.1
  rcases rule with append | length | power
  · rw [(of_appendFinding? append).1.pattern] at listed
    simp at listed
  · obtain ⟨-, -, ⟨about, name, -⟩ | ⟨about, name, -⟩⟩ := of_lengthFinding? length
    · exact ⟨c, .inl length, args about.node (by rw [name]; decide)⟩
    · exact ⟨c, .inl length, args about.node (by rw [name]; decide)⟩
  · obtain ⟨about, name, -⟩ := of_powerFinding? power
    exact ⟨c, .inr power, args about.node (by rw [name]; decide)⟩

/-- A script with one finding to fix, about a call `head.key(…)` for which there is an operator, is
fixed to a script that is read as the tree with the operator in place of the call: if what reports
show of the argument is read as the argument, and the operator fits where the call stands. -/
theorem fixed_call_replaced {o : Options} {source : Chars} {findings : List Finding} {f : Finding}
    {tree : Chunk} {w : DottedCall source} {op : Operator} {arg : Expr}
    (parsed : Chunk.parse? source = some tree) (found : analyzeSource {} source = .ok findings)
    (only : fixable o findings = [f]) (node : f.details.node? "node" = some (.expr w.call))
    (asked : operator? f.pattern w.args = some (op, arg))
    (back : ReadsAs op.goal arg.text.toList arg) (fits : w.Fits tree op arg.text.toList) :
    ∃ fixed tree', fixSource o source = .ok fixed ∧ Chunk.parse? fixed.content = some tree' ∧
      tree'.bare = (Chunk.replace w.close (op.expr arg) tree).bare := by
  have hf : f ∈ findings := mem_of_mem_fixable (by rw [only]; exact mem_singleton.mpr rfl)
  obtain ⟨t, visited, findings_eq⟩ := exists_visit parsed found
  rw [← findings_eq] at hf
  obtain ⟨c, rule, args⟩ := rule_of_operator parsed visited hf node asked
  have shown : arg.text.toList ≠ [] := back.ne_nil (by cases op <;> exact Nat.one_pos)
  have edits : sourceEdits o source findings =
      [editAt w.head.start (some (w.close.stop + 1)) (op.text arg.text.toList)] := by
    rw [sourceEdits, only, flatMap_singleton]
    exact findingEdits_of_operator w rule node args asked shown
  obtain ⟨fixed, fixes, content⟩ := fixSource_of_edit found edits
  obtain ⟨tree', reads, same⟩ :=
    w.replaced parsed (fun n product => operator?_product (product ▸ asked)) back fits
  exact ⟨fixed, tree', fixes, by rw [content, applyTo_editAt, reads], same⟩

/-! ## The length of a name and of a joined text -/

theorem Identifier.readsAs (n : Identifier) {id : Ident} (same : id.name.toList = n.text) {g : Grammar.Goal}
    (plain : g = .atom ∨ g = .power) : ReadsAs g id.name.toList (.name id) := by
  intro p u ends
  have scans : Scans p n.text u [p.token .name n.text] (p.after (.token .name) n.text) :=
    .single (lexeme_identifier n ends)
  have atom : Grammar.Reads .atom [p.token .name n.text]
      (.expr (.name (Grammar.identAt (p.token .name n.text)))) [] :=
    .atomSuffixed rfl (.suffixedName rfl (.suffixesEnd nofun))
  have name : (Expr.name (Grammar.identAt (p.token .name n.text))).bare = (Expr.name id).bare := by
    have text : String.ofList n.text = id.name := by rw [← same, String.ofList_toList]
    simp only [Expr.bare, Ident.bare, Grammar.identAt, Token.name, Cursor.token, text]
  rw [same]
  rcases plain with rfl | rfl
  · exact ⟨_, _, _, scans, rfl, atom, name⟩
  · exact ⟨_, _, _, scans, rfl, .power atom (.powerEnd rfl), name⟩

theorem openStays_of_not_mem {t u u' : Chars} (h : '[' ∉ t) (h' : ∀ c ∈ u'.head?, c ≠ '[') :
    OpenStays t u u' := by
  intro s hs _
  have closed (cs : Chars) (other : ∀ c ∈ cs.head?, c ≠ '[') : longBracket? cs = none := by
    unfold longBracket?
    split
    · exact absurd rfl (other _ rfl)
    · rfl
  refine closed _ fun c hc => ?_
  cases s with
  | nil => exact h' c hc
  | cons d s =>
    cases hc
    rintro rfl
    exact h (hs.subset mem_cons_self)

def soleCall (source : Chars) (test : Chunk → Finding → Expr → List Expr → Token → Fixed → Bool) :
    Bool :=
  match Chunk.parse? source, analyzeSource {} source, fixSource {} source with
  | some tree, .ok findings, .ok fixed =>
    match fixable {} findings with
    | [f] =>
      match f.details.node? "node" with
      | some (.expr (.call callee args (some close))) => test tree f callee args close fixed
      | _ => false
    | _ => false
  | _, _, _ => false

theorem of_soleCall
    {test : Chunk → Finding → Expr → List Expr → Token → Fixed → Bool} (h : soleCall source test) :
    ∃ tree findings f callee args close fixed, Chunk.parse? source = some tree ∧
      analyzeSource {} source = .ok findings ∧ fixSource {} source = .ok fixed ∧
      fixable {} findings = [f] ∧
      f.details.node? "node" = some (.expr (.call callee args (some close))) ∧
      test tree f callee args close fixed = true := by
  unfold soleCall at h
  split at h
  · next tree findings fixed parsed found fixes =>
    split at h
    · next f only =>
      split at h
      · next callee args close node =>
        exact ⟨tree, findings, f, callee, args, close, fixed, parsed, found, fixes, only, node, h⟩
      · cases h
    · cases h
  · cases h

def firstLineToken (k : Kind) (index start : Nat) (text : String) : Token :=
  ⟨k, index, start, start + (text.toList.length - 1), text.toList, 1, start, false⟩

theorem forall_head_of_all {p : Char → Prop} [DecidablePred p] {cs : Chars}
    (h : cs.head?.all (fun c => decide (p c)) = true) : ∀ c ∈ cs.head?, p c := by
  intro c hc
  rw [hc] at h
  exact of_decide_eq_true h

def nameLength : Chars := "n = 2 * string.len(name) + 1\n".toList

def nameLengthCall : DottedCall nameLength where
  before := [firstLineToken .name 0 0 "n", firstLineToken (.symbol .equal) 2 2 "=",
    firstLineToken .number 4 4 "2", firstLineToken (.symbol .star) 6 6 "*"]
  head := firstLineToken .name 8 8 "string"
  dot := firstLineToken (.symbol .dot) 9 14 "."
  key := firstLineToken .name 10 15 "len"
  opening := firstLineToken (.symbol .openParen) 11 18 "("
  inner := [firstLineToken .name 12 19 "name"]
  close := firstLineToken (.symbol .closeParen) 13 23 ")"
  after := [firstLineToken (.symbol .plus) 15 25 "+", firstLineToken .number 17 27 "1"]
  args := [.name (Grammar.identAt (firstLineToken .name 12 19 "name"))]
  tokens := by decide +kernel
  isName := rfl
  isDot := rfl
  isKey := rfl
  opens := rfl
  sameLine := rfl
  reads := (Grammar.givesReads 40).arguments _ (_, _, _) rfl

def isCallOn (head key arg close : Token) : Expr → List Expr → Token → Bool
  | .index .dot (.name m) (.name k), [.name a], c =>
    m == Grammar.identAt head && k == Grammar.identAt key && a == Grammar.identAt arg && c == close
  | _, _, _ => false

theorem of_isCallOn {head key arg close c : Token} {callee : Expr}
    (h : isCallOn head key arg close callee args c) :
    Expr.call callee args (some c) =
      .call (.index .dot (.name (Grammar.identAt head)) (.name (Grammar.identAt key)))
        [.name (Grammar.identAt arg)] (some close) := by
  unfold isCallOn at h
  split at h
  · simp only [Bool.and_eq_true, beq_iff_eq] at h
    obtain ⟨⟨⟨rfl, rfl⟩, rfl⟩, rfl⟩ := h
    rfl
  · cases h

def assignsNoCall : Node → Bool
  | .stat (.assign _ _ targets _) => targets.all fun
    | .call _ _ _ => false
    | _ => true
  | _ => true

theorem leaves_of_assignsNoCall {callee : Expr} {last : Option Token} {n : Node}
    (h : assignsNoCall n) : Grammar.Fit.unary.Leaves (.call callee args last) n := by
  unfold assignsNoCall at h
  split at h
  · intro e he
    have other := all_eq_true.mp h e he
    cases e <;> simp_all
  · unfold Grammar.Fit.Leaves
    split
    · next other => exact absurd rfl (other _ _ _ _)
    · exact nofun
    · trivial

theorem nameLength_replaced : ∃ tree fixed tree', Chunk.parse? nameLength = some tree ∧
    fixSource {} nameLength = .ok fixed ∧ fixed.content = "n = 2 * #name + 1\n".toList ∧
    Chunk.parse? fixed.content = some tree' ∧
    tree'.bare = (Chunk.replace nameLengthCall.close
      (.unary .length default (.name (Grammar.identAt (firstLineToken .name 12 19 "name")))) tree).bare := by
  have checked : soleCall nameLength fun tree f callee args close fixed =>
      isCallOn nameLengthCall.head nameLengthCall.key (firstLineToken .name 12 19 "name")
        nameLengthCall.close callee args close && f.pattern == "string_len" &&
      tree.walk.all assignsNoCall && fixed.content == "n = 2 * #name + 1\n".toList := by
    decide +kernel
  obtain ⟨tree, findings, f, callee, args, close, fixed, parsed, found, fixes, only, node, passed⟩ :=
    of_soleCall checked
  simp only [Bool.and_eq_true, beq_iff_eq] at passed
  obtain ⟨⟨⟨call, pattern⟩, plain⟩, content⟩ := passed
  have shown : (Grammar.identAt (firstLineToken .name 12 19 "name")).name.toList = "name".toList := by
    decide +kernel
  let name : Identifier := ⟨'n', ['a', 'm', 'e'], by decide, by decide, by decide⟩
  have back : ReadsAs Operator.length.goal (Expr.name (Grammar.identAt
      (firstLineToken .name 12 19 "name"))).text.toList (.name (Grammar.identAt
      (firstLineToken .name 12 19 "name"))) :=
    Identifier.readsAs name (shown.trans (by decide)) (.inr rfl)
  have fits : nameLengthCall.Fits tree .length "name".toList := {
    before := ⟨_, rfl, rfl⟩
    after := ⟨by decide +kernel, fun _ => rfl, by decide⟩
    nodes := fun n hn => leaves_of_assignsNoCall (all_eq_true.mp plain n hn)
    starts := forall_head_of_all (by decide +kernel)
    ends := forall_head_of_all (by decide +kernel)
    opens := openStays_of_not_mem (by decide +kernel) (forall_head_of_all (by decide +kernel)) }
  have asked : operator? f.pattern nameLengthCall.args = some (.length, .name (Grammar.identAt
      (firstLineToken .name 12 19 "name"))) := by
    rw [pattern]
    rfl
  obtain ⟨fixed', tree', fixes', reads, same⟩ := fixed_call_replaced (w := nameLengthCall) parsed found
    only (by rw [node, of_isCallOn call]; rfl) asked back (by rw [Expr.text, shown]; exact fits)
  cases fixes.symm.trans fixes'
  exact ⟨tree, fixed, tree', parsed, fixes, content, reads, same⟩

def joinedLength : Chars := "x = string.len(a .. b)\n".toList

def assignsLength : Chunk → Bool
  | [.assign _ _ _ [.unary .length _ _]] => true
  | _ => false

/-- The length of the joined text is asked for, and that of its first part is joined to the second. -/
theorem joinedLength_split : ∃ tree findings f callee arg close fixed tree',
    Chunk.parse? joinedLength = some tree ∧ analyzeSource {} joinedLength = .ok findings ∧
    fixable {} findings = [f] ∧ f.pattern = "string_len" ∧
    f.details.node? "node" = some (.expr (.call callee [arg] (some close))) ∧
    fixSource {} joinedLength = .ok fixed ∧ fixed.content = "x = #a .. b\n".toList ∧
    Chunk.parse? fixed.content = some tree' ∧
    tree'.bare ≠ (Chunk.replace close (.unary .length default arg) tree).bare := by
  have checked : soleCall joinedLength fun tree f _ args close fixed =>
      f.pattern == "string_len" && fixed.content == "x = #a .. b\n".toList &&
      args.length == 1 && args.all (fun arg =>
        assignsLength (Chunk.replace close (.unary .length default arg) tree).bare) &&
      (Chunk.parse? fixed.content).any fun tree' => !assignsLength tree'.bare := by
    decide +kernel
  obtain ⟨tree, findings, f, callee, args, close, fixed, parsed, found, fixes, only, node, passed⟩ :=
    of_soleCall checked
  simp only [Bool.and_eq_true, beq_iff_eq, Option.any_eq_true, Bool.not_eq_true'] at passed
  obtain ⟨⟨⟨⟨pattern, content⟩, one⟩, asked⟩, tree', reads, other⟩ := passed
  obtain ⟨arg, rfl⟩ := length_eq_one_iff.mp one
  refine ⟨tree, findings, f, callee, arg, close, fixed, tree', parsed, found, only, pattern, node, fixes,
    content, reads, fun same => ?_⟩
  rw [same] at other
  exact Bool.false_ne_true (other.symm.trans (all_eq_true.mp asked arg mem_cons_self))

end LuaTune.Fix
