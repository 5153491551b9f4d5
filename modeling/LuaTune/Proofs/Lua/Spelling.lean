import LuaTune.Lua.Syntax.Text
import LuaTune.Proofs.Lua.Placed

/-!
# The characters of names and texts

A text draws on a source if each of its characters occurs in the source or belongs to ASCII.
-/

namespace LuaTune.Text

open List

variable {source cs ds : Chars}

def isAscii (c : Char) : Bool := c.toNat < 128

/-- Each character of the text occurs in the source or belongs to ASCII. -/
def DrawsOn (source cs : Chars) : Prop := ∀ c ∈ cs, c ∈ source ∨ isAscii c

namespace DrawsOn

@[simp]
theorem nil : DrawsOn source [] := nofun

@[simp]
theorem cons_iff {c : Char} : DrawsOn source (c :: cs) ↔ (c ∈ source ∨ isAscii c) ∧ DrawsOn source cs :=
  forall_mem_cons

@[simp]
theorem append_iff : DrawsOn source (cs ++ ds) ↔ DrawsOn source cs ∧ DrawsOn source ds :=
  forall_mem_append

theorem of_subset (h : cs ⊆ source) : DrawsOn source cs := fun _ hc => .inl (h hc)

theorem ascii (h : cs.all isAscii) : DrawsOn source cs := fun c hc => .inr (all_eq_true.mp h c hc)

theorem literal (h : cs.all isAscii) : DrawsOn source (String.ofList cs).toList := by
  rw [String.toList_ofList]
  exact ascii h

theorem mono (h : DrawsOn source ds) (sub : cs ⊆ ds) : DrawsOn source cs := fun c hc => h c (sub hc)

theorem take (h : DrawsOn source cs) (n : Nat) : DrawsOn source (cs.take n) := h.mono (take_subset n cs)

theorem drop (h : DrawsOn source cs) (n : Nat) : DrawsOn source (cs.drop n) := h.mono (drop_subset n cs)

theorem flatMap {α : Type} {xs : List α} {f : α → Chars} (h : ∀ x ∈ xs, DrawsOn source (f x)) :
    DrawsOn source (xs.flatMap f) := by
  intro c hc
  obtain ⟨x, hx, hc⟩ := mem_flatMap.mp hc
  exact h x hx c hc

theorem intercalate {xss : List Chars} (hs : DrawsOn source cs)
    (h : ∀ xs ∈ xss, DrawsOn source xs) : DrawsOn source (cs.intercalate xss) := by
  induction xss with
  | nil => exact nil
  | cons xs xss ih =>
    obtain ⟨hx, hxss⟩ := forall_mem_cons.mp h
    cases xss with
    | nil => simpa [List.intercalate] using hx
    | cons ys yss =>
      rw [intercalate_cons_cons]
      exact append_iff.mpr ⟨append_iff.mpr ⟨hx, hs⟩, ih hxss⟩

end DrawsOn

theorem dropEndWhile_subset (p : Char → Bool) (cs : Chars) : dropEndWhile p cs ⊆ cs := by
  intro c hc
  unfold dropEndWhile at hc
  rw [mem_reverse] at hc
  exact mem_reverse.mp ((dropWhile_sublist p).subset hc)

theorem strip_subset (cs : Chars) : strip cs ⊆ cs :=
  List.Subset.trans (dropEndWhile_subset _ _) (dropWhile_sublist _).subset

theorem slice_subset (cs : Chars) (a b : Nat) : slice cs a b ⊆ cs :=
  List.Subset.trans (take_subset _ _) (drop_subset _ _)

theorem indentOf_subset (cs : Chars) : indentOf cs ⊆ cs := (takeWhile_sublist _).subset

end LuaTune.Text

namespace LuaTune.Decimal

open Text

variable {source : Chars}

theorem drawsOn_digits (n : Nat) : DrawsOn source (Nat.toDigits 10 n) := by
  intro c hc
  have digit := Nat.isDigit_of_mem_toDigits (by decide) (by decide) hc
  rw [Char.isDigit_iff_toNat] at digit
  exact .inr (decide_eq_true (Nat.lt_of_le_of_lt digit.2 (by decide)))

theorem drawsOn_toString (n : Nat) : DrawsOn source (toString n).toList := by
  have repr : (toString n).toList = Nat.toDigits 10 n := Nat.toList_repr
  rw [repr]
  exact drawsOn_digits n

theorem drawsOn_zeros (n : Nat) : DrawsOn source (List.replicate n '0') := by
  intro c hc
  rw [List.eq_of_mem_replicate hc]
  exact .inr rfl

theorem Scientific.drawsOn_text (d : Scientific) : DrawsOn source d.text.toList := by
  have digits : DrawsOn source (Nat.toDigits 10 d.digits) := drawsOn_digits d.digits
  unfold Scientific.text
  generalize Nat.toDigits 10 d.digits = ds at digits
  dsimp only
  split
  · split
    · rw [String.toList_append, DrawsOn.append_iff,
        String.toList_ofList (l := _ ++ ds), DrawsOn.append_iff]
      exact ⟨.ascii rfl, drawsOn_zeros _, digits⟩
    · rw [String.toList_ofList, DrawsOn.append_iff, DrawsOn.cons_iff]
      have padded (n : Nat) : DrawsOn source (ds ++ List.replicate n '0') :=
        DrawsOn.append_iff.mpr ⟨digits, drawsOn_zeros n⟩
      refine ⟨(padded _).take _, .inr rfl, ?_⟩
      split
      · exact .ascii rfl
      · exact (padded _).drop _
  · simp only [String.toList_append, String.toList_ofList, DrawsOn.append_iff]
    refine ⟨⟨⟨?_, .ascii rfl⟩, ?_⟩, ?_⟩
    · split
      · exact .nil
      · exact digits
      · simpa [isAscii] using digits
    · split
      · exact .ascii rfl
      · exact .ascii rfl
    · split
      · rw [String.toList_append, DrawsOn.append_iff]
        exact ⟨.ascii rfl, drawsOn_toString _⟩
      · exact drawsOn_toString _

theorem Magnitude.drawsOn_text (x : Magnitude) : DrawsOn source x.text.toList := by
  unfold Magnitude.text
  split
  · split
    · exact .ascii rfl
    · exact Scientific.drawsOn_text _
  · exact .ascii rfl

end LuaTune.Decimal

namespace LuaTune.Lua

open Text List

variable {source : Chars}

/-! ## Tokens -/

theorem scanFrom_subset (skip : Nat) (p : Cursor) (cs : Chars) :
    ∀ t ∈ scanFrom skip p cs, t.text ⊆ cs := by
  have below {c : Char} {cs : Chars} {ts : List Token} (h : ∀ t ∈ ts, t.text ⊆ cs) :
      ∀ t ∈ ts, t.text ⊆ c :: cs := fun t ht => subset_cons_of_subset c (h t ht)
  induction cs generalizing skip p with
  | nil => cases skip <;> exact nofun
  | cons c cs ih =>
    cases skip with
    | succ skip => exact below (ih skip p)
    | zero =>
      rw [scanFrom]
      split
      · refine forall_mem_cons.mpr ⟨?_, below (ih _ _)⟩
        exact cons_subset_cons c (take_subset _ cs)
      · exact below (ih _ _)
      · exact below (ih _ _)
      · exact below (ih _ _)

theorem stringValue_subset (text : Chars) : Grammar.stringValue text ⊆ text := by
  have rest (n m : Nat) (cs : Chars) : ((cs.drop n).takeWhile (· != '\n')).take m ⊆ cs :=
    List.Subset.trans (take_subset _ _)
      (List.Subset.trans (takeWhile_sublist _).subset (drop_subset _ _))
  unfold Grammar.stringValue
  split
  · next cs =>
    exact subset_cons_of_subset _ (subset_cons_of_subset _ (take_subset _ cs))
  · next cs _ =>
    dsimp only
    split
    · exact subset_cons_of_subset _ (rest _ _ cs)
    · exact List.Subset.refl _
  · next cs _ _ => exact subset_cons_of_subset _ (take_subset _ cs)
  · exact List.Subset.refl _

/-! ## Trees -/

abbrev Drawn (source : Chars) (ns : List Node) : Prop := AllFrom (DrawsOn source ·.text) ns

theorem Chunk.drawn {c : Chunk} (h : Chunk.parse? source = some c) : Drawn source c.walk := by
  intro n hn
  obtain ⟨kept, spelled⟩ := Chunk.allFrom h n hn
  exact ⟨fun t ht => .of_subset (scanFrom_subset _ _ _ t (kept t ht)), spelled⟩

theorem drawsOn_name {id : Ident} (h : id.From (DrawsOn source ·.text)) :
    DrawsOn source id.name.toList := by
  obtain ⟨kept, spelled⟩ := h
  rw [show id.name = id.token.name from spelled, Token.name, String.toList_ofList]
  exact kept _ mem_cons_self

theorem drawsOn_quotedText {cs : Chars} (h : DrawsOn source cs) :
    DrawsOn source (quotedText cs).toList := by
  unfold quotedText
  split <;> simp [h, isAscii]

theorem drawsOn_sign {op : BinaryOp} {s : String} (h : op.sign? = some s) :
    DrawsOn source s.toList := by
  cases op <;> cases h <;> exact .ascii rfl

theorem drawsOn_numeral (v : Numeral) : DrawsOn source v.text.toList := by
  cases v with
  | int n => exact Decimal.drawsOn_toString n
  | float x => exact x.drawsOn_text

theorem drawsOn_list {ss : List String} (h : ∀ s ∈ ss, DrawsOn source s.toList) :
    DrawsOn source (", ".intercalate ss).toList := by
  rw [String.toList_intercalate]
  exact .intercalate (.ascii rfl) (forall_mem_map.mpr h)

mutual

theorem Expr.drawsOn_text : ∀ {e : Expr}, Drawn source e.walk → DrawsOn source e.text.toList
  | .name id, h => drawsOn_name (allFrom_cons.mp h).1
  | .number v token, h => drawsOn_numeral v
  | .string value first last, h => by
    obtain ⟨kept, spelled⟩ := (allFrom_cons.mp h).1
    have value : value = Grammar.stringValue last.text := spelled
    have text := (kept last mem_cons_self).mono (stringValue_subset last.text)
    rw [Expr.text, value]
    exact drawsOn_quotedText text
  | .index form base key, h => by
    simp only [Expr.walk, cons_append, allFrom_cons, allFrom_append] at h
    have hb := Expr.drawsOn_text h.2.1
    have hk := Expr.drawsOn_text h.2.2
    rw [Expr.text]
    split <;> simp [hb, hk, isAscii]
  | .call callee args last, h => by
    simp only [Expr.walk, cons_append, allFrom_cons, allFrom_append] at h
    have hc := Expr.drawsOn_text h.2.1
    have ha := drawsOn_list (drawsOn_textsOf h.2.2)
    simp [Expr.text, hc, ha, isAscii, -String.toList_intercalate]
  | .invoke receiver method args, h => by
    simp only [Expr.walk, cons_append, allFrom_cons, allFrom_append] at h
    have hr := Expr.drawsOn_text h.2.1
    have hm : DrawsOn source method.name.toList := drawsOn_name h.2.2.1
    have ha := drawsOn_list (drawsOn_textsOf h.2.2.2)
    simp [Expr.text, hr, hm, ha, isAscii, -String.toList_intercalate]
  | .unary op token operand, h => by
    simp only [Expr.walk, allFrom_cons] at h
    have ho := Expr.drawsOn_text h.2
    rw [Expr.text, String.toList_append, DrawsOn.append_iff]
    refine ⟨?_, ho⟩
    cases op <;> exact .ascii rfl
  | .binary op left right, h => by
    simp only [Expr.walk, cons_append, allFrom_cons, allFrom_append] at h
    have hl := Expr.drawsOn_text h.2.1
    have hr := Expr.drawsOn_text h.2.2
    rw [Expr.text]
    split
    · cases op <;> exact .ascii rfl
    · next s sign =>
      have hs : DrawsOn source s.toList := drawsOn_sign sign
      split <;> simp [hl, hr, hs, isAscii]
  | .bool true _, _ | .bool false _, _ | .nil _, _ | .table _ _, _ | .varargs, _
  | .function _ _ _ _, _ => by
    rw [Expr.text]
    exact .ascii rfl

theorem drawsOn_textsOf : ∀ {es : List Expr}, Drawn source (walkExprs es) →
    ∀ s ∈ textsOf es, DrawsOn source s.toList
  | [], _ => nofun
  | e :: es, h => by
    obtain ⟨he, hes⟩ := allFrom_append.mp h
    exact forall_mem_cons.mpr ⟨Expr.drawsOn_text he, drawsOn_textsOf hes⟩

end

end LuaTune.Lua
