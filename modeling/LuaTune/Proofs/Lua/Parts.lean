import LuaTune.Lua.Syntax.Walk
import Mathlib.Tactic.Common

/-! # Nodes of nodes -/

namespace LuaTune.Lua

open List

theorem mem_walk (e : Expr) : Node.expr e ∈ e.walk := by
  cases e <;> simp [Expr.walk]

theorem mem_walkExprs {m : Node} {es : List Expr} : m ∈ walkExprs es ↔ ∃ e ∈ es, m ∈ e.walk := by
  induction es with
  | nil => simp [walkExprs]
  | cons e es ih => simp [walkExprs, ih]

theorem mem_walkFields {m : Node} {fs : List Field} : m ∈ walkFields fs ↔ ∃ f ∈ fs, m ∈ f.walk := by
  induction fs with
  | nil => simp [walkFields]
  | cons f fs ih => simp [walkFields, ih]

theorem mem_walkStats {m : Node} {ss : List Stat} : m ∈ walkStats ss ↔ ∃ s ∈ ss, m ∈ s.walk := by
  induction ss with
  | nil => simp [walkStats]
  | cons s ss ih => simp [walkStats, ih]

def Node.walk : Node → List Node
  | .expr e => e.walk
  | .stat s => s.walk
  | _ => []

theorem dottedName_walk_subset (base : Ident) (path : List Ident) {m : Nat} (h : m ≤ path.length) :
    (dottedName base (path.take m)).walk ⊆ dottedNodes base path := by
  induction m with
  | zero => simp [dottedName, dottedNodes, Expr.walk, identNodes]
  | succ m ih =>
    have step : dottedName base (path.take (m + 1)) =
        .index .declared (dottedName base (path.take m)) (.name (path.get ⟨m, h⟩)) := by
      rw [take_succ_eq_append_getElem h, dottedName, foldl_append]
      rfl
    have whole : Node.expr (dottedName base (path.take (m + 1))) ∈ dottedNodes base path := by
      refine mem_append_left _ (mem_map.mpr ⟨path.length - (m + 1), ?_, ?_⟩)
      · rw [mem_range]
        omega
      · rw [Nat.sub_sub_self h]
    have last : Node.expr (.name (path.get ⟨m, h⟩)) ∈ dottedNodes base path := by
      refine mem_append_right _ (mem_map.mpr ⟨path.get ⟨m, h⟩, ?_, rfl⟩)
      exact mem_cons_of_mem _ (get_mem _ _)
    rw [step] at whole ⊢
    refine cons_subset.mpr ⟨whole, append_subset.mpr ⟨ih (Nat.le_of_succ_le h), ?_⟩⟩
    exact cons_subset.mpr ⟨last, nil_subset _⟩

/-- With each expression and each statement all nodes of it are among the nodes. -/
def WalkClosed (ns : List Node) : Prop := ∀ n ∈ ns, n.walk ⊆ ns

namespace WalkClosed

variable {n : Node} {ns ms : List Node}

theorem append (h : WalkClosed ns) (k : WalkClosed ms) : WalkClosed (ns ++ ms) := forall_mem_append.mpr
    ⟨fun n hn => subset_append_of_subset_left ms (h n hn),
      fun n hn => subset_append_of_subset_right ns (k n hn)⟩

theorem cons (h : n.walk ⊆ n :: ns) (k : WalkClosed ns) : WalkClosed (n :: ns) :=
  forall_mem_cons.mpr ⟨h, fun m hm => subset_cons_of_subset n (k m hm)⟩

theorem node (h : n.walk = n :: ns) (k : WalkClosed ns) : WalkClosed (n :: ns) :=
  .cons (h ▸ List.Subset.refl _) k

theorem other (h : n.walk = []) (k : WalkClosed ns) : WalkClosed (n :: ns) := .cons (h ▸ nil_subset _) k

theorem nil : WalkClosed [] := nofun

theorem leaf (h : n.walk = [n]) (k : WalkClosed ns) : WalkClosed (n :: ns) :=
  .cons (h ▸ cons_subset.mpr ⟨mem_cons_self, nil_subset _⟩) k

theorem params : ∀ ps : List Param, WalkClosed (paramNodes ps)
  | [] => .nil
  | .name _ :: ps | .varargs :: ps => .leaf rfl (params ps)

theorem binders : ∀ ids : List Ident, WalkClosed (binderNodes ids)
  | [] => .nil
  | _ :: ids => .other rfl (binders ids)

theorem idents : ∀ ids : List Ident, WalkClosed (identNodes ids)
  | [] => .nil
  | _ :: ids => .leaf rfl (idents ids)

theorem dotted (base : Ident) (path : List Ident) : WalkClosed (dottedNodes base path) := by
  refine forall_mem_append.mpr ⟨fun n hn => ?_, fun n hn => ?_⟩
  · obtain ⟨k, -, rfl⟩ := mem_map.mp hn
    exact dottedName_walk_subset base path (Nat.sub_le _ _)
  · exact subset_append_of_subset_right _ (idents _ n hn)

mutual

theorem ofExpr : ∀ e : Expr, WalkClosed e.walk
  | .nil _ | .bool _ _ | .number _ _ | .string _ _ _ | .varargs | .name _ => .node rfl .nil
  | .index _ base key => .node rfl (.append (ofExpr base) (ofExpr key))
  | .call callee args _ => .node rfl (.append (ofExpr callee) (ofExprs args))
  | .invoke source _ args => .node rfl (.append (ofExpr source) (.leaf rfl (ofExprs args)))
  | .function _ _ ps body => .node rfl (.append (.params ps) (.other rfl (ofStats body)))
  | .table _ fields => .node rfl (ofFields fields)
  | .binary _ left right => .node rfl (.append (ofExpr left) (ofExpr right))
  | .unary _ _ operand => .node rfl (ofExpr operand)

theorem ofExprs : ∀ es : List Expr, WalkClosed (walkExprs es)
  | [] => .nil
  | e :: es => .append (ofExpr e) (ofExprs es)

theorem ofField : ∀ f : Field, WalkClosed f.walk
  | .mk key value => .other rfl (.append (ofExpr key) (ofExpr value))

theorem ofFields : ∀ fs : List Field, WalkClosed (walkFields fs)
  | [] => .nil
  | f :: fs => .append (ofField f) (ofFields fs)

theorem ofStat : ∀ s : Stat, WalkClosed s.walk
  | .assign _ _ targets values => .node rfl (.append (ofExprs targets) (ofExprs values))
  | .localAssign _ targets values => .node rfl (.append (.binders targets) (ofExprs values))
  | .expr e => ofExpr e
  | .whileLoop test body => .node rfl (.append (ofExpr test) (.other rfl (ofStats body)))
  | .repeatLoop body test => .node rfl (.append (.other rfl (ofStats body)) (ofExpr test))
  | .ifThen test body orelse =>
    .node rfl (.append (.append (ofExpr test) (.other rfl (ofStats body))) (ofOrelse orelse))
  | .numericFor _ bounds body =>
    .node rfl (.other rfl (.append (ofExprs bounds) (.other rfl (ofStats body))))
  | .genericFor targets iterators body =>
    .node rfl (.append (.append (.binders targets) (ofExprs iterators)) (.other rfl (ofStats body)))
  | .function _ _ base path ps body =>
    .node rfl (.append (.append (.dotted base path) (.params ps)) (.other rfl (ofStats body)))
  | .method _ _ base path _ ps body =>
    .node rfl (.append (.append (.dotted base path) (.leaf rfl (.params ps)))
      (.other rfl (ofStats body)))
  | .localFunction _ _ _ ps body =>
    .node rfl (.other rfl (.append (.params ps) (.other rfl (ofStats body))))
  | .block body => .node rfl (.other rfl (ofStats body))
  | .breakLoop | .goto _ | .label _ | .semicolon | .returnNothing _ _ => .node rfl .nil
  | .returnValues _ _ values => .node rfl (ofExprs values)

theorem ofStats : ∀ ss : List Stat, WalkClosed (walkStats ss)
  | [] => .nil
  | s :: ss => .append (ofStat s) (ofStats ss)

theorem ofOrelse : ∀ o : Orelse, WalkClosed o.walk
  | .none => .nil
  | .elseif test body orelse =>
    .other rfl (.append (.append (ofExpr test) (.other rfl (ofStats body))) (ofOrelse orelse))
  | .block body => .other rfl (ofStats body)

end

end WalkClosed

theorem Chunk.walk_subset {c : Chunk} {n : Node} (h : n ∈ c.walk) : n.walk ⊆ c.walk :=
  WalkClosed.other rfl (.other rfl (.ofStats c)) n h

end LuaTune.Lua
