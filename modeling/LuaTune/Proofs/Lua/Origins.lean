import LuaTune.Lua.Syntax.Parse
import LuaTune.Lua.Syntax.Walk
import Mathlib.Tactic.Common

/-!
# Where the nodes of a tree come from

A tree keeps tokens of the script that it was read from and no others, and a name or a string in it
is what its token says.
-/

namespace LuaTune

open List

def Gives {α : Type} (r : Option α) (Q : α → Prop) : Prop := ∀ a, r = some a → Q a

namespace Gives

variable {α β : Type} {Q : α → Prop} {R : β → Prop} {r : Option α} {f : α → Option β}

theorem bind (h : Gives r Q) (k : ∀ a, Q a → Gives (f a) R) : Gives (r >>= f) R := by
  intro b hb
  obtain ⟨a, ha, hf⟩ := Option.bind_eq_some_iff.mp hb
  exact k a (h a ha) b hf

theorem after (k : ∀ a, Gives (f a) R) : Gives (r >>= f) R := by
  have any : Gives r fun _ => True := fun _ _ => trivial
  exact any.bind fun a _ => k a

theorem some {a : α} (h : Q a) : Gives (some a) Q := by
  intro b hb
  cases hb
  exact h

theorem none : Gives none Q := nofun

theorem map {g : α → β} (h : Gives r fun a => R (g a)) : Gives (r.map g) R := by
  intro b hb
  obtain ⟨a, ha, rfl⟩ := Option.map_eq_some_iff.mp hb
  exact h a ha

theorem guarded {c : Prop} [Decidable c] {rest : Unit → Option β} (h : Gives (rest ()) R) :
    Gives (if c then Option.none >>= rest else rest ()) R := by
  split
  · exact none
  · exact h

theorem mapM {xs : List α} (h : ∀ x ∈ xs, Gives (f x) R) :
    Gives (xs.mapM f) fun ys => ∀ y ∈ ys, R y := by
  induction xs with
  | nil => exact some nofun
  | cons x xs ih =>
    rw [forall_mem_cons] at h
    rw [mapM_cons]
    refine h.1.bind fun y hy => (ih h.2).bind fun ys hys => ?_
    exact some (forall_mem_cons.mpr ⟨hy, hys⟩)

theorem filterMap {xs : List α} (h : ∀ x ∈ xs, Gives (f x) R) : ∀ y ∈ xs.filterMap f, R y := by
  intro y hy
  obtain ⟨x, hx, hf⟩ := mem_filterMap.mp hy
  exact h x hx y hf

theorem toList (h : Gives r Q) : ∀ a ∈ r.toList, Q a := fun a ha => h a (Option.mem_toList.mp ha)

theorem getD {r : Option (List α)} (h : Gives r fun xs => ∀ x ∈ xs, Q x) : ∀ x ∈ r.getD [], Q x := by
  cases r with
  | none => exact nofun
  | some xs => exact h xs rfl

end Gives

end LuaTune

namespace LuaTune.Lua

open List

/-- The tokens that an expression keeps itself; those of its parts are left out. -/
@[simp]
def Expr.kept : Expr → List Token
  | .nil t | .bool _ t | .unary _ t _ => [t]
  | .number _ t => t.toList
  | .string _ first last => last :: first.token?.toList
  | .name id => [id.token]
  | .call _ _ last => last.toList
  | .function first last _ _ => [first, last]
  | .table first _ => first.token?.toList
  | .varargs | .index _ _ _ | .invoke _ _ _ | .binary _ _ _ => []

@[simp]
def Stat.kept : Stat → List Token
  | .assign first last _ _ | .function first last _ _ _ _ | .method first last _ _ _ _ _
  | .localFunction first last _ _ _ | .returnNothing first last | .returnValues first last _ =>
    [first, last]
  | .localAssign first _ _ => [first]
  | _ => []

@[simp]
def Node.kept : Node → List Token
  | .expr e => e.kept
  | .binder id => [id.token]
  | .stat s => s.kept
  | _ => []

@[simp]
def Node.Spelled : Node → Prop
  | .expr (.name id) | .binder id => id.name = id.token.name
  | .expr (.string value _ last) => value = Grammar.stringValue last.text
  | _ => True

variable {P : Token → Prop}

@[simp]
def Node.From (P : Token → Prop) (n : Node) : Prop := (∀ t ∈ n.kept, P t) ∧ n.Spelled

def AllFrom (P : Token → Prop) (ns : List Node) : Prop := ∀ n ∈ ns, n.From P

@[simp]
theorem allFrom_nil : AllFrom P [] := by
  simp [AllFrom]

@[simp]
theorem allFrom_cons {n : Node} {ns : List Node} : AllFrom P (n :: ns) ↔ n.From P ∧ AllFrom P ns :=
  forall_mem_cons

@[simp]
theorem allFrom_append {ns ms : List Node} : AllFrom P (ns ++ ms) ↔ AllFrom P ns ∧ AllFrom P ms :=
  forall_mem_append

theorem AllFrom.first : ∀ {e : Expr}, AllFrom P e.walk → ∀ t ∈ e.first.token?, P t
  | .index form base key, h, t, ht => by
    simp only [Expr.walk, cons_append, allFrom_cons, allFrom_append] at h
    cases form with
    | declared => cases ht
    | dot | bracket => exact AllFrom.first h.2.1 t ht
  | .call _ _ _, h, t, ht | .invoke _ _ _, h, t, ht => by
    simp only [Expr.walk, cons_append, allFrom_cons, allFrom_append] at h
    exact AllFrom.first h.2.1 t ht
  | .number value token, h, t, ht => by
    cases token with
    | none => cases ht
    | some token =>
      cases ht
      simpa [Expr.walk] using h
  | .nil token, h, t, ht | .bool value token, h, t, ht | .name id, h, t, ht
  | .function first last ps body, h, t, ht | .unary op token operand, h, t, ht => by
    cases ht
    simp [Expr.walk] at h
    tauto
  | .string value first last, h, t, ht | .table first fields, h, t, ht => by
    simp only [Expr.walk, allFrom_cons] at h
    exact h.1.1 t (by simp_all [Expr.first])
  | .varargs, h, t, ht | .binary op left right, h, t, ht => nomatch ht

abbrev Ident.From (P : Token → Prop) (id : Ident) : Prop := (Node.binder id).From P

end LuaTune.Lua
