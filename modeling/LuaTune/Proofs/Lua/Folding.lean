import LuaTune.Lua.Syntax.Walk
import Mathlib.Algebra.Group.Nat.Defs
import Mathlib.Data.List.Induction
import Mathlib.Data.List.Perm.Basic
import Mathlib.Tactic.Common

/-!
# Trees of nodes

A script is a tree whose nodes stand in the order of the walk, and a fold of the script is a fold of
that tree.
-/

namespace LuaTune.Lua

open List

inductive Rose (α : Type) where
  | node (a : α) (parts : List (Rose α))

namespace Rose

variable {α β : Type}

def fold (f : α → List β → β) : Rose α → β
  | .node a parts => f a (parts.map (fold f))

def nodes : Rose α → List α
  | .node a parts => a :: parts.flatMap nodes

/-- The nodes with their depths, where the root stands at depth `d`. -/
def placed (d : Nat) : Rose α → List (α × Nat)
  | .node a parts => (a, d) :: parts.flatMap (placed (d + 1))

def subtrees : Rose α → List (Rose α)
  | .node a parts => .node a parts :: parts.flatMap subtrees

theorem sizeOf_lt_of_below {a : α} {parts : List (Rose α)} {s : Rose α}
    (h : s ∈ parts.flatMap subtrees) : sizeOf s < sizeOf (node a parts) := by
  have inside (t : Rose α) : s ∈ t.subtrees → sizeOf s ≤ sizeOf t := by
    induction t using subtrees.induct with
    | case1 a parts ih =>
      rw [subtrees, mem_cons, mem_flatMap]
      rintro (rfl | ⟨p, hp, hs⟩)
      · exact Nat.le_refl _
      · have := ih p hp hs
        have := sizeOf_lt_of_mem hp
        rw [node.sizeOf_spec]
        omega
  obtain ⟨p, hp, hs⟩ := mem_flatMap.mp h
  have := inside p hs
  have := sizeOf_lt_of_mem hp
  rw [node.sizeOf_spec]
  omega

/-- The nodes in the order of the visits, if a visit of a node visits each node below it. -/
def visited : Rose α → List α
  | .node a parts => a :: (parts.flatMap subtrees).attach.flatMap fun s => s.1.visited
termination_by t => sizeOf t
decreasing_by exact sizeOf_lt_of_below s.2

theorem visited_node (a : α) (parts : List (Rose α)) :
    (node a parts).visited = a :: parts.flatMap fun p => p.subtrees.flatMap visited := by
  rw [visited]
  simp [flatMap_assoc]

theorem placed_succ (d : Nat) (t : Rose α) :
    t.placed (d + 1) = (t.placed d).map fun x => (x.1, x.2 + 1) := by
  induction t using subtrees.induct generalizing d with
  | case1 a parts ih =>
    rw [placed, placed, map_cons, map_flatMap, flatMap_def, flatMap_def,
      map_congr_left fun p hp => ih p hp (d + 1)]

/-- A node as often as it is visited. -/
def repeated (x : α × Nat) : List α := List.replicate (2 ^ (x.2 - 1)) x.1

theorem repeated_deeper (t : Rose α) : ((t.placed 2).flatMap repeated).Perm
      ((t.placed 1).flatMap repeated ++ (t.placed 1).flatMap repeated) := by
  rw [placed_succ 1, placed_succ 0]
  simp only [map_map, flatMap_map]
  refine .trans (.of_eq ?_) (flatMap_append_perm _ _ _).symm
  simp [repeated, Nat.pow_succ, Nat.mul_two]

theorem visited_subtrees (t : Rose α) :
    (t.subtrees.flatMap visited).Perm ((t.placed 1).flatMap repeated) := by
  induction t using subtrees.induct with
  | case1 a parts ih =>
    rw [subtrees, placed, flatMap_cons, flatMap_cons, visited_node, flatMap_assoc, flatMap_assoc]
    refine List.Perm.cons a ((flatMap_append_perm _ _ _).trans (.flatMap_left _ fun p hp => ?_))
    exact ((ih p hp).append (ih p hp)).trans (repeated_deeper p).symm

theorem visited_perm (t : Rose α) : t.visited.Perm ((t.placed 0).flatMap repeated) := by
  obtain ⟨a, parts⟩ := t
  rw [visited_node, placed, flatMap_cons, flatMap_assoc]
  exact List.Perm.cons a (.flatMap_left _ fun p _ => visited_subtrees p)

theorem map_fst_placed (d : Nat) (t : Rose α) : (t.placed d).map (·.1) = t.nodes := by
  induction t using subtrees.induct generalizing d with
  | case1 a parts ih =>
    rw [placed, nodes, map_cons, map_flatMap, flatMap_def, flatMap_def,
      map_congr_left fun p hp => ih p hp (d + 1)]

theorem mem_visited {a : α} {t : Rose α} : a ∈ t.visited ↔ a ∈ t.nodes := by
  rw [t.visited_perm.mem_iff, ← map_fst_placed 0, mem_flatMap, mem_map]
  simp [repeated, eq_comm]

end Rose

variable {β : Type}

theorem foldDotted_snoc (f : Node → List β → β) (base : Ident) (path : List Ident) (id : Ident) :
    foldDotted f base (path ++ [id]) =
      f (.expr (dottedName base (path ++ [id]))) [foldDotted f base path, f (.expr (.name id)) []] := by
  unfold foldDotted
  rw [length_append, length_singleton, range_succ, foldl_append]
  have same : (List.range path.length).foldl (fun b k =>
        f (.expr (dottedName base ((path ++ [id]).take (k + 1))))
          (b :: foldIdents f (((path ++ [id]).drop k).take 1))) (f (.expr (.name base)) []) =
      (List.range path.length).foldl (fun b k =>
        f (.expr (dottedName base (path.take (k + 1))))
          (b :: foldIdents f ((path.drop k).take 1))) (f (.expr (.name base)) []) := by
    refine foldl_ext _ _ _ fun b k hk => ?_
    have inside : k < path.length := mem_range.mp hk
    rw [take_append_of_le_length (by omega), drop_append_of_le_length (by omega),
      take_append_of_le_length (by rw [length_drop]; omega)]
  rw [same, foldl_cons, foldl_nil, take_of_length_le (by simp), drop_left]
  rfl

theorem dottedNodes_snoc (base : Ident) (path : List Ident) (id : Ident) :
    dottedNodes base (path ++ [id]) =
      .expr (dottedName base (path ++ [id])) :: dottedNodes base path ++ [.expr (.name id)] := by
  have shorter (k : Nat) : (path ++ [id]).take (path.length + 1 - (k + 1)) =
      path.take (path.length - k) := by
    rw [Nat.add_sub_add_right, take_append_of_le_length (Nat.sub_le _ _)]
  simp only [dottedNodes, length_append, length_singleton, range_succ_eq_map,
    map_cons, map_map, Function.comp_def, shorter, identNodes]
  simp [take_of_length_le]

/-- The value `b` of a fold and the walk are those of one tree. -/
def IsTree (f : Node → List β → β) (t : Rose Node) (b : β) (walk : List Node) : Prop :=
  b = t.fold f ∧ walk = t.nodes

def AreTrees (f : Node → List β → β) (ts : List (Rose Node)) (bs : List β) (walk : List Node) : Prop :=
  bs = ts.map (Rose.fold f) ∧ walk = ts.flatMap Rose.nodes

theorem areTrees_leaves {ι : Type} (f : Node → List β → β) (k : ι → Node) (is : List ι) :
    AreTrees f (is.map fun i => .node (k i) []) (is.map fun i => f (k i) []) (is.map k) := by
  induction is with
  | nil => simp [AreTrees]
  | cons i is ih => simp_all [AreTrees, Rose.fold, Rose.nodes]

theorem isTree_dotted (f : Node → List β → β) (base : Ident) (path : List Ident) :
    IsTree f (foldDotted Rose.node base path) (foldDotted f base path) (dottedNodes base path) := by
  induction path using List.reverseRecOn with
  | nil => simp [IsTree, foldDotted, dottedNodes, identNodes, Rose.fold, Rose.nodes]
  | append_singleton path id ih =>
    simp [IsTree, foldDotted_snoc, dottedNodes_snoc, Rose.fold, Rose.nodes, ih.1, ih.2]

theorem isTree_fold (f : Node → List β → β) :
    (∀ e : Expr, IsTree f (e.fold Rose.node) (e.fold f) e.walk) ∧
    (∀ ds, AreTrees f (foldFields Rose.node ds) (foldFields f ds) (walkFields ds)) ∧
    (∀ d : Field, IsTree f (d.fold Rose.node) (d.fold f) d.walk) ∧
    (∀ ss, AreTrees f (foldStats Rose.node ss) (foldStats f ss) (walkStats ss)) ∧
    (∀ s : Stat, IsTree f (s.fold Rose.node) (s.fold f) s.walk) ∧
    (∀ o : Orelse, AreTrees f (o.fold Rose.node) (o.fold f) o.walk) ∧
    ∀ es, AreTrees f (foldExprs Rose.node es) (foldExprs f es) (walkExprs es) := by
  have dotted := isTree_dotted f
  have binders ids : AreTrees f (foldBinders Rose.node ids) (foldBinders f ids) (binderNodes ids) :=
    areTrees_leaves f .binder ids
  have params ps : AreTrees f (foldParams Rose.node ps) (foldParams f ps) (paramNodes ps) :=
    areTrees_leaves f (fun p : Param => .expr p.expr) ps
  unfold IsTree AreTrees at *
  apply Expr.fold.mutual_induct
  all_goals
    intros
    simp [*, Expr.fold, foldExprs, Field.fold, foldFields, Stat.fold, foldStats, Orelse.fold, Expr.walk,
      walkExprs, Field.walk, walkFields, Stat.walk, walkStats, Orelse.walk, Rose.fold, Rose.nodes]

def Chunk.tree (c : Chunk) : Rose Node := c.fold Rose.node

theorem Chunk.fold_eq (f : Node → List β → β) (c : Chunk) : c.fold f = c.tree.fold f := by
  simp [Chunk.tree, Chunk.fold, Rose.fold, ((isTree_fold f).2.2.2.1 c).1]

theorem Chunk.nodes_tree (c : Chunk) : c.tree.nodes = c.walk := by
  simp [Chunk.tree, Chunk.fold, Rose.nodes, Chunk.walk, ((isTree_fold Rose.node).2.2.2.1 c).2]

end LuaTune.Lua
