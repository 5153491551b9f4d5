import LuaTune.Proofs.Finding.Kinds
import LuaTune.Proofs.Lua.Placed
import LuaTune.Proofs.Symbols.Unused

/-!
# Local variables that are never used

A variable is reported, once, exactly if the last statement that declares its name declares a
variable, the name stands nowhere else in the tree, and it is not registered as a handler.
-/

namespace LuaTune.Lua

open Rules List

/-! ## Names in a tree -/

/-- The names that a `local` or `for` statement declares. -/
def Node.targets : Node → List Ident
  | .stat (.localAssign _ targets _) | .stat (.genericFor targets _ _) => targets
  | .stat (.localFunction _ _ name _ _) => [name]
  | .stat (.numericFor target _ _) => [target]
  | _ => []

def Node.binders : Node → List Ident
  | .binder id => [id]
  | _ => []

def BindsTargets (ns : List Node) : Prop := ns.flatMap Node.binders = ns.flatMap Node.targets

/-- The names that stand in a tree as binders are those that its statements declare. -/
theorem bindsTargets_walk (c : Chunk) : BindsTargets c.walk := by
  have leaves (f : Node → List Ident) (names : ∀ e, f (.expr e) = []) :
      (∀ base path, (dottedNodes base path).flatMap f = []) ∧ ∀ ps, (paramNodes ps).flatMap f = [] := by
    simp [dottedNodes, identNodes, paramNodes, names]
  have bound (ids : List Ident) : (binderNodes ids).flatMap Node.binders = ids ∧
      (binderNodes ids).flatMap Node.targets = [] := by
    simp [binderNodes, Node.binders, Node.targets, flatMap_map]
  have below : (∀ e : Expr, BindsTargets e.walk) ∧ (∀ ds, BindsTargets (walkFields ds)) ∧
      (∀ d : Field, BindsTargets d.walk) ∧ (∀ ss, BindsTargets (walkStats ss)) ∧
      (∀ s : Stat, BindsTargets s.walk) ∧ (∀ o : Orelse, BindsTargets o.walk) ∧
      ∀ es, BindsTargets (walkExprs es) := by
    obtain ⟨dotted, params⟩ := leaves Node.binders fun _ => rfl
    obtain ⟨dotted', params'⟩ := leaves Node.targets fun _ => rfl
    unfold BindsTargets
    apply Expr.walk.mutual_induct
    all_goals
      intros
      simp only [*, Expr.walk, walkExprs, Field.walk, walkFields, Stat.walk, walkStats, Orelse.walk,
        flatMap_cons, flatMap_append, flatMap_nil, nil_append, append_nil,
        append_assoc, cons_append, Node.binders, Node.targets]
    split <;> grind
  simpa [BindsTargets, Chunk.walk, Node.binders, Node.targets] using below.2.2.2.1 c

theorem mem_usedNames {x : String} {ns : List Node} :
    x ∈ usedNames ns ↔ ∃ id, .expr (.name id) ∈ ns ∧ id.name = x := by
  rw [usedNames, mem_filterMap]
  constructor
  · rintro ⟨n, hn, named⟩
    split at named
    · exact ⟨_, hn, Option.some.inj named⟩
    · cases named
  · rintro ⟨id, hn, rfl⟩
    exact ⟨_, hn, rfl⟩

theorem reads_subset_usedNames (c : Chunk) : c.reads ⊆ usedNames c.walk := by
  have append (ms ns : List Node) : usedNames (ms ++ ns) = usedNames ms ++ usedNames ns :=
    filterMap_append
  have cons (x : String) (n : Node) (ns : List Node) : x ∈ usedNames (n :: ns) ↔
      (∃ id, .expr (.name id) = n ∧ id.name = x) ∨ x ∈ usedNames ns := by
    simp only [mem_usedNames, mem_cons, or_and_right, exists_or]
  have dotted (base : Ident) (path : List Ident) : base.name ∈ usedNames (dottedNodes base path) :=
    mem_usedNames.mpr ⟨base, by simp [dottedNodes, identNodes], rfl⟩
  have below : (∀ e : Expr, e.reads ⊆ usedNames e.walk) ∧
      (∀ fs, fieldsRead fs ⊆ usedNames (walkFields fs)) ∧
      (∀ ss, statsRead ss ⊆ usedNames (walkStats ss)) ∧ (∀ s : Stat, s.reads ⊆ usedNames s.walk) ∧
      (∀ o : Orelse, o.reads ⊆ usedNames o.walk) ∧ (∀ es, exprsRead es ⊆ usedNames (walkExprs es)) ∧
      ∀ es, targetsRead es ⊆ usedNames (walkExprs es) := by
    apply Expr.reads.mutual_induct
    all_goals intros
    -- the equation for a function in a table has a side condition
    case case24 => rw [Stat.reads] <;> grind [Stat.walk]
    all_goals
      simp only [Expr.reads, exprsRead, fieldsRead, targetsRead, Stat.reads, statsRead, Orelse.reads,
        Expr.walk, walkExprs, Field.walk, walkFields, Stat.walk, walkStats, Orelse.walk, append, cons,
        subset_def, mem_append, mem_cons, not_mem_nil]
      clear append cons
      grind
  simpa [Chunk.reads, Chunk.walk, usedNames] using below.2.2.1 c

end LuaTune.Lua

namespace LuaTune.Rules

open Lua List

variable {c : Chunk} {x : String} {line : Nat}

/-! ## The last declaration of a name -/

/-- The statement declares a variable of this name and begins on this line. -/
def DeclaresVariable (x : String) (line : Nat) : Node → Prop
  | .stat (.localAssign first targets _) => (∃ id ∈ targets, id.name = x) ∧ first.line = line
  | _ => False

theorem find?_declarationsOf_eq_none {n : Node} :
    (declarationsOf n).reverse.find? (·.name == x) = none ↔ ∀ id ∈ n.targets, id.name ≠ x := by
  unfold declarationsOf Node.targets
  split <;> simp

theorem find?_declarationsOf_eq_some {n : Node} :
    (∃ d, (declarationsOf n).reverse.find? (·.name == x) = some d ∧ d.kind = .variable ∧ d.line = line) ↔
      DeclaresVariable x line n := by
  have one : ∀ d ∈ declarationsOf n, ∀ d' ∈ declarationsOf n, d.kind = d'.kind ∧ d.line = d'.line := by
    unfold declarationsOf
    split <;> simp
  have listed : DeclaresVariable x line n ↔
      ∃ d ∈ declarationsOf n, d.name = x ∧ d.kind = .variable ∧ d.line = line := by
    unfold declarationsOf DeclaresVariable
    split
    · simp
      grind
    · next other =>
      split <;> simp
      exact absurd rfl (other _ _ _)
  rw [listed]
  constructor
  · rintro ⟨d, found, isVariable, place⟩
    exact ⟨d, mem_reverse.mp (mem_of_find?_eq_some found), by simpa using find?_some found,
      isVariable, place⟩
  · rintro ⟨d, hd, named, isVariable, place⟩
    have listed : ((declarationsOf n).reverse.find? (·.name == x)).isSome :=
      find?_isSome.mpr ⟨d, mem_reverse.mpr hd, beq_iff_eq.mpr named⟩
    obtain ⟨d', found⟩ := Option.isSome_iff_exists.mp listed
    obtain ⟨kind, line⟩ := one d' (mem_reverse.mp (mem_of_find?_eq_some found)) d hd
    exact ⟨d', found, kind.trans isVariable, line.trans place⟩

/-- The last statement that declares the name declares a variable. -/
def IsVariable (nodes : List Node) (x : String) (line : Nat) : Prop :=
  ∃ front n after, nodes = front ++ n :: after ∧ DeclaresVariable x line n ∧
    ∀ m ∈ after, ∀ id ∈ m.targets, id.name ≠ x

theorem IsVariable.ne_empty (h : IsVariable c.walk x line)
    (named : ∀ id, .binder id ∈ c.walk → id.name ≠ "") : x ≠ "" := by
  obtain ⟨front, n, after, walk, declares, -⟩ := h
  unfold DeclaresVariable at declares
  split at declares
  · next first targets values =>
    obtain ⟨⟨id, hid, rfl⟩, -⟩ := declares
    have target : id ∈ c.walk.flatMap Node.targets :=
      mem_flatMap.mpr ⟨.stat (.localAssign first targets values), by simp [walk], hid⟩
    rw [← bindsTargets_walk] at target
    obtain ⟨b, hb, bound⟩ := mem_flatMap.mp target
    cases b with
    | binder id' =>
      cases mem_singleton.mp bound
      exact named _ hb
    | _ => cases bound
  · exact declares.elim

theorem getKey?_lastDeclarations (plain : x.startsWith "_" = false) (nodes : List Node) (line : Nat) :
    (∃ d, getKey? x (lastDeclarations nodes) = some d ∧ d.kind = .variable ∧ d.line = line) ↔
      IsVariable nodes x line := by
  have found : getKey? x (lastDeclarations nodes) =
      nodes.reverse.findSome? fun n => (declarationsOf n).reverse.find? (·.name == x) := by
    have same : (fun d : Declaration => decide ((!d.name.startsWith "_") = true ∧ (d.name == x) = true)) =
        (·.name == x) := by
      funext d
      by_cases same : d.name = x <;> simp [same, plain]
    rw [lastDeclarations, getKey?_foldl_setKey, ← filter_reverse, find?_filter,
      reverse_flatMap, find?_flatMap]
    simp only [same, Function.comp_apply]
  rw [found]
  constructor
  · rintro ⟨d, last, kind⟩
    obtain ⟨after, n, front, split, here, none⟩ := findSome?_eq_some_iff.mp last
    refine ⟨front.reverse, n, after.reverse, ?_, find?_declarationsOf_eq_some.mp ⟨d, here, kind⟩,
      fun m hm => find?_declarationsOf_eq_none.mp (none m (mem_reverse.mp hm))⟩
    rw [← reverse_reverse nodes, split]
    simp
  · rintro ⟨front, n, after, rfl, declares, none⟩
    obtain ⟨d, here, kind⟩ := find?_declarationsOf_eq_some.mpr declares
    refine ⟨d, findSome?_eq_some_iff.mpr ⟨after.reverse, n, front.reverse, by simp, here, ?_⟩, kind⟩
    exact fun m hm => find?_declarationsOf_eq_none.mpr (none m (mem_reverse.mp hm))

theorem plain_of_mem {nodes : List Node} {d : Declaration} (h : (x, d) ∈ lastDeclarations nodes) :
    x.startsWith "_" = false := by
  have found := (mem_iff_getKey? (nodup_foldl_setKey _)).mp h
  rw [getKey?_foldl_setKey] at found
  have kept := mem_filter.mp (mem_reverse.mp (mem_of_find?_eq_some found))
  have named : d.name = x := by simpa using find?_some found
  simpa [named] using kept.2

/-! ## Unused variables -/

/-- No name stands in the tree but where variables of this name are declared. -/
structure IsUnused (c : Chunk) (x : String) (line : Nat) : Prop where
  plain : x.startsWith "_" = false
  declared : IsVariable c.walk x line
  unnamed : ∀ id, .expr (.name id) ∈ c.walk → id.name ≠ x
  unregistered : ∀ callee event handler rest last,
    .expr (.call callee (event :: handler :: rest) last) ∈ c.walk → callee.text = "AddEventHandler" →
      handler.text ≠ x

def unusedVariables (c : Chunk) : List (String × Nat) :=
  let unused := (lastDeclarations c.walk).filter fun (name, d) =>
    d.kind == .variable && !(usedNames c.walk).contains name && !(c.walk.filterMap handler?).contains name
  unused.map fun (name, d) => (name, d.line)

theorem map_unusedVariableFindings (lines : List Chars) (c : Chunk) :
    (unusedVariableFindings lines c).map (fun f => (f.details.text? "var_name", f.line)) =
      (unusedVariables c).map fun n => (some n.1, (n.2 : Int)) := by
  rw [unusedVariableFindings, unusedVariables, map_filterMap, map_map, ← filterMap_eq_map,
    filterMap_filter]
  congr 1
  funext ⟨name, d⟩
  dsimp only
  split <;> rfl

theorem mem_handlers (some : x ≠ "") {ns : List Node} :
    x ∈ ns.filterMap handler? ↔ ∃ callee event handler rest last,
      .expr (.call callee (event :: handler :: rest) last) ∈ ns ∧ callee.text = "AddEventHandler" ∧
        handler.text = x := by
  rw [mem_filterMap]
  constructor
  · rintro ⟨n, hn, registers⟩
    unfold handler? at registers
    split at registers
    · split at registers
      · next named =>
        simp at named registers
        exact ⟨_, _, _, _, _, hn, named.1, registers⟩
      · cases registers
    · cases registers
  · rintro ⟨callee, event, handler, rest, last, hn, named, rfl⟩
    exact ⟨_, hn, by simp [handler?, named, some]⟩

theorem mem_unusedVariables (named : ∀ id, .binder id ∈ c.walk → id.name ≠ "") :
    (x, line) ∈ unusedVariables c ↔ IsUnused c x line := by
  have listed : (x, line) ∈ unusedVariables c ↔
      (∃ d, (x, d) ∈ lastDeclarations c.walk ∧ d.kind = .variable ∧ d.line = line) ∧
        x ∉ usedNames c.walk ∧ x ∉ c.walk.filterMap handler? := by
    simp [unusedVariables]
    grind
  have known (d : Declaration) : (x, d) ∈ lastDeclarations c.walk ↔ getKey? x (lastDeclarations c.walk) = some d :=
    mem_iff_getKey? (nodup_foldl_setKey _)
  have registered (h : IsVariable c.walk x line) : x ∉ c.walk.filterMap handler? ↔
      ∀ callee event handler rest last, .expr (.call callee (event :: handler :: rest) last) ∈ c.walk →
        callee.text = "AddEventHandler" → handler.text ≠ x := by
    rw [mem_handlers (h.ne_empty named)]
    grind
  rw [listed, mem_usedNames]
  constructor
  · rintro ⟨⟨d, hd, kind⟩, unnamed, unregistered⟩
    have plain := plain_of_mem hd
    have declared := (getKey?_lastDeclarations plain _ _).mp ⟨d, (known d).mp hd, kind⟩
    exact ⟨plain, declared, fun id hid same => unnamed ⟨id, hid, same⟩, (registered declared).mp unregistered⟩
  · rintro ⟨plain, declared, unnamed, unregistered⟩
    obtain ⟨d, found, kind⟩ := (getKey?_lastDeclarations plain _ _).mpr declared
    exact ⟨⟨d, (known d).mpr found, kind⟩, fun ⟨id, hid, same⟩ => unnamed id hid same,
      (registered declared).mpr unregistered⟩

theorem nodup_unusedVariables (c : Chunk) : ((unusedVariables c).map (·.1)).Nodup := by
  rw [unusedVariables, map_map]
  exact (nodup_foldl_setKey _).sublist (filter_sublist.map _)

end LuaTune.Rules

namespace LuaTune

open Lua Rules Analysis List

theorem name_of_binder {source : Chars} {c : Chunk} (parsed : Chunk.parse? source = some c) :
    ∀ id, .binder id ∈ c.walk → id.name ≠ "" := by
  intro id hid
  obtain ⟨kept, spelled⟩ := Chunk.allFrom parsed _ hid
  have token : id.token ∈ scan source := kept id.token (mem_singleton_self _)
  obtain ⟨front, back, tokens⟩ := append_of_mem token
  obtain ⟨-, ch, cs, -, q, -, -, -, same, -⟩ := scanFrom_cut tokens
  rw [show id.name = id.token.name from spelled, same]
  exact fun empty => cons_ne_nil ch cs (String.ofList_inj.mp empty)

/-- The reports of unused variables give, each once, the unused variables and the lines that declare them; none
of these is read. -/
theorem unused_variables_exact {settings : Settings} {source : Chars} {c : Chunk} {fs : List Finding}
    (parsed : Chunk.parse? source = some c) (found : analyzeSource settings source = .ok fs) :
    ∃ names : List (String × Nat),
      (fs.filter (·.pattern == "unused_local_variable")).map (fun f => (f.details.text? "var_name", f.line)) =
        names.map (fun n => (some n.1, (n.2 : Int))) ∧
      (names.map (·.1)).Nodup ∧ (∀ x line, (x, line) ∈ names ↔ IsUnused c x line) ∧
      (∀ x ∈ c.reads, x ∉ names.map (·.1)) ∧
      BindsTargets c.walk := by
  obtain ⟨t, visited, rfl⟩ := exists_visit parsed found
  have exact (x : String) (line : Nat) : (x, line) ∈ unusedVariables c ↔ IsUnused c x line :=
    mem_unusedVariables (name_of_binder parsed)
  refine ⟨unusedVariables c, ?_, nodup_unusedVariables c, exact, ?_, bindsTargets_walk c⟩
  · rw [filter_findings (by decide)]
    simpa using map_unusedVariableFindings t.lines c
  · intro x read listed
    obtain ⟨⟨x, line⟩, unused, rfl⟩ := mem_map.mp listed
    obtain ⟨id, hid, same⟩ := mem_usedNames.mp (reads_subset_usedNames c read)
    exact ((exact x line).mp unused).unnamed id hid same

def declaredTwice : Chars := "for i = 1, 2 do end\nlocal i, a = 1, 2\nprint(a)\n".toList

theorem declaredTwice_reported : ∃ c fs, Chunk.parse? declaredTwice = some c ∧
    analyzeSource {} declaredTwice = .ok fs ∧ "a" ∈ c.reads ∧ IsUnused c "i" 2 ∧
      ∀ line, ¬IsUnused c "a" line := by
  have checked : analysisPasses declaredTwice fun c fs => decide ("a" ∈ c.reads) &&
      decide ((fs.filter (·.pattern == "unused_local_variable")).map
        (fun f => (f.details.text? "var_name", f.line)) = [(some "i", 2)]) := by decide +kernel
  obtain ⟨c, fs, parsed, found, passed⟩ := of_analysisPasses checked
  simp only [Bool.and_eq_true, decide_eq_true_eq] at passed
  obtain ⟨names, reports, -, exact, unread, -⟩ := unused_variables_exact parsed found
  rw [passed.2] at reports
  refine ⟨c, fs, parsed, found, passed.1, (exact "i" 2).mp ?_, fun line unused => ?_⟩
  · obtain ⟨⟨x, line⟩, listed, same⟩ := mem_map.mp (reports ▸ mem_singleton_self (some "i", (2 : Int)))
    simp only [Prod.mk.injEq, Option.some.injEq] at same
    obtain ⟨rfl, line_eq⟩ := same
    cases Int.ofNat.inj line_eq
    exact listed
  · exact unread "a" passed.1 (mem_map_of_mem ((exact "a" line).mpr unused))

end LuaTune
