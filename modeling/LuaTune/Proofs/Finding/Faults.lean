import LuaTune.Files.Script
import LuaTune.Proofs.Analysis.Faults
import Mathlib.Data.List.Basic

/-!
# When an analysis fails

Besides the visit, the rules write texts of expressions, and so a number that is too long to be
written may stop them. `Chunk.shownTexts` lists all texts that are written.
-/

namespace LuaTune.Lua

open List

mutual

/-- The whole numbers that the text of an expression shows. -/
def Expr.shownNumbers : Expr → List Nat
  | .number (.int n) _ => [n]
  | .index _ base key => base.shownNumbers ++ key.shownNumbers
  | .call callee args _ => callee.shownNumbers ++ numbersShown args
  | .invoke source _ args => source.shownNumbers ++ numbersShown args
  | .unary _ _ operand => operand.shownNumbers
  | .binary op left right => if op.sign?.isSome then left.shownNumbers ++ right.shownNumbers else []
  | .number (.float _) _ | .name _ | .string _ _ _ | .bool _ _ | .nil _ | .table _ _ | .varargs
  | .function _ _ _ _ => []

def numbersShown : List Expr → List Nat
  | [] => []
  | e :: es => e.shownNumbers ++ numbersShown es

end

mutual

theorem Expr.isPrintable_iff :
    ∀ e : Expr, e.isPrintable ↔ ∀ n ∈ e.shownNumbers, n < Nat.pow 10 Decimal.maxDigits
  | .number (.int n) _ => by
    simp only [Expr.isPrintable, Numeral.isPrintable, Decimal.isShort_iff, Expr.shownNumbers,
      forall_mem_singleton]
  | .index _ base key => by
    simp only [Expr.isPrintable, Expr.shownNumbers, Bool.and_eq_true, forall_mem_append,
      base.isPrintable_iff, key.isPrintable_iff]
  | .call callee args _ | .invoke callee _ args => by
    simp only [Expr.isPrintable, Expr.shownNumbers, Bool.and_eq_true, forall_mem_append,
      callee.isPrintable_iff, arePrintable_iff args]
  | .unary _ _ operand => by
    simp only [Expr.isPrintable, Expr.shownNumbers, operand.isPrintable_iff]
  | .binary op left right => by
    rw [Expr.isPrintable, Expr.shownNumbers]
    cases op.sign? with
    | none => simp
    | some s => simp [left.isPrintable_iff, right.isPrintable_iff, or_imp, forall_and]
  | .number (.float _) _ | .name _ | .string _ _ _ | .bool _ _ | .nil _ | .table _ _ | .varargs
  | .function _ _ _ _ => by
    simp [Expr.isPrintable, Numeral.isPrintable, Expr.shownNumbers]

theorem arePrintable_iff :
    ∀ es : List Expr, arePrintable es ↔ ∀ n ∈ numbersShown es, n < Nat.pow 10 Decimal.maxDigits
  | [] => by simp [arePrintable, numbersShown]
  | e :: es => by
    simp only [arePrintable, numbersShown, Bool.and_eq_true, forall_mem_append,
      e.isPrintable_iff, arePrintable_iff es]

end

end LuaTune.Lua

namespace LuaTune

open Lua Analysis Rules List

variable {c : Chunk} {source : Chars}

def directCall? : Node → Option Call
  | .expr (.call callee args last) =>
    (Tracker.calleeName? callee).map fun (module, func, fullName) =>
      { fullName, module, func, args, line := (Expr.call callee args last).line
        node := .call callee args last, scope := 0, loopDepth := 0, conditional := none, branch := -1 }
  | _ => none

def callTexts (c : Call) : List Expr := replacedParts c ++ nativeParts c

def ruleTexts (n : Node) : List Expr := (directCall? n).toList.flatMap callTexts ++ calledParts n

theorem callTexts_congr {c d : Call} (name : c.fullName = d.fullName) (args : c.args = d.args)
    (node : c.node = d.node) : callTexts c = callTexts d := by
  simp only [callTexts, replacedParts, nativeParts, name, args, node]

theorem callTexts_method {c : Call} {source method : String}
    (h : c.fullName = source ++ ":" ++ method) : callTexts c = [] := by
  have colon : ':' ∈ c.fullName.toList := by simp [h]
  have other : ∀ name : String, ':' ∉ name.toList → c.fullName ≠ name :=
    fun name none same => none (same ▸ colon)
  have plain : ∀ p ∈ Vocabulary.cachedProperties, ':' ∉ p.native.toList := by decide
  have unlisted : Vocabulary.cachedProperties.find? (fun p => p.native == c.fullName) = none :=
    List.find?_eq_none.mpr fun p hp => by simpa using (other p.native (plain p hp)).symm
  have distance : c.fullName ≠ "GetDistanceBetweenCoords" := other _ (by decide)
  have replaced : replacedParts c = [] := by
    unfold replacedParts
    split
    case h_6 => rfl
    all_goals next same _ => exact absurd same (other _ (by decide))
  have native : nativeParts c = [] := by
    simp only [nativeParts, unlisted, beq_eq_false_iff_ne.mpr distance]
    rfl
  rw [callTexts, replaced, native]
  rfl

theorem callTexts_eq {c : Call} (h : c.IsTrue) :
    callTexts c = (directCall? (.expr c.node)).toList.flatMap callTexts := by
  have names := h.names
  cases node : c.node with
  | call callee args last =>
    rw [node] at names
    rw [directCall?, names.1]
    simp only [Option.map_some, Option.toList_some, flatMap_cons, flatMap_nil, append_nil]
    exact callTexts_congr rfl names.2 node
  | invoke source method args =>
    rw [node] at names
    exact callTexts_method names.1
  | _ =>
    rw [node] at names
    exact names.elim

theorem directCall?_eq_none {n : Node} (h : recordedCall? n = none) : directCall? n = none := by
  cases n with
  | expr e =>
    cases e with
    | call callee args last =>
      have indirect : Tracker.calleeName? callee = none := by
        simpa [recordedCall?, isDirectCallee_eq] using h
      rw [directCall?, indirect]
      rfl
    | _ => rfl
  | _ => rfl

theorem flatMap_callTexts {lines : List Chars} {t : Tracker} (h : visitChunk c lines = .ok t) :
    t.calls.flatMap callTexts = c.walk.flatMap fun n => (directCall? n).toList.flatMap callTexts := by
  have nodes : t.calls.map (·.node) = callsAmong c.walk := follows_addsCalls.visit (.block c) _ t h
  have texts : t.calls.flatMap callTexts =
      (callsAmong c.walk).flatMap fun e => (directCall? (.expr e)).toList.flatMap callTexts := by
    rw [← nodes, flatMap_map]
    exact flatMap_congr fun c hc => callTexts_eq (calls_isTrue h c hc)
  rw [texts]
  induction c.walk with
  | nil => rfl
  | cons n ns ih =>
    rw [callsAmong_cons, flatMap_append, ih, flatMap_cons]
    cases recorded : recordedCall? n with
    | none =>
      rw [directCall?_eq_none recorded]
      rfl
    | some e =>
      rw [recordedCall?_eq_some recorded]
      simp

theorem arePrintable_flatMap {α : Type} (xs : List α) (g : α → List Expr) :
    arePrintable (xs.flatMap g) = xs.all fun x => arePrintable (g x) := by
  induction xs with
  | nil => rfl
  | cons x xs ih => rw [flatMap_cons, arePrintable_append, ih, all_cons]

namespace Lua.Chunk

def visitTexts (c : Chunk) : List Expr :=
  c.walk.flatMap recordedTexts ++ (c.walk.flatMap loopNodes).flatMap measuredTexts

/-- The expressions whose texts are written in the analysis of a script. -/
def shownTexts (c : Chunk) : List Expr := visitTexts c ++ c.walk.flatMap ruleTexts

def HasFault (c : Chunk) : Fault → Prop
  | .returnWithoutValues => ∃ n ∈ c.walk, isBareReturn n
  | .numberTooLong => ∃ k ∈ numbersShown (shownTexts c), Nat.pow 10 Decimal.maxDigits ≤ k

end Lua.Chunk

theorem stopsAmong_bareReturn (c : Chunk) :
    StopsAmong false c.walk .returnWithoutValues ↔ ∃ n ∈ c.walk, isBareReturn n := by
  constructor
  · rintro (here | ⟨n, hn, bare⟩)
    · exact here
    · obtain ⟨loop, hl, inside⟩ := mem_flatMap.mp hn
      exact ⟨n, loopNodes_subset_walk hl inside, bare⟩
  · exact .inl

theorem stopsAmong_tooLong (c : Chunk) :
    StopsAmong false c.walk .numberTooLong ↔ arePrintable c.visitTexts = false := by
  simp only [StopsAmong, Stops, Chunk.visitTexts, arePrintable_append, arePrintable_flatMap,
    Bool.and_eq_false_iff, all_eq_false, Bool.not_eq_true]
  constructor
  · rintro (⟨n, hn, recorded | nothing⟩ | ⟨n, hn, recorded | measured⟩)
    · exact .inl ⟨n, hn, recorded⟩
    · cases nothing
    · obtain ⟨loop, hl, inside⟩ := mem_flatMap.mp hn
      exact .inl ⟨n, loopNodes_subset_walk hl inside, recorded⟩
    · exact .inr ⟨n, hn, measured⟩
  · rintro (⟨n, hn, recorded⟩ | ⟨n, hn, measured⟩)
    · exact .inl ⟨n, hn, .inl recorded⟩
    · exact .inr ⟨n, hn, .inr measured⟩

theorem arePrintable_written {lines : List Chars} {t : Tracker} (h : visitChunk c lines = .ok t) :
    arePrintable (Analyzed.written ⟨source, c, t⟩) = arePrintable (c.walk.flatMap ruleTexts) := by
  have written : Analyzed.written ⟨source, c, t⟩ =
    t.calls.flatMap callTexts ++ c.walk.flatMap calledParts := rfl
  rw [written, flatMap_callTexts h, arePrintable_append, Bool.eq_iff_iff]
  simp only [Bool.and_eq_true, arePrintable_flatMap, all_eq_true, ruleTexts,
    arePrintable_append, forall_and]

theorem arePrintable_eq_false (es : List Expr) :
    arePrintable es = false ↔ ∃ k ∈ numbersShown es, Nat.pow 10 Decimal.maxDigits ≤ k := by
  rw [← Bool.not_eq_true, arePrintable_iff]
  simp only [not_forall, Nat.not_lt, exists_prop]

theorem fits_visitSource (parsed : Chunk.parse? source = some c) :
    Fits c.HasFault (visitSource source) := by
  rw [visitSource, parsed]
  refine (fits_visitChunk c _).andThen
    (q := fun f => f = .numberTooLong ∧ arePrintable (c.walk.flatMap ruleTexts) = false)
    (fun t visited => ?_) fun f => ?_
  · dsimp only
    rw [arePrintable_written visited]
    split
    · next printable => exact fun f unprintable => by simp [printable] at unprintable
    · next unprintable => exact ⟨rfl, Bool.not_eq_true _ ▸ unprintable⟩
  · cases f with
    | returnWithoutValues => simp [stopsAmong_bareReturn, Chunk.HasFault]
    | numberTooLong =>
      rw [stopsAmong_tooLong, Chunk.HasFault, ← arePrintable_eq_false, Chunk.shownTexts,
        arePrintable_append, Bool.and_eq_false_iff]
      simp

theorem fits_analyzeSource (parsed : Chunk.parse? source = some c) (settings : Settings) :
    Fits c.HasFault (analyzeSource settings source) := by
  have fits := fits_visitSource parsed
  rw [analyzeSource]
  cases visited : visitSource source with
  | error f | ok outcome =>
    rw [visited] at fits
    exact fits

/-! ## On a stack with an end -/

/-- What the stack of an interpreter has room for: whether the parser gets through a source on it,
and how many visits can be open at once inside that of a script. -/
structure Stack where
  parses : Chars → Bool
  visits : Nat

def Stack.parse? (s : Stack) (source : Chars) : Option Chunk :=
  if s.parses source then Chunk.parse? source else none

def Stack.HasRoom (s : Stack) (source : Chars) : Prop :=
  s.parses source ∧ ∀ c ∈ Chunk.parse? source, (Part.block c).isDeeperThan s.visits = false

def Lua.Chunk.HasFaultOn (s : Stack) (c : Chunk) : StackFault → Prop
  | .fault f => c.HasFault f
  | .tooDeep => (Part.block c).isDeeperThan s.visits

def analyzeSourceOn (s : Stack) (settings : Settings) (source : Chars) :
    Except StackFault (List Finding) :=
  match s.parse? source with
  | none => .ok []
  | some c => do
    let t ← (Part.block c).visitWithin s.visits (.start (Text.lines source))
    let a : Analyzed := ⟨source, c, t⟩
    if arePrintable a.written then return a.findings settings else throw (.fault .numberTooLong)

theorem bounds_analyzeSource (s : Stack) (settings : Settings) (parsed : s.parse? source = some c) :
    Bounds ((Part.block c).isDeeperThan s.visits) (analyzeSourceOn s settings source)
      (analyzeSource settings source) := by
  have whole : Chunk.parse? source = some c := (Option.ite_none_right_eq_some.mp parsed).2
  have visit : visitChunk c (Text.lines source) = (Part.block c).visit (.start (Text.lines source)) := rfl
  have bounds := (Part.block c).visitWithin_bounds s.visits (.start (Text.lines source))
  rw [analyzeSourceOn, parsed, analyzeSource, visitSource, whole]
  dsimp only
  rw [visit]
  match (Part.block c).visitWithin s.visits (.start (Text.lines source)), bounds with
  | .ok t, ⟨visited, shallow⟩ =>
    rw [visited]
    change Bounds _ (if _ then _ else _) (Except.map _ (if _ then _ else _))
    split
    · exact ⟨rfl, shallow⟩
    · rfl
  | .error (.fault f), visited =>
    rw [visited]
    rfl
  | .error .tooDeep, deep => exact deep

theorem fits_analyzeSourceOn (s : Stack) (settings : Settings) (parsed : s.parse? source = some c) :
    Fits (c.HasFaultOn s) (analyzeSourceOn s settings source) := by
  have fits := fits_analyzeSource (Option.ite_none_right_eq_some.mp parsed).2 settings
  match analyzeSourceOn s settings source, bounds_analyzeSource s settings parsed with
  | .ok findings, ⟨analyzed, shallow⟩ =>
    rw [analyzed] at fits
    rintro (f | _) fault
    · exact fits f fault
    · exact shallow fault
  | .error (.fault f), failed =>
    rw [failed] at fits
    exact fits
  | .error .tooDeep, deep => exact deep

theorem analyzeSourceOn_eq {s : Stack} (room : s.HasRoom source) (settings : Settings) :
    analyzeSourceOn s settings source = (analyzeSource settings source).mapError .fault := by
  have whole : s.parse? source = Chunk.parse? source := if_pos room.1
  cases parsed : Chunk.parse? source with
  | none =>
    rw [analyzeSourceOn, whole, parsed, analyzeSource, visitSource, parsed]
    rfl
  | some c =>
    have bounds := bounds_analyzeSource s settings (whole.trans parsed)
    match analyzeSourceOn s settings source, bounds with
    | .ok findings, analyzed =>
      rw [analyzed.1]
      rfl
    | .error (.fault f), failed =>
      rw [failed]
      rfl
    | .error .tooDeep, deep => cases (room.2 c parsed).symm.trans deep

end LuaTune

namespace LuaTune.Files

open Lua Analysis

/-- The analysis of the file at a path on a stack with an end. -/
def analyzeFileOn (s : Stack) (settings : Settings) (t : Tree) (p : Path) :
    Except StackFault (List Finding) :=
  match scriptAt? t p with
  | some source => analyzeSourceOn s settings source
  | none => .ok []

theorem fits_analyzeFileOn (s : Stack) (settings : Settings) (t : Tree) (p : Path) :
    Fits (fun f => ∃ source c, scriptAt? t p = some source ∧ s.parse? source = some c ∧ c.HasFaultOn s f)
      (analyzeFileOn s settings t p) := by
  rw [analyzeFileOn]
  cases scriptAt? t p with
  | none => rintro f ⟨source, c, ⟨⟩, -⟩
  | some source =>
    dsimp only
    cases parsed : s.parse? source with
    | none =>
      rw [analyzeSourceOn, parsed]
      rintro f ⟨_, c, ⟨⟩, found, -⟩
      rw [parsed] at found
      cases found
    | some c =>
      refine (fits_analyzeSourceOn s settings parsed).congr
        fun f => ⟨?_, fun h => ⟨source, c, rfl, parsed, h⟩⟩
      rintro ⟨_, d, ⟨⟩, found, fault⟩
      rw [parsed] at found
      cases found
      exact fault

def earlyReturn : Tree :=
  ⟨[(["a.lua"], .file (.bytes (Text.bytesOfChars
    "function f() while x do if y then return end end end".toList)))]⟩

@[irreducible]
def longHex : Tree :=
  ⟨[(["a.lua"], .file (.bytes (Text.bytesOfChars ("x = 0x".toList ++ List.replicate 3600 'f'))))]⟩

end LuaTune.Files
