import LuaTune.Console
import Mathlib.Tactic.Common

/-!
# What actions keep

An action may stop before its end, and what it did until then stays done. So an invariant has to
hold however the action ends.
-/

namespace LuaTune.Console

open Files
open Std.Do

set_option mvcgen.warning false

variable {α β : Type} {a : Action α} {w w' : World} {Q : α → World → Prop}

def worldAfter : EStateM.Result Stop World α → World
  | .ok _ w => w
  | .error _ w => w

/-- The action comes to its end, with such a result and in such a world. -/
def Ends (a : Action α) (w : World) (Q : α → World → Prop) : Prop :=
  match a w with
  | .ok x w' => Q x w'
  | .error _ _ => False

def Whenever (a : Action α) (w : World) (Q : α → World → Prop) : Prop :=
  match a w with
  | .ok x w' => Q x w'
  | .error _ _ => True

instance (a : Action α) (w : World) (Q : α → World → Prop) [∀ x w', Decidable (Q x w')] :
    Decidable (Ends a w Q) :=
  match h : a w with
  | .ok x w' => decidable_of_iff (Q x w') (by rw [Ends, h])
  | .error _ _ => .isFalse (by rw [Ends, h]; exact id)

instance (a : Action α) (w : World) (Q : α → World → Prop) [∀ x w', Decidable (Q x w')] :
    Decidable (Whenever a w Q) :=
  match h : a w with
  | .ok x w' => decidable_of_iff (Q x w') (by rw [Whenever, h])
  | .error _ _ => .isTrue (by rw [Whenever, h]; trivial)

theorem ends_iff : Ends a w Q ↔ ∃ x w', a w = .ok x w' ∧ Q x w' := by
  unfold Ends
  split <;> simp [*]

theorem whenever_iff : Whenever a w Q ↔ ∀ x w', a w = .ok x w' → Q x w' := by
  unfold Whenever
  split <;> simp [*]

theorem Whenever.of_ok {x : α} (h : Whenever a w Q) (ha : a w = .ok x w') : Q x w' := by
  rwa [Whenever, ha] at h

theorem bind_ok {f : α → Action β} {x : α} (h : a w = .ok x w') : (a >>= f) w = f x w' := by
  simp only [bind, EStateM.bind, h]

theorem bind_error {f : α → Action β} {e : Stop}
    (h : a w = .error e w') : (a >>= f) w = .error e w' := by
  simp only [bind, EStateM.bind, h]

theorem get_bind {f : World → Action α} (w : World) : (get >>= f) w = f w w := rfl

/-- A property of the world that does not depend on what was printed. -/
structure WorldInvariant where
  holds : World → Prop
  printed : ∀ w s, holds w → holds { w with output := s }

/-- The action keeps the invariant, also when it stops before its end. -/
abbrev Keeps (I : WorldInvariant) (a : Action α) : Prop :=
  ⦃fun w => ⌜I.holds w⌝⦄ a ⦃post⟨fun _ w => ⌜I.holds w⌝, fun _ w => ⌜I.holds w⌝⟩⦄

abbrev Yields (I : WorldInvariant) (a : Action α) (Q : α → Prop) : Prop :=
  ⦃fun w => ⌜I.holds w⌝⦄ a ⦃post⟨fun x w => ⌜I.holds w ∧ Q x⌝, fun _ w => ⌜I.holds w⌝⟩⦄

abbrev Completes (I : WorldInvariant) (a : Action α) : Prop :=
  ⦃fun w => ⌜I.holds w⌝⦄ a ⦃⇓ _ w => ⌜I.holds w⌝⦄

variable {I : WorldInvariant} {a : Action α} {w : World} {P : World → Prop} {Q : α → World → Prop}
    {f : Tree → Except FileError Tree}

theorem Completes.keeps (h : Completes I a) : Keeps I a := by
  unfold Keeps
  mvcgen [h]
  exact id

theorem Yields.keeps {Q : α → Prop} (h : Yields I a Q) : Keeps I a := by
  unfold Keeps
  mvcgen [h]
  exact fun hw _ => hw

theorem run_of_triple {E : World → Prop}
    (h : ⦃fun w => ⌜P w⌝⦄ a ⦃post⟨fun x w => ⌜Q x w⌝, fun _ w => ⌜E w⌝⟩⦄) (hw : P w) :
    (∃ x w', a w = .ok x w' ∧ Q x w') ∨ ∃ e w', a w = .error e w' ∧ E w' := by
  have run := Triple.iff.mp h w hw
  simp only [wp, PredTrans.apply, EStateM.run] at run
  cases ha : a w with
  | ok x w' => rw [ha] at run; exact .inl ⟨x, w', rfl, run⟩
  | error e w' => rw [ha] at run; exact .inr ⟨e, w', rfl, run⟩

theorem Yields.of_ok {Q : α → Prop} (h : Yields I a Q) {w' : World} {x : α}
    (hw : I.holds w) (ha : a w = .ok x w') : I.holds w' ∧ Q x := by
  have run := run_of_triple (Q := fun x w => I.holds w ∧ Q x) h hw
  simpa [ha] using run

theorem holds_worldAfter (h : ⦃fun w => ⌜P w⌝⦄ a ⦃post⟨fun _ w => ⌜I.holds w⌝, fun _ w => ⌜I.holds w⌝⟩⦄)
    (hw : P w) : I.holds (worldAfter (a w)) := by
  rcases run_of_triple (Q := fun _ => I.holds) h hw with ⟨x, w', run, hw'⟩ | ⟨e, w', run, hw'⟩ <;>
  · rw [run]
    exact hw'

theorem exists_ok_of_triple (h : ⦃fun w => ⌜P w⌝⦄ a ⦃⇓ x w => ⌜Q x w⌝⦄) (hw : P w) :
    ∃ x w', a w = .ok x w' ∧ Q x w' :=
  (run_of_triple (E := fun _ => False) h hw).resolve_right fun ⟨_, _, _, no⟩ => no

theorem triple_of_run {E : World → Prop}
    (h : ∀ w, P w → (∃ x w', a w = .ok x w' ∧ Q x w') ∨ ∃ e w', a w = .error e w' ∧ E w') :
    ⦃fun w => ⌜P w⌝⦄ a ⦃post⟨fun x w => ⌜Q x w⌝, fun _ w => ⌜E w⌝⟩⦄ := by
  apply Triple.of_entails_wp
  intro w hw
  simp only [wp, PredTrans.apply, EStateM.run]
  rcases h w hw with ⟨x, w', ha, hQ⟩ | ⟨e, w', ha, hE⟩
  · rw [ha]
    exact hQ
  · rw [ha]
    exact hE

theorem triple_of_exists_ok (h : ∀ w, P w → ∃ x w', a w = .ok x w' ∧ Q x w') :
    ⦃fun w => ⌜P w⌝⦄ a ⦃⇓ x w => ⌜Q x w⌝⦄ :=
  triple_of_run (E := fun _ => False) fun w hw => .inl (h w hw)

theorem triple_of_known {φ : Prop}
    {Q : PostCond α (.except Stop (.arg World .pure))} (h : φ → ⦃fun w => ⌜P w⌝⦄ a ⦃Q⦄) :
    ⦃fun w => ⌜P w ∧ φ⌝⦄ a ⦃Q⦄ := by
  apply Triple.of_entails_wp
  rintro w ⟨hw, hφ⟩
  exact Triple.iff.mp (h hφ) w hw

/-! ## Printing and stopping -/

theorem put_completes (s : String) : Completes I (put s) := by
  unfold Completes put
  mvcgen
  exact I.printed _ _ ‹_›

@[spec]
theorem put_spec (s : String) : Keeps I (put s) := (put_completes s).keeps

theorem say_completes (s : String) : Completes I (say s) := put_completes _

@[spec]
theorem say_spec (s : String) : Keeps I (say s) := put_spec _

@[spec]
theorem exit_spec {Q : PostCond α (.except Stop (.arg World .pure))} (code : Nat) :
    ⦃Q.2.1 (.exit code)⦄ (exit code : Action α) ⦃Q⦄ := by
  unfold exit
  mvcgen

@[spec]
theorem fail_spec {Q : PostCond α (.except Stop (.arg World .pure))} (f : Failure) :
    ⦃Q.2.1 (.failure f)⦄ (fail f : Action α) ⦃Q⦄ := by
  unfold fail
  mvcgen

def settled (start : World) : WorldInvariant where
  holds w := w.tree = start.tree ∧ w.now = start.now ∧ w.breakdown = start.breakdown ∧
    w.noPools = start.noPools
  printed _ _ h := h

theorem settled_self (w : World) : (settled w).holds w := ⟨rfl, rfl, rfl, rfl⟩

/-! ## Loops -/

@[spec]
theorem forM_spec {f : α → Action Unit} {xs : List α} (h : ∀ x ∈ xs, Keeps I (f x)) :
    Keeps I (xs.forM f) := by
  induction xs with
  | nil =>
    unfold Keeps List.forM
    mvcgen
  | cons x xs ih =>
    have head := h x List.mem_cons_self
    have tail := ih fun y hy => h y (List.mem_cons_of_mem x hy)
    unfold Keeps List.forM
    mvcgen [head, tail]

@[spec]
theorem sayAll_spec (ss : List String) : Keeps I (sayAll ss) := forM_spec fun _ _ => say_spec _

/-! ## Reading what was typed -/

def WorldInvariant.IgnoresInput (I : WorldInvariant) : Prop :=
  ∀ w cs, I.holds w → I.holds { w with input := cs }

def WorldInvariant.unread (I : WorldInvariant) (start : World) : WorldInvariant where
  holds w := I.holds w ∧ w.interrupts = start.interrupts ∧ w.input = start.input
  printed w s hw := ⟨I.printed w s hw.1, hw.2⟩

def World.asked (w : World) (question : String) : World :=
  if w.prompts then { w with output := w.output ++ question } else w

theorem WorldInvariant.asked (hw : I.holds w) (question : String) : I.holds (w.asked question) := by
  unfold World.asked
  split
  · exact I.printed w _ hw
  · exact hw

theorem ask_eq (question : String) (w : World) : ask question w =
      if w.interrupts then .error .interrupt w
      else match w.input with
        | [] => .error (.failure .endOfInput) (w.asked question)
        | cs => .ok (cs.takeWhile (· != '\n'))
            { w.asked question with input := (cs.dropWhile (· != '\n')).drop 1 } := by
  cases hi : w.interrupts <;> cases hp : w.prompts <;> cases hc : w.input
  all_goals
    obtain ⟨⟩ := w
    subst hi hp hc
    rfl

theorem ask_spec (h : I.IgnoresInput) (question : String) (start : World) :
    ⦃fun w => ⌜(I.unread start).holds w⌝⦄
    ask question
    ⦃post⟨fun reply w => ⌜I.holds w ∧ start.interrupts = false ∧
        reply = start.input.takeWhile (· != '\n')⌝,
      fun _ w => ⌜I.holds w ∧ (start.interrupts = true ∨ start.input = [])⌝⟩⦄ := by
  apply Triple.of_entails_wp
  rintro w ⟨hw, interrupts, input⟩
  simp only [wp, PredTrans.apply, EStateM.run]
  rw [ask_eq, interrupts, input]
  cases start.interrupts with
  | true => exact ⟨hw, .inl rfl⟩
  | false =>
    cases start.input with
    | nil => exact ⟨I.asked hw question, .inr rfl⟩
    | cons c cs => exact ⟨h _ _ (I.asked hw question), rfl, rfl⟩

theorem Keeps.of_unread (h : ∀ start, ⦃fun w => ⌜(I.unread start).holds w⌝⦄ a
      ⦃post⟨fun _ w => ⌜I.holds w⌝, fun _ w => ⌜I.holds w⌝⟩⦄) : Keeps I a := by
  apply Triple.of_entails_wp
  intro w hw
  exact Triple.iff.mp (h w) w ⟨hw, rfl, rfl⟩

theorem ask_keeps (h : I.IgnoresInput) (question : String) : Keeps I (ask question) := by
  refine .of_unread fun start => ?_
  have reply := ask_spec h question start
  mvcgen [reply]
  · exact fun hw _ _ => hw
  · exact fun hw _ => hw

/-! ## Changing the files -/

def Admits (I : WorldInvariant) (f : Tree → Except FileError Tree) : Prop :=
  ∀ w t, I.holds w → f w.tree = .ok t → I.holds { w with tree := t }

theorem tryFiles_completes (h : Admits I f) : Completes I (tryFiles f) := by
  unfold Completes tryFiles
  mvcgen
  exact h _ _ ‹_› ‹_›

theorem tryFiles_of_ok {t : Tree}
    (h : f w.tree = .ok t) : tryFiles f w = .ok none { w with tree := t } := by
  unfold tryFiles
  rw [get_bind, h]
  rfl

theorem tryFiles_of_error {e : FileError}
    (h : f w.tree = .error e) : tryFiles f w = .ok (some e) w := by
  unfold tryFiles
  rw [get_bind, h]
  rfl

@[spec]
theorem tryFiles_spec (h : Admits I f) : Keeps I (tryFiles f) := (tryFiles_completes h).keeps

@[spec]
theorem changeFiles_spec (h : Admits I f) : Keeps I (changeFiles f) := by
  unfold Keeps changeFiles
  mvcgen [h]

end LuaTune.Console
