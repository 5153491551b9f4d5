import LuaTune.Proofs.Analysis.Records

/-!
# What a visit leaves as it was

A visit that comes to its end stands where it started. Scopes are only added, each inside the scope
where the visit started or one added before it.
-/

namespace LuaTune.Analysis

open Lua LuaTune.Analysis.Action List

variable {s : Scope} {t v : Tracker} {name : String}

structure Place where
  current : ScopeId
  loopDepth : Nat
  functionDepth : Nat
  conditional : Option Nat
  branch : Int

def Tracker.place (t : Tracker) : Place :=
  ⟨t.current, t.loopDepth, t.functionDepth, t.conditional, t.branch⟩

/-! ## Scopes are only added -/

/-- The scopes that a visit in the scope `c` adds. -/
structure Grows (c : ScopeId) (old new : List Scope) : Prop where
  length : old.length ≤ new.length
  frames : ∀ i, i < old.length → new[i]?.map Scope.frame = old[i]?.map Scope.frame
  others : ∀ i, i < old.length → i ≠ c → new[i]? = old[i]?
  parents : ∀ i s, old.length ≤ i → new[i]? = some s →
    ∃ p, s.parent = some p ∧ (p = c ∨ old.length ≤ p ∧ p < i)

theorem parent_of_frame {s' : Scope} (h : s.frame = s'.frame) : s.parent = s'.parent := by
  have same := congrArg (fun s : Scope => s.parent) h
  exact same

namespace Grows

theorem refl (c : ScopeId) (scopes : List Scope) : Grows c scopes scopes where
  length := Nat.le_refl _
  frames _ _ := rfl
  others _ _ _ := rfl
  parents i s hi h := by
    rw [getElem?_eq_none hi] at h
    cases h

theorem trans {c : ScopeId} {a b d : List Scope} (h : Grows c a b) (k : Grows c b d) : Grows c a d where
  length := Nat.le_trans h.length k.length
  frames i hi := (k.frames i (Nat.lt_of_lt_of_le hi h.length)).trans (h.frames i hi)
  others i hi hc := (k.others i (Nat.lt_of_lt_of_le hi h.length) hc).trans (h.others i hi hc)
  parents i s hi hs := by
    by_cases old : i < b.length
    · have same := k.frames i old
      rw [hs, getElem?_eq_getElem old] at same
      obtain ⟨p, hp, place⟩ := h.parents i b[i] hi (getElem?_eq_getElem old)
      exact ⟨p, (parent_of_frame (Option.some.inj same)).trans hp, place⟩
    · obtain ⟨p, hp, rfl | ⟨low, high⟩⟩ := k.parents i s (Nat.le_of_not_lt old) hs
      · exact ⟨p, hp, .inl rfl⟩
      · exact ⟨p, hp, .inr ⟨Nat.le_trans h.length low, high⟩⟩

theorem modify (c : ScopeId) (scopes : List Scope) {f : Scope → Scope}
    (hf : ∀ s, (f s).frame = s.frame) : Grows c scopes (scopes.modify c f) where
  length := by simp
  frames i _ := by
    rw [getElem?_modify]
    split
    · cases scopes[i]? with
      | none => rfl
      | some s => exact congrArg some (hf s)
    · simp
  others i _ hc := by
    rw [getElem?_modify]
    simp [Ne.symm hc]
  parents i s hi h := by
    rw [getElem?_eq_none (by simpa using hi)] at h
    cases h

end Grows

structure Keeps (t t' : Tracker) : Prop where
  place : t'.place = t.place
  scopes : Grows t.current t.scopes t'.scopes

namespace Keeps

theorem current {t t' : Tracker} (h : Keeps t t') : t'.current = t.current :=
  congrArg Place.current h.place

theorem trans {t u v : Tracker} (h : Keeps t u) (k : Keeps u v) : Keeps t v :=
  ⟨k.place.trans h.place, h.scopes.trans (h.current ▸ k.scopes)⟩

theorem of_records {p : Part} {calls : List Expr} {t t' : Tracker} (h : Records p calls t t') : Keeps t t' := by
  induction h with
  | call | assign | concat | access => exact ⟨rfl, .refl _ _⟩
  | names t f hf => exact ⟨rfl, .modify _ _ hf⟩
  | @aside t t' same =>
    have place := congrArg Tracker.place same
    have scopes := congrArg (fun t : Tracker => t.scopes) same
    exact ⟨place, (show t'.scopes = t.scopes from scopes) ▸ .refl _ _⟩
  | andThen _ _ ih ih' => exact ih.trans ih'

theorem declareAll (t : Tracker) (names : List String) : Keeps t (t.declareAll names) :=
  of_records (.declareAll (p := .block []) t names)

theorem opened {t u v : Tracker} {s : Scope} (opened : u.scopes = t.scopes ++ [s])
    (here : u.current = t.scopes.length) (h : Keeps u v) :
    ∃ s', v.scopes[v.current]? = some s' ∧ s'.frame = s.frame := by
  have frame := h.scopes.frames u.current (by simp [opened, here])
  rw [opened, here, getElem?_concat_length, ← here, ← h.current] at frame
  exact Option.map_eq_some_iff.mp frame

end Keeps

theorem Keeps.entered {line : Nat} {kind : ScopeKind} {hot : Bool} {names : List String}
    (h : Keeps ((t.enter name line kind hot).declareAll names) v) :
    ∃ s, v.scopes[v.current]? = some s ∧ s.parent = some t.current ∧ s.kind = kind := by
  have inner := (declareAll (t.enter name line kind hot) names).trans h
  obtain ⟨s, found, frame⟩ := inner.opened (t := t) rfl rfl
  have kind := congrArg (fun s : Scope => s.kind) frame
  exact ⟨s, found, parent_of_frame frame, kind⟩

theorem exit_eq {c : ScopeId} (found : v.scopes[v.current]? = some s) (inside : s.parent = some c)
    (line : Nat) :
    v.exit line = { v.updateScope fun s => { s with endLine := line } with current := c } := by
  unfold Tracker.exit
  rw [found, Option.bind_some, inside]

theorem Keeps.exit {u : Tracker} (inside : s.parent = some t.current)
    (scopes : u.scopes = t.scopes ++ [s]) (here : u.current = t.scopes.length) (h : Keeps u v)
    (line : Nat) :
    (v.exit line).place = { v.place with current := t.current } ∧
      Grows t.current t.scopes (v.exit line).scopes := by
  obtain ⟨s', found, frame⟩ := h.opened scopes here
  have parent : s'.parent = some t.current := (parent_of_frame frame).trans inside
  rw [exit_eq found parent]
  refine ⟨rfl, ?_⟩
  have current : v.current = t.scopes.length := h.current.trans here
  have grown : Grows t.scopes.length (t.scopes ++ [s]) v.scopes := by
    have grown := h.scopes
    rwa [scopes, here] at grown
  rw [current] at found
  have before (i : Nat) (hi : i < t.scopes.length) :
      (v.scopes.modify t.scopes.length fun s => { s with endLine := line })[i]? = t.scopes[i]? := by
    rw [getElem?_modify, grown.others i (by simp; omega) (by omega), getElem?_append_left hi]
    simp [show t.scopes.length ≠ i by omega]
  rw [Tracker.updateScope, current]
  constructor
  · have length := grown.length
    simp only [length_append, length_singleton, length_modify] at length ⊢
    omega
  · intro i hi
    exact congrArg (Option.map Scope.frame) (before i hi)
  · intro i hi _
    exact before i hi
  · intro i s'' hi hs
    rw [getElem?_modify] at hs
    by_cases new : i = t.scopes.length
    · subst new
      rw [found] at hs
      simp at hs
      exact ⟨t.current, hs ▸ parent, .inl rfl⟩
    · have same : v.scopes[i]? = some s'' := by simpa [Ne.symm new] using hs
      obtain ⟨p, hp, place⟩ := grown.parents i s'' (by simp; omega) same
      rw [length_append, length_singleton] at place
      rcases place with rfl | ⟨low, high⟩
      · exact ⟨_, hp, .inr ⟨Nat.le_refl _, Nat.lt_of_le_of_ne hi (Ne.symm new)⟩⟩
      · exact ⟨p, hp, .inr ⟨Nat.le_of_succ_le low, high⟩⟩

/-! ## Visits -/

theorem Keeps.loop {vars : List String} (h : Keeps (t.enterLoop name vars) v) : Keeps t v.exitLoop := by
  let opened := Tracker.enter { t with loopDepth := t.loopDepth + 1 } name 0 .loop false
  have inner : Keeps opened v := (declareAll opened vars).trans h
  obtain ⟨place, scopes⟩ := Keeps.exit (t := t) rfl rfl rfl inner 0
  refine ⟨?_, scopes⟩
  rw [inner.place] at place
  have left : v.exitLoop.place =
      { (v.exit 0).place with loopDepth := (v.exit 0).place.loopDepth - 1 } := rfl
  rw [left, place]
  rfl

theorem Keeps.function {first : Nat} {params : List String}
    (h : Keeps (t.enterFunction name first params) v) (last : Nat) : Keeps t (v.exitFunction last) := by
  let opened := Tracker.enter { t with functionDepth := t.functionDepth + 1 } name first .function
    (Vocabulary.hotCallbacks.contains name)
  have inner : Keeps opened v := (declareAll opened params).trans h
  obtain ⟨place, scopes⟩ := Keeps.exit (t := t) rfl rfl rfl inner last
  refine ⟨?_, scopes⟩
  rw [inner.place] at place
  have left : (v.exitFunction last).place =
      { (v.exit last).place with functionDepth := (v.exit last).place.functionDepth - 1 } := rfl
  rw [left, place]
  rfl

theorem Keeps.branch (h : Keeps t v) (b : Int) : Keeps { t with branch := b } { v with branch := b } :=
  ⟨congrArg (fun p : Place => { p with branch := b }) h.place, h.scopes⟩

theorem Keeps.conditional {b : Int} (h : Keeps { t.openConditional with branch := b } v) :
    Keeps t { v with conditional := t.conditional, branch := t.branch } := by
  have place := congrArg (fun p : Place => { p with conditional := t.conditional, branch := t.branch })
    h.place
  exact ⟨place, h.scopes⟩

theorem follows_keeps : Follows fun _ => Keeps where
  records := .of_records
  andThen := .trans
  loop := .loop
  function := .function
  branch := .branch
  conditional := .conditional

theorem Part.keeps (p : Part) {t' : Tracker} (h : p.visit t = .ok t') : Keeps t t' :=
  follows_keeps.visit p t t' h

end LuaTune.Analysis
