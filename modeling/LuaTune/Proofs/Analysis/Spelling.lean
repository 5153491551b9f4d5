import LuaTune.Proofs.Analysis.Records
import LuaTune.Proofs.Lua.Spelling

/-!
# The characters of what is recorded

A record takes its names and texts from the node that is visited, so they all draw on the script.
-/

namespace LuaTune.Analysis

open Lua Text LuaTune.Analysis.Action List

def Tracker.words (t : Tracker) : List String :=
  t.calls.flatMap (fun c => c.fullName :: textsOf c.args) ++ t.concats.filterMap (·.target)
    ++ t.nilAccesses.map (·.var)

theorem mem_words {t : Tracker} {s : String} :
    s ∈ t.words ↔ (∃ c ∈ t.calls, s = c.fullName ∨ s ∈ textsOf c.args) ∨
      (∃ k ∈ t.concats, k.target = some s) ∨ ∃ a ∈ t.nilAccesses, a.var = s := by
  simp [Tracker.words]

/-! ## Parts of what is drawn -/

theorem mem_walk_of_branches {m : Node} : ∀ {o : Orelse} {n : Int} {q : Part},
    q ∈ (branchesOf o n).flatMap (·.2) → m ∈ q.walk → m ∈ o.walk
  | .none, n, q, h, _ => by cases h
  | .elseif test body orelse, n, q, h, hm => by
    simp only [branchesOf, flatMap_cons, cons_append, nil_append, mem_cons] at h
    rcases h with rfl | rfl | h
    · simp_all [Orelse.walk, Part.walk]
    · simp_all [Orelse.walk, Part.walk]
    · have := mem_walk_of_branches h hm
      simp_all [Orelse.walk]
  | .block body, n, q, h, hm => by
    simp only [branchesOf, flatMap_cons, flatMap_nil, append_nil,
      mem_singleton] at h
    subst h
    simp_all [Orelse.walk, Part.walk]

theorem Part.mem_walk {p q : Part} (h : q ∈ p.parts) {m : Node} (hm : m ∈ q.walk) : m ∈ p.walk := by
  cases p with
  | expr e =>
    cases e <;> simp [parts, actions, exprActions, Action.parts, note] at h
    all_goals
      simp only [Part.walk, Expr.walk]
      grind [Part.walk, mem_walkExprs, mem_walkFields]
  | field f =>
    obtain ⟨key, value⟩ := f
    simp [parts, actions] at h
    grind [Part.walk, Field.walk]
  | stat s =>
    have branches (o : Orelse) (n m' : Int) (ps : List Part) (q : Part) :
        (m', ps) ∈ branchesOf o n → q ∈ ps → m ∈ q.walk → m ∈ o.walk :=
      fun hb hq => mem_walk_of_branches (mem_flatMap.mpr ⟨_, hb, hq⟩)
    cases s <;> simp [parts, actions, statActions, Action.parts, note] at h
    all_goals
      simp only [Part.walk, Stat.walk]
      grind [Part.walk, mem_walkExprs]
  | block body =>
    simp [parts, actions, flatMap_map, Action.parts] at h
    grind [Part.walk, mem_walkStats]

/-! ## Records that draw on the script -/

variable {source : Chars}

def Tracker.DrawsOn (source : Chars) (t : Tracker) : Prop :=
  ∀ s ∈ t.words, Text.DrawsOn source s.toList

def KeepsDrawn (source : Chars) (t t' : Tracker) : Prop := t.DrawsOn source → t'.DrawsOn source

theorem drawsOn_calleeName {callee : Expr} (h : Drawn source callee.walk) {module : Option String}
    {func full : String} (named : Tracker.calleeName? callee = some (module, func, full)) :
    Text.DrawsOn source full.toList := by
  unfold Tracker.calleeName? at named
  split at named
  · cases named
    exact drawsOn_name (allFrom_cons.mp h).1
  · next m f =>
    cases named
    simp only [Expr.walk, cons_append, nil_append, allFrom_cons] at h
    have hm : Text.DrawsOn source m.name.toList := drawsOn_name h.2.1
    have hf : Text.DrawsOn source f.name.toList := drawsOn_name h.2.2.1
    show Text.DrawsOn source (m.name ++ "." ++ f.name).toList
    simp [hm, hf, isAscii]
  · cases named

theorem drawsOn_call {c : Call} (said : c.IsTrue) (h : Drawn source c.node.walk) :
    Text.DrawsOn source c.fullName.toList ∧ ∀ s ∈ textsOf c.args, Text.DrawsOn source s.toList := by
  have names := said.names
  unfold Call.Names at names
  split at names
  · next callee args last node =>
    simp only [node, Expr.walk, cons_append, allFrom_cons, allFrom_append] at h
    exact ⟨drawsOn_calleeName h.2.1 names.1, names.2 ▸ drawsOn_textsOf h.2.2⟩
  · next receiver method args node =>
    simp only [node, Expr.walk, cons_append, allFrom_cons, allFrom_append] at h
    refine ⟨?_, names.2.2 ▸ drawsOn_textsOf h.2.2.2⟩
    rw [names.1]
    simp [Expr.drawsOn_text h.2.1, drawsOn_name h.2.2.1, isAscii]
  · cases names

theorem Part.drawsOn_named {p : Part} (h : Drawn source p.walk) :
    ∀ s ∈ p.named, Text.DrawsOn source s.toList := by
  unfold Part.named
  split
  · simp only [Part.walk, Expr.walk, cons_append, allFrom_cons, allFrom_append] at h
    exact forall_mem_singleton.mpr (Expr.drawsOn_text h.2.1)
  · simp only [Part.walk, Stat.walk, cons_append, allFrom_cons, allFrom_append] at h
    exact drawsOn_textsOf h.2.1
  · simp only [Part.walk, Stat.walk, cons_append, allFrom_cons, allFrom_append] at h
    exact forall_mem_map.mpr fun id hid => drawsOn_name (h.2.1 _ (mem_map_of_mem hid))
  · exact forall_mem_nil _

theorem KeepsDrawn.of_records {p : Part} (drawn : Drawn source p.walk) {calls : List Expr} {t t' : Tracker}
    (h : Records p calls t t') : KeepsDrawn source t t' := by
  have adds {t t' : Tracker} (ws : List String) (more : ∀ s ∈ t'.words, s ∈ t.words ∨ s ∈ ws)
      (hw : ∀ s ∈ ws, Text.DrawsOn source s.toList) : KeepsDrawn source t t' :=
    fun old s hs => (more s hs).elim (old s) (hw s)
  induction h with
  | call t c here depth said own =>
    subst own
    obtain ⟨name, args⟩ := drawsOn_call said drawn
    refine adds (c.fullName :: textsOf c.args) (fun s hs => ?_) (forall_mem_cons.mpr ⟨name, args⟩)
    grind [mem_words]
  | concat t k here depth inLoop loop named =>
    refine adds k.target.toList (fun s hs => ?_) fun s hs =>
      Part.drawsOn_named drawn s (named s (Option.mem_toList.mp hs))
    grind [mem_words]
  | access t u named =>
    refine adds [u.var] (fun s hs => ?_) (forall_mem_singleton.mpr (Part.drawsOn_named drawn _ named))
    grind [mem_words]
  | assign | names => exact id
  | aside same =>
    have words := congrArg Tracker.words same
    exact fun old s hs => old s ((show _ = _ from words) ▸ hs)
  | andThen _ _ ih ih' => exact ih' ∘ ih

theorem drawsOn_of_visit {c : Chunk} {lines : List Chars} {t : Tracker}
    (parsed : Chunk.parse? source = some c) (visited : visitChunk c lines = .ok t) :
    t.DrawsOn source := by
  have drawn : Drawn source (Part.walk (.block c)) := by
    have := Chunk.drawn parsed
    simp only [Chunk.walk, allFrom_cons] at this
    exact this.2.2
  have frames : Frames fun _ => KeepsDrawn source :=
    frames_of_log (R := fun _ => KeepsDrawn source) (fun _ => id) fun h k => k ∘ h
  have keeps : KeepsDrawn source (.start lines) t :=
    frames.visit (fun p => Drawn source p.walk) (fun p hp q hq m hm => hp m (Part.mem_walk hq hm))
      (fun p hp a ha => (records_actions p a ha).mono (.of_records hp)) (.block c) drawn _ t visited
  exact keeps nofun

end LuaTune.Analysis
