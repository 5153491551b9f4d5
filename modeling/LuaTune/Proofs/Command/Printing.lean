import LuaTune.Proofs.Command.Lint

/-!
# What was printed decides nothing

Two actions are alike if they do the same but for what they print, whatever was printed before.
-/

namespace LuaTune.Console

variable {α β : Type} {a b : Action α} {f g : α → Action β}

def reprinted (out : String) : EStateM.Result Stop World α → EStateM.Result Stop World α
  | .ok x w => .ok x { w with output := out }
  | .error e w => .error e { w with output := out }

/-- The actions do the same but for what they print, and do not look at what was printed. -/
def Alike (a b : Action α) : Prop := ∀ w out, ∃ out', b { w with output := out } = reprinted out' (a w)

abbrev Blind (a : Action α) : Prop := Alike a a

theorem Alike.bind (h : Alike a b) (rest : ∀ x, Alike (f x) (g x)) : Alike (a >>= f) (b >>= g) := by
  intro w out
  obtain ⟨out₁, second⟩ := h w out
  cases first : a w with
  | ok x w₁ =>
    rw [first] at second
    obtain ⟨out₂, last⟩ := rest x w₁ out₁
    exact ⟨out₂, by rw [bind_ok first, bind_ok second, last]⟩
  | error e w₁ =>
    rw [first] at second
    exact ⟨out₁, by rw [bind_error first, bind_error second]; rfl⟩

theorem alike_pure (x : α) : Blind (pure x) := fun _ out => ⟨out, rfl⟩

theorem alike_fail (e : Failure) : Blind (fail e : Action α) := fun _ out => ⟨out, rfl⟩

theorem Alike.ite {c : Prop} [Decidable c] {a' b' : Action α} (h : Alike a b) (h' : Alike a' b') :
    Alike (if c then a else a') (if c then b else b') := by
  split
  · exact h
  · exact h'

theorem alike_get {f g : World → Action α} (h : ∀ w, Alike (f w) (g w))
    (blind : ∀ w out, g { w with output := out } = g w) : Alike (get >>= f) (get >>= g) := by
  intro w out
  obtain ⟨out', same⟩ := h w w out
  exact ⟨out', by rw [get_bind, get_bind, blind, same]⟩

theorem alike_tryFiles (f : Files.Tree → Except Files.FileError Files.Tree) :
    Blind (tryFiles f) := by
  refine alike_get (fun w => ?_) fun _ _ => rfl
  cases f w.tree with
  | ok t => exact fun _ out => ⟨out, rfl⟩
  | error e => exact alike_pure _

theorem alike_changeFiles (f : Files.Tree → Except Files.FileError Files.Tree) :
    Blind (changeFiles f) := by
  refine (alike_tryFiles f).bind fun r => ?_
  cases r with
  | none => exact alike_pure ()
  | some e => exact alike_fail _

theorem alike_forM {f : α → Action PUnit} (xs : List α) (h : ∀ x, Blind (f x)) :
    Blind (xs.forM f) := by
  induction xs with
  | nil => exact alike_pure _
  | cons x xs ih => exact (h x).bind fun _ => ih

/-! ## Printing -/

def Prints (a : Action Unit) : Prop := ∀ w, ∃ out, a w = .ok () { w with output := out }

theorem Prints.alike {a b : Action Unit} (ha : Prints a) (hb : Prints b) : Alike a b := by
  intro w out
  obtain ⟨out₁, first⟩ := ha w
  obtain ⟨out₂, second⟩ := hb { w with output := out }
  exact ⟨out₂, by rw [first, second]; rfl⟩

theorem prints_nothing : Prints (pure ()) := fun w => ⟨w.output, rfl⟩

theorem prints_put (s : String) : Prints (put s) := fun _ => ⟨_, rfl⟩

theorem prints_say (s : String) : Prints (say s) := prints_put _

theorem Prints.blind {a : Action Unit} (h : Prints a) : Blind a := h.alike h

theorem alike_say (s s' : String) : Alike (say s) (say s') := (prints_say s).alike (prints_say s')

theorem alike_put (s : String) : Blind (put s) := (prints_put s).blind

theorem Prints.bind {a b : Action Unit} (ha : Prints a) (hb : Prints b) :
    Prints (a >>= fun _ => b) := by
  intro w
  obtain ⟨out₁, first⟩ := ha w
  obtain ⟨out₂, second⟩ := hb { w with output := out₁ }
  exact ⟨out₂, by rw [bind_ok first, second]⟩

theorem Prints.ite {c : Prop} [Decidable c] {a b : Action Unit} (ha : Prints a) (hb : Prints b) :
    Prints (if c then a else b) := by
  split
  · exact ha
  · exact hb

theorem Prints.completes {a : Action Unit} (h : Prints a) {I : WorldInvariant} : Completes I a := by
  refine triple_of_run fun w hw => ?_
  obtain ⟨out, printed⟩ := h w
  exact .inl ⟨(), _, printed, I.printed w out hw⟩

theorem Prints.perhaps {a : Action Unit} (ha : Prints a) {c : Prop} [Decidable c] {b : Action α}
    {w : World} {r : String → EStateM.Result Stop World α}
    (h : ∀ out, ∃ out', b { w with output := out } = r out') :
    ∃ out, (if c then a >>= fun _ => b else b) w = r out := by
  split
  · obtain ⟨out, printed⟩ := ha w
    rw [bind_ok printed]
    exact h out
  · exact h w.output

theorem prints_forM {f : α → Action PUnit} (xs : List α) (h : ∀ x, Prints (f x)) :
    Prints (xs.forM f) := by
  induction xs with
  | nil => exact prints_nothing
  | cons x xs ih => exact (h x).bind ih

theorem prints_sayAll (ss : List String) : Prints (sayAll ss) := prints_forM ss prints_say

end LuaTune.Console

/-! ## Reports -/

namespace LuaTune.Report

open Console Files

theorem prints_progress (verbose : Bool) (s : String) : Prints (progress verbose s) :=
  (prints_put s).ite prints_nothing

theorem alike_progress (verbose : Bool) (s : String) :
    Blind (progress verbose s) :=
  (prints_progress verbose s).blind

theorem alike_countScripts (verbose : Bool) (what : String) (n : Nat) :
    Blind (countScripts verbose what n) :=
  alike_forM _ fun _ => alike_progress _ _

theorem alike_savePage (r : Report) (p : Path) (verbose : Bool) :
    Blind (r.savePage p verbose) := by
  refine (alike_progress _ _).bind fun _ => (alike_progress _ _).bind fun _ =>
    alike_get (fun w => ?_) fun _ _ => rfl
  refine (alike_progress _ _).bind fun _ => (alike_tryFiles _).bind fun e => ?_
  cases e with
  | none => exact alike_progress _ _
  | some e => exact alike_say _ _

theorem alike_save (r : Report) (p : Path) (verbose : Bool) :
    Blind (r.save p verbose) := by
  unfold save
  split
  case h_2 => exact alike_savePage r p verbose
  all_goals
    refine (alike_progress _ _).bind fun _ => (alike_countScripts _ _ _).bind fun _ =>
      (alike_progress _ _).bind fun _ => alike_get (fun w => ?_) fun _ _ => rfl
    exact (alike_changeFiles _).bind fun _ => alike_progress _ _

theorem alike_printFinding (f : Finding) : Blind (printFinding f) := by
  refine (alike_say _ _).bind fun _ => ?_
  split
  · exact alike_fail _
  · exact (alike_pure ()).ite (alike_say _ _)

theorem alike_printDetailed (r : Report) : Blind r.printDetailed := by
  refine (prints_sayAll _).blind.bind fun _ => alike_forM _ fun s => ?_
  refine (prints_sayAll _).blind.bind fun _ => alike_forM _ fun e => ?_
  exact (alike_say _ _).bind fun _ => alike_forM _ alike_printFinding

end LuaTune.Report

/-! ## Fixing -/

namespace LuaTune.Command

open Console Files

variable {o : Options}

theorem prints_note (quiet : Bool) (s : String) : Prints (note quiet s) :=
  prints_nothing.ite (prints_say s)

theorem alike_note (quiet : Bool) (s : String) : Blind (note quiet s) :=
  (prints_note quiet s).blind

theorem alike_fixItem (o : Options) (p : Path) : Blind (fixItem o p) := by
  refine alike_get (fun w => ?_) fun _ _ => rfl
  cases fixFile o.fixOptions w.tree p with
  | ok x => exact fun _ out => ⟨out, rfl⟩
  | error e => exact alike_pure _

theorem alike_noteFixed (o : Options) (r : Repairs) (p : Path) (y : Except FixFault Fix.Fixed) :
    Blind (noteFixed o r p y) := by
  cases y with
  | error e =>
    exact Alike.ite ((alike_say _ _).bind fun _ => alike_pure _) (alike_pure _)
  | ok fixed =>
    refine Alike.ite ?_ (alike_pure _)
    exact Alike.ite ((alike_say _ _).bind fun _ => alike_pure _) (alike_pure _)

theorem alike_showFixing (o : Options) (r : Repairs) (total : Nat) :
    Blind (showFixing o r total) :=
  (alike_pure ()).ite (alike_put _)

theorem alike_fixSingly (o : Options) (total : Nat) (r : Repairs) (paths : List Path) :
    Blind (fixSingly o total r paths) := by
  induction paths generalizing r with
  | nil => exact alike_pure r
  | cons p ps ih =>
    exact (alike_showFixing o _ total).bind fun _ => (alike_fixItem o p).bind fun y =>
      (alike_noteFixed o _ p y).bind fun r => ih r

theorem alike_collectFixes (o : Options) (total : Nat) (r : Repairs)
    (outcomes : List (Path × Outcome (Except FixFault Fix.Fixed))) :
    Blind (collectFixes o total r outcomes) := by
  induction outcomes generalizing r with
  | nil => exact alike_pure _
  | cons x rest ih =>
    obtain ⟨p, outcome⟩ := x
    refine (alike_showFixing o _ total).bind fun _ => ?_
    cases outcome with
    | crashed => exact alike_pure _
    | failed => exact Alike.ite ((alike_say _ _).bind fun _ => ih _) (ih _)
    | done y => exact (alike_noteFixed o _ p y).bind fun r => ih r

theorem alike_runFrom {α β : Type} (pool n : Nat) {run : α → Action β} (tasks : List α)
    (h : ∀ x, Blind (run x)) : Blind (runFrom pool run n tasks) := by
  induction tasks generalizing n with
  | nil => exact alike_pure _
  | cons x xs ih =>
    refine alike_get (fun w => ?_) fun _ _ => rfl
    cases breakdownAt w pool n with
    | none => exact (h x).bind fun _ => (ih (n + 1)).bind fun _ => alike_pure _
    | some b =>
      cases b with
      | refusal => exact alike_pure _
      | crash | failure => exact (ih (n + 1)).bind fun _ => alike_pure _

theorem alike_fixByPool (o : Options) (paths : List Path) :
    Blind (fixByPool o paths) := by
  unfold fixByPool
  refine (alike_runFrom 1 0 paths (alike_fixItem o)).bind fun outcomes => ?_
  -- the line of progress is cleared at the end, and before that scripts are fixed that workers lost
  extract_lets clear mend
  have cleared : ∀ r, Blind (clear r) := fun r =>
    Alike.ite ((alike_put _).bind fun _ => alike_pure r) (alike_pure r)
  have mended : ∀ x, Blind (mend x) := by
    rintro ⟨r, crashed⟩
    have singly := (alike_fixSingly o paths.length r
      (paths.filter fun p => !r.processed.contains p)).bind cleared
    exact Alike.ite (Alike.ite ((alike_say _ _).bind fun _ => singly) singly)
      ((alike_pure r).bind cleared)
  cases outcomes with
  | none => exact (alike_pure _).bind mended
  | some ys => exact (alike_collectFixes o _ _ _).bind mended

theorem prints_showSkipped (o : Options) (before : List ScriptItem) :
    Prints (showSkipped o before) := by
  have tip := fun s s' => (prints_say s).bind (prints_say s')
  unfold showSkipped
  refine Prints.ite ?_ ?_
  · exact (prints_forM _ fun _ => prints_say _).bind ((tip _ _).ite prints_nothing)
  · exact (tip _ _).ite prints_nothing

theorem alike_unfixed (o : Options) (scripts : List ScriptItem) :
    Blind (unfixed o scripts) := by
  refine alike_get (fun w => ?_) fun _ _ => rfl
  exact (prints_showSkipped o _).blind.bind fun _ => alike_pure _

theorem alike_fixPaths (o : Options) (paths : List Path) :
    Blind (fixPaths o paths) := by
  refine Alike.ite ((alike_note _ _).bind fun _ => alike_pure _) (Alike.ite ?_ (alike_fixByPool o paths))
  exact (alike_note _ _).bind fun _ => (alike_fixSingly o _ _ _).bind fun r =>
    (alike_note _ _).bind fun _ => alike_pure r

theorem alike_saveReport (o : Options) (r : Report) : Blind (saveReport o r) := by
  refine Alike.ite ?_ (alike_pure ())
  exact (alike_say _ _).bind fun _ => (r.alike_save _ _).bind fun _ => alike_say _ _

end LuaTune.Command
