import LuaTune.Proofs.Command.Lint
import LuaTune.Proofs.Files.Ledger
import LuaTune.Proofs.Resources.Names

/-!
# Fixes in any order

A run works through a list of scripts alone or by a pool of workers that may come to them in any
order. Each way of working keeps a ledger, which depends on the places of the scripts only.
-/

namespace LuaTune.Command

open Console Files Resources List
open Std.Do

variable {w w' : World}

set_option mvcgen.warning false

variable {o : Options} {t : Tree}

/-! ## One script -/

def ledger (w : World) (r : Repairs) : Ledger := ⟨w.tree.entry?, r.modified, r.edits⟩

def Repairs.credit (r : Repairs) : Except FixFault Fix.Fixed → Repairs
  | .ok fixed =>
    if fixed.modified then { r with modified := r.modified + 1, edits := r.edits + fixed.count } else r
  | .error _ => r

theorem ledger_credit (w : World) (r : Repairs) (y : Except FixFault Fix.Fixed) :
    (ledger w r).credit y = ledger w (r.credit y) := by
  cases y with
  | error e => rfl
  | ok fixed => cases hm : fixed.modified <;> simp [ledger, Ledger.credit, Repairs.credit, hm]

theorem ledger_of_settled (h : (settled w).holds w') (r : Repairs) : ledger w' r = ledger w r := by
  rw [ledger, h.1]
  rfl

theorem fixItem_ends (o : Options) (p : Path) (w : World) :
    ∃ y w', fixItem o p w = .ok y w' ∧ SameDirectories w.tree w'.tree ∧
      w'.breakdown = w.breakdown ∧ w'.noPools = w.noPools ∧
      ∀ r, (ledger w' r).credit y = (ledger w r).fixPath o.fixOptions w.tree p := by
  have ends := fixFile_ends o.fixOptions w.tree p
  have same := ends.sameDirectories
  have counts := ends.ledger rfl
  cases h : fixFile o.fixOptions w.tree p with
  | error e =>
    rw [h] at same counts
    refine ⟨.error e, w, ?_, same, rfl, rfl, fun r => counts r.modified r.edits⟩
    unfold fixItem
    rw [get_bind, h]
    rfl
  | ok x =>
    obtain ⟨t', fixed⟩ := x
    rw [h] at same counts
    refine ⟨.ok fixed, { w with tree := t' }, ?_, same, rfl, rfl, fun r => counts r.modified r.edits⟩
    unfold fixItem
    rw [get_bind, h]
    rfl

theorem noteFixed_ends (o : Options) (r : Repairs) (p : Path) (y : Except FixFault Fix.Fixed)
    (w : World) :
    ∃ r' w', noteFixed o r p y w = .ok r' w' ∧ (settled w).holds w' ∧
      ∀ v, ledger v r' = (ledger v r).credit y := by
  apply exists_ok_of_triple (P := (settled w).holds) _ (settled_self _)
  unfold noteFixed
  mvcgen [say_completes, -say_spec]
  all_goals
    refine ⟨‹_›, fun v => ?_⟩
    simp_all [ledger, Ledger.credit]

theorem showFixing_ends (o : Options) (r : Repairs) (total : Nat) (w : World) :
    ∃ u w', showFixing o r total w = .ok u w' ∧ (settled w).holds w' := by
  apply exists_ok_of_triple (P := (settled w).holds) _ (settled_self _)
  unfold showFixing
  mvcgen [put_completes, -put_spec]

/-! ## One after the other -/

theorem fixSingly_ends (o : Options) (total : Nat) (r : Repairs) (paths : List Path) (w : World) :
    ∃ r' w', fixSingly o total r paths w = .ok r' w' ∧
      ledger w' r' = paths.foldl (Ledger.fixPath o.fixOptions w.tree) (ledger w r) := by
  induction paths generalizing r w with
  | nil => exact ⟨r, w, rfl, rfl⟩
  | cons p ps ih =>
    obtain ⟨u, w₁, shown, same₁⟩ := showFixing_ends o r.next total w
    obtain ⟨y, w₂, fixed, same₂, -, -, counts⟩ := fixItem_ends o p w₁
    obtain ⟨r₃, w₃, noted, same₃, credit⟩ := noteFixed_ends o r.next p y w₂
    obtain ⟨r', w', rest, total'⟩ := ih r₃ w₃
    refine ⟨r', w', ?_, ?_⟩
    · unfold fixSingly
      rw [bind_ok shown, bind_ok fixed, bind_ok noted]
      exact rest
    · -- the paths that are left still lead to the places they led to at first
      have dirs : SameDirectories w.tree w₃.tree := by
        rw [← same₁.1, same₃.1]
        exact same₂
      rw [total', dirs.fixPath, foldl_cons]
      congr 1
      rw [ledger_of_settled same₃, credit, counts, same₁.1, ledger_of_settled same₁]
      rfl

/-! ## By a pool of workers -/

def Calm (w : World) : Prop := ∀ n, breakdownAt w 1 n = none

theorem Calm.congr (calm : Calm w) (breakdown : w'.breakdown = w.breakdown)
    (noPools : w'.noPools = w.noPools) : Calm w' := by
  intro n
  have := calm n
  unfold breakdownAt at this ⊢
  rwa [breakdown, noPools]

theorem runFrom_ends (o : Options) (n : Nat) (paths : List Path) (calm : Calm w) :
    ∃ (ys : List (Except FixFault Fix.Fixed)) (w' : World),
      runFrom 1 (fixItem o) n paths w = .ok (some (ys.map .done)) w' ∧ ys.length = paths.length ∧
      ∀ r, ys.foldl Ledger.credit (ledger w' r) =
        paths.foldl (Ledger.fixPath o.fixOptions w.tree) (ledger w r) := by
  induction paths generalizing n w with
  | nil => exact ⟨[], w, rfl, rfl, fun _ => rfl⟩
  | cons p ps ih =>
    obtain ⟨y, w₁, fixed, dirs, breakdown, noPools, counts⟩ := fixItem_ends o p w
    obtain ⟨ys, w', rest, lengths, totals⟩ := ih (n + 1) (calm.congr breakdown noPools)
    refine ⟨y :: ys, w', ?_, congrArg (· + 1) lengths, fun r => ?_⟩
    · unfold runFrom
      rw [get_bind, calm n]
      dsimp only
      rw [bind_ok fixed, bind_ok rest]
      rfl
    · -- the workers write at once, and what they did is counted when all are done
      rw [foldl_cons, foldl_cons, ledger_credit, totals, dirs.fixPath, ← ledger_credit, counts]

theorem collectFixes_ends (o : Options) (total : Nat) (r : Repairs) (paths : List Path)
    (ys : List (Except FixFault Fix.Fixed)) (lengths : ys.length = paths.length) (w : World) :
    ∃ r' w', collectFixes o total r (paths.zip (ys.map .done)) w = .ok (r', false) w' ∧
      w'.tree = w.tree ∧ ledger w r' = ys.foldl Ledger.credit (ledger w r) := by
  induction paths generalizing r ys w with
  | nil =>
    obtain rfl := eq_nil_of_length_eq_zero lengths
    exact ⟨r, w, rfl, rfl, rfl⟩
  | cons p ps ih =>
    obtain ⟨y, ys, rfl⟩ := exists_cons_of_length_eq_add_one lengths
    obtain ⟨u, w₁, shown, same₁⟩ := showFixing_ends o r.next total w
    obtain ⟨r₂, w₂, noted, same₂, credit⟩ :=
      noteFixed_ends o { r.next with processed := p :: r.next.processed } p y w₁
    obtain ⟨r', w', rest, same', totals⟩ := ih r₂ ys (Nat.succ.inj lengths) w₂
    refine ⟨r', w', ?_, by rw [same', same₂.1, same₁.1], ?_⟩
    · rw [map_cons, zip_cons_cons, collectFixes, bind_ok shown, bind_ok noted]
      exact rest
    · have back : ∀ r, ledger w₂ r = ledger w r := by
        intro r
        rw [ledger_of_settled same₂, ledger_of_settled same₁]
      rw [← back r', totals, back, credit]
      rfl

theorem fixByPool_ends (o : Options) (paths : List Path) (calm : Calm w) :
    ∃ r w', fixByPool o paths w = .ok r w' ∧
      ledger w' r = paths.foldl (Ledger.fixPath o.fixOptions w.tree) (ledger w {}) := by
  obtain ⟨ys, w₁, done, lengths, counts⟩ := runFrom_ends o 0 paths calm
  obtain ⟨r, w₂, taken, same₂, totals⟩ := collectFixes_ends o paths.length {} paths ys lengths w₁
  have same : ∀ v, v.tree = w₂.tree →
      ledger v r = paths.foldl (Ledger.fixPath o.fixOptions w.tree) (ledger w {}) := by
    intro v hv
    rw [← counts, ← totals, ledger, ledger, hv, same₂]
  -- only the line of progress is left to clear
  have run : fixByPool o paths w =
      (do if !o.quiet then put ("\r" ++ rule ' ' 60 ++ "\r")
          return r : Action Repairs) w₂ := by
    unfold fixByPool runPool
    simp only
    rw [bind_ok done]
    dsimp only
    rw [bind_ok taken]
    rfl
  cases quiet : o.quiet with
  | true =>
    refine ⟨r, w₂, ?_, same w₂ rfl⟩
    rw [run, quiet]
    rfl
  | false =>
    refine ⟨r, { w₂ with output := w₂.output ++ ("\r" ++ rule ' ' 60 ++ "\r") }, ?_, same _ rfl⟩
    rw [run, quiet]
    rfl

/-! ## Any order -/

/-- The paths are what a run with these options takes up to fix: scripts that were found and have no
copy when their turn comes. -/
def BuiltByRun (o : Options) (items : List Path) : Prop :=
  ∃ root w v, Ends (findScripts o root) w fun table _ =>
    Ends (unfixed o (scriptItems table)) v fun paths _ => paths = items

/-- The same files are left, and as many scripts and edits were counted. -/
def SameFixes (r : Repairs) (w : World) (r' : Repairs) (w' : World) : Prop :=
  (∀ l, w'.tree.entry? l = w.tree.entry? l) ∧ r'.modified = r.modified ∧ r'.edits = r.edits

theorem sameFixes_of_ledger {r r' : Repairs} (h : ledger w' r' = ledger w r) : SameFixes r w r' w' :=
  ⟨fun l => congrFun (congrArg Ledger.files h) l, congrArg Ledger.modified h, congrArg Ledger.edits h⟩

theorem isScriptName_of_mem_places {paths : List Path} (named : ∀ p ∈ paths, isScriptName p.name)
    {l : Location} (hl : l ∈ places t paths) : isScriptName (placeName l) := by
  obtain ⟨p, hp, found⟩ := mem_filterMap.mp hl
  cases place : t.locate p with
  | error e => simp [place, Except.toOption] at found
  | ok l' =>
    obtain rfl : l' = l := by simpa [place, Except.toOption] using found
    rw [placeName_of_locate (isNamed_of_isScriptName (named p hp)) place]
    exact named p hp

theorem BuiltByRun.named {items : List Path} (built : BuiltByRun o items) :
    ∀ p ∈ items, isScriptName p.name := by
  obtain ⟨root, w, v, finds⟩ := built
  obtain ⟨table, w', found, builds⟩ := ends_iff.mp finds
  obtain ⟨paths, v', left, rfl⟩ := ends_iff.mp builds
  have named : NamesScripts table := ((findScripts_spec (I := settled w) o root
    fun t => namesScripts_scriptsAt o t root).of_ok (settled_self _) found).2
  exact ((unfixed_spec (I := settled v) o (scriptItems table) named.items).of_ok
    (settled_self _) left).2

theorem foldl_fixPath_perm {items order : List Path} (same : order.Perm items)
    (named : ∀ p ∈ items, isScriptName p.name) (s : Ledger) :
    order.foldl (Ledger.fixPath o.fixOptions t) s = items.foldl (Ledger.fixPath o.fixOptions t) s := by
  rw [foldl_fixPath, foldl_fixPath]
  apply Ledger.foldl_fix_perm (same.filterMap _)
  intro l hl
  exact isScriptName_of_mem_places named hl

/-- Whatever the order in which the scripts of a run are fixed, the same files are left and the same
scripts and edits are counted. -/
theorem fixes_orderless {items order : List Path} (built : BuiltByRun o items)
    (same : order.Perm items) (w : World) :
    Ends (fixSingly o items.length {} items) w fun r w' =>
      Ends (fixSingly o order.length {} order) w (SameFixes r w') := by
  have anyOrder := foldl_fixPath_perm (o := o) (t := w.tree) same built.named (ledger w {})
  obtain ⟨r, w', single, counted⟩ := fixSingly_ends o items.length {} items w
  obtain ⟨r₁, w₁, permuted, counted₁⟩ := fixSingly_ends o order.length {} order w
  refine ends_iff.mpr ⟨r, w', single, ends_iff.mpr ⟨r₁, w₁, permuted, sameFixes_of_ledger ?_⟩⟩
  rw [counted₁, anyOrder, counted]

def nestedResources : Tree where
  entries := [(["a"], .directory), (["a", "fxmanifest.lua"], .file (.bytes [])),
    (["a", "c.lua"], .file (.bytes (Text.bytesOfChars "table.insert(t, v)\n".toList))),
    (["a", "b"], .directory), (["a", "b", "fxmanifest.lua"], .file (.bytes [])),
    (["a", "b", "x.lua"],
      .file (.bytes (Text.bytesOfChars "y = string.len(string.len(s))\n".toList)))]

@[irreducible]
def nestedWorld : World where
  tree := nestedResources
  now := ⟨2020, 1, 2, 3, 4, 5⟩
  directory := "/work"
  processors := 4

def nestedItems : List Path :=
  [⟨false, ["a", "b", "fxmanifest.lua"]⟩, ⟨false, ["a", "b", "x.lua"]⟩, ⟨false, ["a", "c.lua"]⟩,
    ⟨false, ["a", "fxmanifest.lua"]⟩, ⟨false, ["a", "b", "fxmanifest.lua"]⟩,
    ⟨false, ["a", "b", "x.lua"]⟩]

/-- Work from the end counts and leaves what work from the start does: the script that is found twice
is fixed twice, the second time as the first left it. -/
theorem nestedItems_orderless : BuiltByRun {} nestedItems ∧
      Ends (fixSingly {} nestedItems.reverse.length {} nestedItems.reverse) nestedWorld fun r w =>
        r.modified = 3 ∧ r.edits = 4 ∧ w.tree.entry? ["a", "b", "x.lua"] =
          some (.file (.bytes (Text.bytesOfChars "y = ##s\n".toList))) := by
  have built : BuiltByRun {} nestedItems := ⟨⟨false, []⟩, nestedWorld, nestedWorld, by decide +kernel⟩
  have single : Ends (fixSingly {} nestedItems.length {} nestedItems) nestedWorld fun r w =>
      r.modified = 3 ∧ r.edits = 4 ∧ w.tree.entry? ["a", "b", "x.lua"] =
        some (.file (.bytes (Text.bytesOfChars "y = ##s\n".toList))) := by
    decide +kernel
  have both := fixes_orderless built (reverse_perm nestedItems) nestedWorld
  obtain ⟨r, w, run, modified, edits, script⟩ := ends_iff.mp single
  obtain ⟨r', w', run', ordered⟩ := ends_iff.mp both
  obtain ⟨rfl, rfl⟩ : r = r' ∧ w = w' := by
    have := run.symm.trans run'
    injection this with hr hw
    exact ⟨hr, hw⟩
  obtain ⟨q, v, again, files, sameModified, sameEdits⟩ := ends_iff.mp ordered
  refine ⟨built, ends_iff.mpr ⟨q, v, again, ?_, ?_, ?_⟩⟩
  · rw [sameModified, modified]
  · rw [sameEdits, edits]
  · rw [files, script]

end LuaTune.Command
