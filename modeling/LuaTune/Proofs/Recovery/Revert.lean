import LuaTune.Proofs.Runs.Copies

/-!
# Originals can be recovered

After any session of careful runs one more run brings the originals back. A copy beside a directory
is put back into that directory, where it may take the place of the copy of a script.
-/

namespace LuaTune.Recovery

open Command Console Files Resources Runs Text List

variable {original t : Tree} {s : Location} {c : Content} {w : World} {table : ScriptTable}

/-! ## Restoring -/

theorem Safe.keptAreFiles (safe : Safe original s c w.tree) (named : NamesScripts table) :
    KeptAreFiles w.tree table := by
  intro k hk l place dir
  obtain ⟨hp, kept⟩ := mem_scripts hk
  have script := isNamed_of_isScriptName (named.mem hp)
  obtain ⟨m, e, copy, there⟩ := contains_iff.mp kept
  obtain rfl := Except.ok.inj ((locate_backupOf script place).symm.trans copy)
  simp [safe.uncovered l (placeName_of_locate script place ▸ named.mem hp) dir] at there

theorem returned_of_reverts {args : List String} (script : IsScript original s c)
    (safe : Safe original s c w.tree) (reverts : Reverts args w s) :
    Returned s c (Tree.entry? (treeAfter args w)) := by
  obtain ⟨⟨o, root⟩, w₁, chosen, asked, yes, there, finds⟩ := ends_iff.mp reverts
  obtain ⟨table, w₂, found, e, he, p, hp, place⟩ := ends_iff.mp finds
  obtain ⟨⟨same, unread, calm⟩, named⟩ := of_findScripts found
  have tree : w₂.tree = w.tree := same.1.trans (settled_of_task chosen).1
  have yes₂ : Confirms w₂ := by rwa [Confirms, unread, calm]
  rw [treeAfter_eq, lint_eq_lintFound chosen there found]
  rw [← tree] at safe place
  have files := safe.keptAreFiles named
  cases copy : w₂.tree.entry? (copyPlace s) with
  | some e =>
    obtain rfl := safe.script.of_copy copy
    exact lintFound_returns asked yes₂ named files (mem_flatMap.mpr ⟨_, he, hp⟩) place copy
  | none =>
    exact (lintFound_framed asked yes₂ named files root ⟨safe.script.of_no_copy copy, copy⟩
      fun _ _ _ _ _ _ hl copy h => h.putBack hl script.2 copy).2.2

theorem Session.next {allowed : Location → Prop} {t' : Tree} (session : Session allowed original t)
    (args : List String) (w : World) (here : w.tree = t) (careful : Careful allowed args w)
    (leads : treeAfter args w = t') : Session allowed original t' := by
  subst here leads
  exact session.run careful

def nested : Tree where
  entries := [(["d.lua"], .directory), (["d.lua", "d.lua"], .file printing)]

def nestedFixed : Tree where
  entries := [(["d.lua"], .directory), (["d.lua", "d.lua"], .file silenced),
    (["d.lua", "d.lua.flao-bak"], .file printing)]

def pairArchive : Content :=
  .archive [⟨"(direct)/d.lua", silenced.toBytes⟩, ⟨"(direct)/d.lua.flao-bak", printing.toBytes⟩]

def nestedPaired : Tree := nestedFixed.put ["pair.zip"] (.file pairArchive)

end LuaTune.Recovery
