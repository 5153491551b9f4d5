import LuaTune.Proofs.Files.Globs
import LuaTune.Proofs.Runs.Excluded
import LuaTune.Proofs.Runs.Reaching

/-!
# A script and its directory

The first backup goes below the path of the run, and below a script there is no room for it. So a
script is not fixed by its own path as it is by that of its directory.
-/

namespace LuaTune.Runs

open Command Console Files Recovery Resources Text List

variable {o : Options} {root d : Path} {w w₁ w₂ : World} {t : Tree} {name : String} {c : Content}
  {l r : Location} {args args' : List String}

/-! ## Scripts alone in a directory -/

/-- A file with a name of a script, and nothing else in its directory. -/
structure Alone (t : Tree) (d : Path) (name : String) (c : Content) : Prop where
  dir : t.isDirectory d
  names : t.names d = [name]
  script : isScriptName name
  read : t.read (d.child name) = .ok c

namespace Alone

variable (h : Alone t d name c)

include h

theorem stat_script : t.stat (d.child name) = .ok (.file c) := by
  obtain ⟨l, place, file⟩ := read_eq_ok.mp h.read
  exact stat_eq_ok.mpr ⟨l, place, file⟩

theorem stat_directory : t.stat d = .ok .directory := by
  obtain ⟨r, place, dir⟩ := isDirectory_iff.mp h.dir
  exact stat_eq_ok.mpr ⟨r, place, dir⟩

theorem contains_script : t.contains (d.child name) := by
  rw [Tree.contains, h.stat_script]

theorem not_isDirectory : t.isDirectory (d.child name) = false := by
  rw [Tree.isDirectory, h.stat_script]

theorem entry?_of_ne {other : String} (place : t.locate d = .ok r)
    (top : ¬IsTopPlace (r ++ [other])) (ne : other ≠ name) : t.entry? (r ++ [other]) = none := by
  cases there : t.entry? (r ++ [other]) with
  | none => rfl
  | some e =>
    have listed := mem_names_of_entry place there top
    rw [h.names] at listed
    exact absurd (mem_singleton.mp listed) ne

theorem locate_eq (place : t.locate (d.child name) = .ok l) :
    ∃ r, t.locate d = .ok r ∧ t.entry? r = some .directory ∧ l = r ++ [name] := by
  refine (locate_child ?_).mp place
  rintro rfl
  exact absurd h.script (by decide)

theorem fresh (place : t.locate (d.child name) = .ok l) : t.entry? (copyPlace l) = none := by
  obtain ⟨r, above, -, rfl⟩ := h.locate_eq place
  have sign := finalSign_copyPlace (r ++ [name])
  have copy : copyPlace (r ++ [name]) = r ++ [name ++ ".flao-bak"] := by
    rw [copyPlace, dropLast_concat, placeName_snoc]
  rw [copy] at sign ⊢
  refine h.entry?_of_ne above (not_isTopPlace_of_finalSign sign (by decide)) fun same => ?_
  rw [placeName_snoc, same, finalSign_scriptName h.script] at sign
  exact absurd sign (by decide)

theorem kept (place : t.locate (d.child name) = .ok l) {k : Location} (hk : k = l ∨ k = copyPlace l) :
    (finalSign (placeName k)).map Char.toLower ≠ some 'p' := by
  rcases hk with rfl | rfl
  · obtain ⟨r, -, -, rfl⟩ := h.locate_eq place
    rw [placeName_snoc, finalSign_scriptName h.script]
    decide
  · rw [finalSign_copyPlace]
    decide

theorem hasRoom (now : Moment) : HasRoom t d now := by
  obtain ⟨r, place, dir⟩ := isDirectory_iff.mp h.dir
  obtain ⟨other, named, path⟩ := zipPath_backupPath d (.inl rfl) now
  rw [hasRoom_iff, path]
  refine ⟨r ++ [other], (locate_child (backupName_not_dots named)).mpr ⟨r, place, dir, rfl⟩, ?_⟩
  -- nothing is at its place, for the only name in the directory is that of a script
  have top := not_isTopPlace_of_finalSign (finalSign_backupPlace r named) (by decide)
  rw [h.entry?_of_ne place top]
  · exact fun no => nomatch no
  · rintro rfl
    exact absurd ((finalSign_backupName named).symm.trans (finalSign_scriptName h.script)) (by decide)

theorem not_hasRoom (now : Moment) : ¬HasRoom t (d.child name) now := by
  intro room
  obtain ⟨other, named, path⟩ := zipPath_backupPath (d.child name) (.inl rfl) now
  rw [hasRoom_iff, path] at room
  obtain ⟨l, place, -⟩ := room
  obtain ⟨r, above, dir, -⟩ := (locate_child (backupName_not_dots named)).mp place
  exact absurd (isDirectory_iff.mpr ⟨r, above, dir⟩) (by simp [h.not_isDirectory])

theorem earlierBackups_of_plain (plain : (d.child name).IsPlain) :
    earlierBackups t (d.child name) = [] := by
  refine eq_nil_iff_forall_not_mem.mpr fun q found => ?_
  have dir := (child_of_mem_matching (by decide) (mem_matching_of_mem_glob plain found)).1
  rw [h.not_isDirectory] at dir
  exact absurd dir Bool.false_ne_true

theorem endingWith_eq : t.endingWith d ".lua" = [d.child name] := by
  have named : endsWith (d.child name).name.toList ".lua".toList = true := by
    rw [Path.name_child]
    exact h.script
  unfold Tree.endingWith Tree.children
  rw [if_pos h.dir, h.names, map_singleton]
  exact filter_eq_self.mpr fun q hq => mem_singleton.mp hq ▸ named

theorem discoverDirect_directory : discoverDirect t d = [("(direct)", [d.child name])] := by
  have directories : t.directories d = [d] := by
    unfold Tree.directories Tree.directoriesFrom Tree.children
    rw [if_pos h.dir, h.names, map_singleton, filter_cons_of_neg (by simp [h.not_isDirectory])]
    rfl
  have all : t.allEndingWith d ".lua" = [d.child name] := by
    rw [Tree.allEndingWith, directories, flatMap_singleton, h.endingWith_eq]
  have unhidden : withUnhidden [d.child name] [d.child name] = [d.child name] := by
    rw [withUnhidden, filter_cons_of_neg (by simp), filter_nil]
    rfl
  unfold discoverDirect
  rw [Tree.isFile, h.stat_directory, if_neg Bool.false_ne_true, h.endingWith_eq, all, unhidden]

theorem discoverDirect_file : discoverDirect t (d.child name) =
    if name = ".lua" then [] else [("(direct)", [d.child name])] := by
  obtain ⟨front, cut⟩ := endsWith_iff.mp h.script
  unfold discoverDirect
  rw [Tree.isFile, h.stat_script, if_pos rfl]
  by_cases only : name = ".lua"
  · have none : (d.child name).suffix = "" := by
      rw [Path.suffix, Path.name_child, only]
      decide
    rw [none, if_pos only]
    rfl
  · have before : front ≠ [] := by
      rintro rfl
      exact only (String.toList_inj.mp cut.symm)
    have ending : (d.child name).name.toList = front ++ ['.', 'l', 'u', 'a'] := by
      rw [Path.name_child, ← cut]
      rfl
    rw [suffix_of_name ending before (by decide) (by decide), if_neg only]
    rfl

end Alone

/-! ## Runs -/

/-- A run over all scripts at its path that fixes them, keeps copies, and does nothing else. -/
structure FixesDirectly (o : Options) : Prop where
  direct : o.direct
  fixes : o.fixes
  keeps : o.backup
  copies : o.onCopies = false
  unasked : o.backupAll.isEmpty
  unlisted : o.exclude.isEmpty
  unreported : o.report.isEmpty

/-- A run that asks for a negative number of workers fails before its first fix. -/
theorem treeAfter_unmanned (chosen : chooseTask args w = .ok (o, root) w₁) (plain : FixesDirectly o)
    (few : o.workers < 0) {k : Location}
    (kept : (finalSign (placeName k)).map Char.toLower ≠ some 'p') :
    Tree.entry? (treeAfter args w) k = w.tree.entry? k := by
  rcases treeAfter_of_task chosen with ⟨-, same⟩ | ⟨table, w₂, found, -, result⟩
  · rw [same]
  obtain ⟨⟨settled, -⟩, -⟩ := of_findScripts found
  have intact := holds_worldAfter (prepare_intact o root (scriptItems table) w₁)
    (intact_of_settled settled)
  have ends : worldAfter (lintScripts o root (scriptItems table) w₂) =
      worldAfter (prepare o root (scriptItems table) w₂) := by
    rw [lintScripts_eq plain.fixes]
    cases done : prepare o root (scriptItems table) w₂ with
    | error e w₃ => rw [bind_error done]; rfl
    | ok t w₃ =>
      obtain rfl := prepare_unmanned few done
      rw [bind_ok done]
      rfl
  rw [result, lintFound_of_off plain.copies, ends, ← (settled_of_task chosen).1]
  exact intact.1.2.2 k kept

theorem treeAfter_single (chosen : chooseTask args w = .ok (o, root) w₁) (plain : FixesDirectly o)
    (workers : Calm w ∨ o.singleThread) (alone : Alone w.tree d name c)
    (place : w.tree.locate (d.child name) = .ok l) (there : w.tree.contains root)
    (found : discoverDirect w.tree root = [("(direct)", [d.child name])]) :
    (0 ≤ o.workers → o.noFirstBackup ∨ Securable w.tree root w.now → ∀ k, k = l ∨ k = copyPlace l →
      Tree.entry? (treeAfter args w) k = ((ledger w {}).fix o.fixOptions l).files k) ∧
    (¬(o.noFirstBackup ∨ Securable w.tree root w.now) → treeAfter args w = w.tree) := by
  obtain ⟨tree, now, breakdown, noPools⟩ := settled_of_task chosen
  have table : remaining o w₁.tree (scriptsAt o w₁.tree root) = [("(direct)", [d.child name])] := by
    rw [remaining_of_nil (by simp [excludedBy, plain.unlisted]), scriptsAt, if_pos plain.direct, tree,
      found]
  obtain ⟨w₂, run⟩ : ∃ w₂, findScripts o root w₁ = .ok [("(direct)", [d.child name])] w₂ := by
    rcases findScripts_eq o root w₁ with ⟨w₂, run, -⟩ | ⟨e, w₂, -, empty⟩
    · exact ⟨w₂, table ▸ run⟩
    · rw [table] at empty
      cases empty
  obtain ⟨⟨⟨tree₂, now₂, -⟩, -⟩, -⟩ := of_findScripts run
  rw [tree] at tree₂
  rw [now] at now₂
  constructor
  · intro manned can k hk
    have present : Present w₂.tree (scriptItems [("(direct)", [d.child name])]) := by
      intro s hs
      obtain rfl := mem_singleton.mp hs
      exact ⟨(Path.name_child d name).symm ▸ alone.script, tree₂ ▸ alone.contains_script⟩
    have goes := prepare_goes rfl present plain.unasked manned backed_self (by rwa [tree₂, now₂])
    have reaches : ReachesFixes o root w₁ := ⟨plain.copies, ends_iff.mpr ⟨_, w₂, run, goes⟩⟩
    have once : (places w₁.tree (discovered o root w₁)).count l = 1 := by
      rw [discovered, if_pos (tree ▸ there), run, tree]
      simp [places, place, Except.toOption]
    have hl : isScriptName (placeName l) := by
      obtain ⟨r, -, -, rfl⟩ := alone.locate_eq place
      exact (placeName_snoc r name).symm ▸ alone.script
    rw [treeAfter_fixed chosen plain.fixes reaches hl (tree ▸ alone.fresh place)
      (workers.imp_left fun calm => calm.congr breakdown noPools) hk
      fun asked => by simp [plain.unreported] at asked, once]
    unfold ledger
    rw [tree]
    rfl
  · intro never
    obtain ⟨wanted, never⟩ := not_or.mp never
    rw [← tree₂, ← now₂] at never
    have filled : (scriptItems [("(direct)", [d.child name])]).isEmpty = false := rfl
    obtain ⟨w', stopped, same⟩ :=
      prepare_stops filled plain.fixes (by simpa using wanted) plain.unasked never
    rcases treeAfter_of_task chosen with ⟨-, same⟩ | ⟨table', w₂', run', -, result⟩
    · exact same
    · obtain ⟨rfl, rfl⟩ := EStateM.Result.ok.inj (run.symm.trans run')
      rw [result, lintFound_of_off plain.copies, lintScripts_eq plain.fixes, bind_ok stopped]
      exact same.trans tree₂

section

variable (plain : FixesDirectly o) (workers : Calm w ∨ o.singleThread) (alone : Alone w.tree d name c)
  (place : w.tree.locate (d.child name) = .ok l)

include plain workers alone place

theorem treeAfter_by_directory (chosen : chooseTask args w = .ok (o, d) w₁) (manned : 0 ≤ o.workers) :
    ∀ k, k = l ∨ k = copyPlace l →
      Tree.entry? (treeAfter args w) k = ((ledger w {}).fix o.fixOptions l).files k := by
  have there : w.tree.contains d := by
    rw [Tree.contains, alone.stat_directory]
  exact (treeAfter_single chosen plain workers alone place there alone.discoverDirect_directory).1
    manned (.inr (.inr (alone.hasRoom w.now)))

theorem treeAfter_by_script (chosen : chooseTask args w = .ok (o, d.child name) w₁) :
    (0 ≤ o.workers → name ≠ ".lua" ∧ (o.noFirstBackup ∨ earlierBackups w.tree (d.child name) ≠ []) →
      ∀ k, k = l ∨ k = copyPlace l →
        Tree.entry? (treeAfter args w) k = ((ledger w {}).fix o.fixOptions l).files k) ∧
    (¬(name ≠ ".lua" ∧ (o.noFirstBackup ∨ earlierBackups w.tree (d.child name) ≠ [])) →
      treeAfter args w = w.tree) := by
  by_cases only : name = ".lua"
  · refine ⟨fun _ goes => absurd only goes.1, fun _ => treeAfter_of_nothing chosen ?_⟩
    rw [(settled_of_task chosen).1, scriptsAt, if_pos plain.direct, alone.discoverDirect_file,
      if_pos only]
    rfl
  · obtain ⟨fixed, stays⟩ := treeAfter_single chosen plain workers alone place alone.contains_script
      (alone.discoverDirect_file.trans (if_neg only))
    refine ⟨fun manned goes => fixed manned (goes.2.imp_right .inl), fun never => stays fun can => never ⟨only, ?_⟩⟩
    exact can.imp_right fun can => can.resolve_right (alone.not_hasRoom w.now)

end

/-- A run by the path of a script and one by the path of its directory, where the script is alone, leave
the same script and the same copy exactly if no fix is due, or if the first run finds the script and
needs no first backup or finds one, or if both fail for want of workers. Without wildcards the first
finds no backup and changes nothing. The second, if it has workers, always fixes the script. -/
theorem script_and_directory_alike_iff {path : String}
    (byScript : chooseTask args w = .ok (o, d.child name) w₁)
    (byDirectory : chooseTask args' w = .ok ({ o with path := path }, d) w₂) (plain : FixesDirectly o)
    (workers : Calm w ∨ o.singleThread) (alone : Alone w.tree d name c)
    (place : w.tree.locate (d.child name) = .ok l) :
    ((∀ k, k = l ∨ k = copyPlace l →
        Tree.entry? (treeAfter args w) k = Tree.entry? (treeAfter args' w) k) ↔
      o.workers < 0 ∨ Ledger.due? o.fixOptions (some (.file c)) = none ∨
        name ≠ ".lua" ∧ (o.noFirstBackup ∨ earlierBackups w.tree (d.child name) ≠ [])) ∧
    ((d.child name).IsPlain → o.noFirstBackup = false → treeAfter args w = w.tree) ∧
    (0 ≤ o.workers →
      Tree.entry? (treeAfter args' w) l = some (.file (fixedContent o.fixOptions.toOptions c)) ∧
      Tree.entry? (treeAfter args' w) (copyPlace l) =
        (Ledger.due? o.fixOptions (some (.file c))).map fun _ => .file c) := by
  have file : w.tree.entry? l = some (.file c) := by
    obtain ⟨l', place', file⟩ := read_eq_ok.mp alone.read
    obtain rfl := Except.ok.inj (place.symm.trans place')
    exact file
  have fresh := alone.fresh place
  have plain' : FixesDirectly { o with path := path } :=
    ⟨plain.direct, plain.fixes, plain.keeps, plain.copies, plain.unasked, plain.unlisted,
      plain.unreported⟩
  have fixed := treeAfter_by_directory plain' workers alone place byDirectory
  obtain ⟨likewise, stays⟩ := treeAfter_by_script plain workers alone place byScript
  refine ⟨?_, fun literal wanted => stays ?_, fun manned => ⟨?_, ?_⟩⟩
  · by_cases few : o.workers < 0
    · refine iff_of_true (fun k hk => ?_) (.inl few)
      have kept := alone.kept place hk
      rw [treeAfter_unmanned byScript plain few kept, treeAfter_unmanned byDirectory plain' few kept]
    have manned := Int.not_lt.mp few
    replace fixed := fixed manned
    rw [or_iff_right few]
    by_cases goes : name ≠ ".lua" ∧ (o.noFirstBackup ∨ earlierBackups w.tree (d.child name) ≠ [])
    · exact iff_of_true (fun k hk => (likewise manned goes k hk).trans (fixed k hk).symm) (.inr goes)
    · rw [stays goes, or_iff_left goes]
      constructor
      · -- only a fix that is due leaves a copy
        intro agree
        have copy := (agree _ (.inr rfl)).trans (fixed _ (.inr rfl))
        rw [fresh, files_fix_copy plain.keeps file fresh] at copy
        exact Option.map_eq_none_iff.mp copy.symm
      · intro none k hk
        rw [fixed k hk, Ledger.fix_of_none (by rw [← none]; exact congrArg _ file)]
        rfl
  · simp [wanted, alone.earlierBackups_of_plain literal]
  · exact (fixed manned l (.inl rfl)).trans (files_fix_self file)
  · exact (fixed manned _ (.inr rfl)).trans (files_fix_copy plain.keeps file fresh)

@[irreducible]
def loneWorld : World :=
  worldWith ⟨[(["d"], .directory), (["d", "a.lua"], .file printing)]⟩ ""

def loneOptions (path : String) : Options := { path := path, direct := true, fixDebug := true }

theorem lone_alone : Alone loneWorld.tree ⟨false, ["d"]⟩ "a.lua" printing :=
  ⟨by decide +kernel, by decide +kernel, by decide, by decide +kernel⟩

theorem lone_unlike :
    treeAfter ["d/a.lua", "--direct", "--fix-debug"] loneWorld = loneWorld.tree ∧
      Tree.entry? (treeAfter ["d", "--direct", "--fix-debug"] loneWorld) ["d", "a.lua"] =
        some (.file (fixedContent { fixDebug := true } printing)) ∧
      ¬∀ k, k = ["d", "a.lua"] ∨ k = copyPlace ["d", "a.lua"] →
        Tree.entry? (treeAfter ["d/a.lua", "--direct", "--fix-debug"] loneWorld) k =
          Tree.entry? (treeAfter ["d", "--direct", "--fix-debug"] loneWorld) k := by
  have byScript : Ends (chooseTask ["d/a.lua", "--direct", "--fix-debug"]) loneWorld fun task _ =>
      task = (loneOptions "d/a.lua", Path.child ⟨false, ["d"]⟩ "a.lua") := by
    decide +kernel
  have byDirectory : Ends (chooseTask ["d", "--direct", "--fix-debug"]) loneWorld fun task _ =>
      task = ({ loneOptions "d/a.lua" with path := "d" }, ⟨false, ["d"]⟩) := by
    decide +kernel
  obtain ⟨_, w₁, byScript, rfl⟩ := ends_iff.mp byScript
  obtain ⟨_, w₂, byDirectory, rfl⟩ := ends_iff.mp byDirectory
  have plain : FixesDirectly (loneOptions "d/a.lua") :=
    ⟨rfl, rfl, rfl, by decide, by decide, by decide, by decide⟩
  have calm : Calm loneWorld := by
    have quiet : loneWorld.breakdown = none ∧ loneWorld.noPools = false := by decide +kernel
    intro n
    simp [breakdownAt, quiet]
  have place : loneWorld.tree.locate (Path.child ⟨false, ["d"]⟩ "a.lua") = .ok ["d", "a.lua"] := by
    decide +kernel
  have literal : (Path.child ⟨false, ["d"]⟩ "a.lua").IsPlain := by
    unfold Path.IsPlain
    decide
  obtain ⟨alike, stays, fixed⟩ :=
    script_and_directory_alike_iff byScript byDirectory plain (.inl calm) lone_alone place
  refine ⟨stays literal rfl, (fixed (by decide)).1, fun same => ?_⟩
  rcases alike.mp same with few | none | ⟨-, skipped | found⟩
  · exact absurd few (by decide)
  · exact absurd none (by decide +kernel)
  · exact absurd skipped (by decide)
  · exact found (lone_alone.earlierBackups_of_plain literal)

/-- With the same options one run leaves the script as it is and the other comments the call out and
keeps a copy. -/
theorem lone_left_and_fixed :
    (∀ k ∈ [["d", "a.lua"], ["d", "a.lua.flao-bak"]],
      Tree.entry? (treeAfter ["d/a.lua", "--direct", "--fix-debug"] loneWorld) k =
        loneWorld.tree.entry? k) ∧
      Tree.entry? (treeAfter ["d", "--direct", "--fix-debug"] loneWorld) ["d", "a.lua"] =
        some (.file silenced) ∧
      Tree.entry? (treeAfter ["d", "--direct", "--fix-debug"] loneWorld) ["d", "a.lua.flao-bak"] =
        some (.file printing) := by
  decide +kernel

end LuaTune.Runs
