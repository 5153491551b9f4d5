import LuaTune.Proofs.Finding.Spelling
import LuaTune.Proofs.Fix.Retained

/-!
# The characters that a fix writes

Every edit puts in names from the findings, pieces of the source and plain ASCII, so what comes out
of a fix draws on the source.
-/

namespace LuaTune.Finding.DrawsOn

variable {source : Chars} {f : Finding} (h : f.DrawsOn source) {key : String}
include h

theorem nonEmpty? (hk : key ∈ writtenKeys) : Gives (Fix.nonEmpty? f key) (Text.DrawsOn source) := by
  refine (h.text? hk).bind fun s hs => ?_
  split
  · exact .none
  · exact .some hs

theorem globalCalls : ∀ g ∈ Fix.globalCalls f, Text.DrawsOn source g.1.toList := by
  unfold Fix.globalCalls
  split
  · next hd => exact h.get? (by decide) hd
  · exact nofun

end LuaTune.Finding.DrawsOn

namespace LuaTune.Fix

open List hiding splitOn
open Text Lua Analysis

variable {source : Chars}

/-! ## Pieces of the source -/

theorem sourceFrom_subset (start : Nat) (stop : Option Nat) : sourceFrom source start stop ⊆ source := by
  unfold sourceFrom
  split
  · exact slice_subset _ _ _
  · exact drop_subset _ _

theorem drawsOn_lineIndent (line : Int) : DrawsOn source (lineIndent source line) := by
  unfold lineIndent
  split
  · next l found =>
    unfold lineAt? at found
    split at found
    · have inside := (of_mem_splitOn l (mem_of_getElem? found)).1
      exact .of_subset (List.Subset.trans (indentOf_subset l) inside)
    · cases found
  · exact .nil

theorem drawsOn_slice (a b : Nat) : DrawsOn source (slice source a b) := .of_subset (slice_subset _ _ _)

/-! ## Replacements -/

theorem insertedValue?_gives {call : Chars} (h : DrawsOn source call) :
    Gives (insertedValue? call) (DrawsOn source) := by
  unfold insertedValue?
  refine .after fun paren => .after fun comma => .after fun close => .some ?_
  exact h.mono (List.Subset.trans (strip_subset _) (slice_subset _ _ _))

attribute [local simp] isAscii editAt

section

variable {f : Finding} (h : f.DrawsOn source)
include h

theorem appendEdits_drawsOn : ∀ e ∈ appendEdits source f, DrawsOn source e.text := by
  unfold appendEdits
  refine Gives.toList (.after ?_)
  rintro ⟨start, stop⟩
  refine (h.nonEmpty? (by decide)).bind fun table ht => ?_
  refine (insertedValue?_gives (.of_subset (sourceFrom_subset start stop))).bind fun value hv => ?_
  split
  · exact .none
  · refine .some ?_
    simp [ht, hv]

theorem lengthEdits_drawsOn {key : String} (hk : key ∈ writtenKeys) :
    ∀ e ∈ lengthEdits source f key, DrawsOn source e.text := by
  unfold lengthEdits
  refine Gives.toList (.after ?_)
  rintro ⟨start, stop⟩
  refine (h.nonEmpty? hk).bind fun name hn => .some ?_
  simp [hn]

theorem powerEdits_drawsOn : ∀ e ∈ powerEdits source f, DrawsOn source e.text := by
  unfold powerEdits
  refine Gives.toList (.after ?_)
  rintro ⟨start, stop⟩
  refine (h.nonEmpty? (by decide)).bind fun base hb => ?_
  have power : Gives (powerText? f base) (DrawsOn source) := by
    unfold powerText?
    split
    · exact .some (DrawsOn.append_iff.mpr ⟨hb, .ascii rfl⟩)
    · intro text ht
      obtain ⟨n, -, rfl⟩ := Option.map_eq_some_iff.mp ht
      exact .intercalate (.ascii rfl) fun xs hxs => by rwa [eq_of_mem_replicate hxs]
    · exact .none
  exact power.bind fun text ht => .some ht

end

/-! ## Lines of the source -/

theorem commentLines_drawsOn (first last : Nat) :
    ∀ e ∈ commentLines source first last, DrawsOn source e.text := by
  unfold commentLines
  split
  · exact nofun
  · dsimp only
    split
    · exact nofun
    · refine forall_mem_map.mpr fun span _ => ?_
      have line : DrawsOn source (slice source span.1 span.2) := drawsOn_slice _ _
      have indent := line.mono (indentOf_subset _)
      have rest := line.mono (dropWhile_sublist isBlank).subset
      simpa [commentEdit] using ⟨indent, rest⟩

theorem debugEdits_drawsOn (f : Finding) : ∀ e ∈ debugEdits source f, DrawsOn source e.text := by
  unfold debugEdits
  split
  · exact commentLines_drawsOn _ _
  · split
    · exact commentLines_drawsOn _ _
    · exact nofun

theorem deadCodeEdits_drawsOn (f : Finding) : ∀ e ∈ deadCodeEdits source f, DrawsOn source e.text := by
  unfold deadCodeEdits
  refine Gives.toList (.guarded (.after fun first => .after fun last => .after ?_))
  rintro ⟨start, _⟩
  refine .after ?_
  rintro ⟨_, stop⟩
  refine .after fun kind => ?_
  split
  · exact .some .nil
  · exact .none

theorem wrapped_drawsOn {var line : Chars} (hv : DrawsOn source var) (hl : DrawsOn source line) :
    DrawsOn source (wrapped var line) := by
  have indent := hl.mono (takeWhile_sublist fun c => c == ' ' || c == '\t').subset
  have rest := hl.mono (strip_subset line)
  unfold wrapped
  dsimp only
  split <;> simp [indent, rest, hv]

/-! ## Copies -/

theorem copyName_drawsOn {name : Chars} (h : DrawsOn source name) :
    DrawsOn source (copyName name) := by
  unfold copyName
  split
  · exact DrawsOn.append_iff.mpr ⟨h.take _, DrawsOn.cons_iff.mpr ⟨.inr rfl, h.drop _⟩⟩
  · simpa using h

theorem copyBlock_drawsOn {indent : Chars} {names : List String} (hi : DrawsOn source indent)
    (hn : ∀ n ∈ names, DrawsOn source n.toList) : DrawsOn source (copyBlock indent names) := by
  unfold copyBlock sortNames
  refine .flatMap fun n h => ?_
  have name := hn n (mem_sortBy.mp h)
  simp [hi, name, copyName_drawsOn name]

section

variable {f : Finding} (h : f.DrawsOn source)
include h

theorem nilGuardEdits_drawsOn : ∀ e ∈ nilGuardEdits source f, DrawsOn source e.text := by
  unfold nilGuardEdits
  refine Gives.toList (.guarded ((h.nonEmpty? (by decide)).bind fun var hv => ?_))
  refine .after fun assigned => .guarded (.after ?_)
  rintro ⟨start, stop⟩
  dsimp only
  split
  · exact .none
  · exact .some (wrapped_drawsOn hv (drawsOn_slice _ _))

theorem globalEdits_drawsOn : ∀ e ∈ globalEdits source f, DrawsOn source e.text := by
  unfold globalEdits
  refine Gives.getD (.after fun scope => .guarded (.after fun place => .some ?_))
  refine forall_mem_cons.mpr ⟨copyBlock_drawsOn ?_ (forall_mem_map.mpr h.globalCalls), ?_⟩
  · split
    · exact .ascii rfl
    · exact drawsOn_lineIndent _
  · intro e he
    obtain ⟨g, hg, he⟩ := mem_flatMap.mp he
    obtain ⟨call, -, use⟩ := mem_filterMap.mp he
    unfold copyUse? at use
    split at use
    · cases use
      exact copyName_drawsOn (h.globalCalls g hg)
    · cases use

end

variable {cs text var : Chars} {f : Finding}

/-! ## Parts of a text -/

theorem stripPrefix?_gives (h : DrawsOn source cs) (p : Chars) :
    Gives (stripPrefix? p cs) (DrawsOn source) := by
  intro rest hr
  rw [stripPrefix?_eq_some.mp hr, DrawsOn.append_iff] at h
  exact h.2

theorem stripLeft_drawsOn (h : DrawsOn source cs) : DrawsOn source (stripLeft cs) :=
  h.mono (dropWhile_sublist isBlank).subset

theorem addedPart?_gives {line : Chars} (h : DrawsOn source line) (var : Chars) :
    Gives (addedPart? var line) (DrawsOn source) := by
  refine (stripPrefix?_gives (stripLeft_drawsOn h) _).bind fun rest hr => ?_
  refine (stripPrefix?_gives (stripLeft_drawsOn hr) _).bind fun rest hr => ?_
  refine (stripPrefix?_gives (stripLeft_drawsOn hr) _).bind fun rest hr => ?_
  refine (stripPrefix?_gives (stripLeft_drawsOn hr) _).bind fun rest hr => ?_
  split
  · exact .none
  · exact .some (hr.mono (strip_subset rest))

theorem replaceEmptyTests_drawsOn (ht : DrawsOn source text) (var : Chars) (h : DrawsOn source cs) (before : Option Char) (skip : Nat) :
    DrawsOn source (replaceEmptyTests var text before skip cs) := by
  induction cs generalizing before skip with
  | nil => cases skip <;> exact .nil
  | cons c cs ih =>
    obtain ⟨hc, hcs⟩ := DrawsOn.cons_iff.mp h
    cases skip with
    | succ skip => exact ih hcs _ _
    | zero =>
      rw [replaceEmptyTests]
      split
      · exact DrawsOn.append_iff.mpr ⟨ht, ih hcs _ _⟩
      · exact DrawsOn.cons_iff.mpr ⟨hc, ih hcs _ _⟩

theorem partsName_drawsOn (h : DrawsOn source var) : DrawsOn source (partsName var) := by
  simp [partsName, h]

theorem collectedPart?_gives {part : Chars} (hv : DrawsOn source var)
    (hp : DrawsOn source part) : Gives (collectedPart? var part) (DrawsOn source) := by
  unfold collectedPart?
  split
  · exact .some hp
  · split
    · refine .some (replaceEmptyTests_drawsOn ?_ var hp none 0)
      simp [partsName_drawsOn hv]
    · exact .none

theorem collectEdit?_gives (hv : DrawsOn source var) (line : Int) :
    Gives (collectEdit? source var line) fun e => DrawsOn source e.text := by
  refine .after ?_
  rintro ⟨start, stop⟩
  have text :
      DrawsOn source (dropEndWhile (fun c => c == '\n' || c == '\r') (slice source start stop)) :=
    (drawsOn_slice start stop).mono (dropEndWhile_subset _ _)
  refine (addedPart?_gives text var).bind fun part hp => ?_
  refine (collectedPart?_gives hv hp).bind fun part hp => .some ?_
  simp [drawsOn_lineIndent, partsName_drawsOn hv, hp]

theorem concatEdits_drawsOn (h : f.DrawsOn source) :
    ∀ e ∈ concatEdits source f, DrawsOn source e.text := by
  unfold concatEdits
  refine Gives.getD ((h.nonEmpty? (by decide)).bind fun var hv => ?_)
  refine .after fun first => .after fun loopEnd => .guarded (.guarded (.guarded (.guarded ?_)))
  refine .after ?_
  rintro ⟨start, stop⟩
  refine (Gives.mapM fun n _ => collectEdit?_gives hv n).bind fun added ha => ?_
  refine .after fun after => .some ?_
  have indent (line : Int) : DrawsOn source (lineIndent source line) := drawsOn_lineIndent line
  have parts := partsName_drawsOn hv
  refine forall_mem_cons.mpr ⟨?_, forall_mem_append.mpr ⟨ha, ?_⟩⟩
  · split <;> simp [indent, parts]
  · simp [indent, parts, hv]

/-! ## Results of calls -/

theorem splitMethod?_gives {object : Chars} (ho : DrawsOn source object)
    (hc : DrawsOn source cs) : Gives (splitMethod? object cs) fun x =>
      DrawsOn source x.1 ∧ DrawsOn source x.2.1.toList ∧ DrawsOn source x.2.2.toList := by
  have methods : methodCopies.all fun m => m.1.toList.all isAscii && m.2.toList.all isAscii := by
    decide
  induction cs generalizing object with
  | nil => exact .none
  | cons c cs ih =>
    obtain ⟨hc, hcs⟩ := DrawsOn.cons_iff.mp hc
    rw [splitMethod?]
    split
    · next m found =>
      split at found
      · cases found
      · have ascii := all_eq_true.mp methods m (mem_of_find?_eq_some found)
        rw [Bool.and_eq_true] at ascii
        refine .some ⟨ho.mono ?_, .ascii ascii.1, .ascii ascii.2⟩
        exact fun c hc => mem_reverse.mp hc
    · split
      · exact .none
      · exact ih (DrawsOn.cons_iff.mpr ⟨hc, ho⟩) hcs

def ResultCopy.DrawsOn (source : Chars) (copy : ResultCopy) : Prop :=
  Text.DrawsOn source copy.declaration ∧ Text.DrawsOn source copy.name

theorem nativeCopies_drawsOn : ∀ n ∈ nativeCopies, n.2.DrawsOn source := by
  have ascii : ∀ n ∈ nativeCopies, n.2.declaration.all isAscii ∧ n.2.name.all isAscii := by
    decide +kernel
  exact fun n hn => (ascii n hn).imp .ascii .ascii

theorem objectText_drawsOn (h : f.DrawsOn source) {object : Chars}
    (ho : DrawsOn source object) : DrawsOn source (objectText f object) := by
  unfold objectText
  split
  · refine DrawsOn.take ?_ _
    cases call : f.details.text? "original_call" with
    | none => exact .nil
    | some s => exact h.text? (by decide) s call
  · split
    · next rest stripped =>
      exact DrawsOn.append_iff.mpr ⟨.ascii rfl, stripPrefix?_gives ho _ rest stripped⟩
    · exact ho

theorem methodCopy?_gives (h : f.DrawsOn source) {subject : Chars}
    (hs : DrawsOn source subject) : Gives (methodCopy? f subject) (ResultCopy.DrawsOn source) := by
  refine (splitMethod?_gives .nil hs).bind ?_
  rintro ⟨object, method, ending⟩ ⟨ho, hm, he⟩
  have written := objectText_drawsOn h ho
  dsimp only
  split
  · exact .none
  · refine .some ⟨?_, ?_⟩
    · simp [ho, hm, he, written]
    · simp [ho, he]

theorem resultCopy?_gives (h : f.DrawsOn source) :
    Gives (resultCopy? f) (ResultCopy.DrawsOn source) := by
  refine (stripPrefix?_gives h.pattern _).bind fun subject hs => ?_
  split
  · next found =>
    exact .some (nativeCopies_drawsOn _ (mem_of_find?_eq_some found))
  · exact methodCopy?_gives h hs

theorem bodyIndent_drawsOn {indent : Chars} (h : DrawsOn source indent) :
    DrawsOn source (bodyIndent indent) := by
  unfold bodyIndent
  split
  · exact .ascii rfl
  · exact .ascii rfl
  · exact h
  · exact h.take _

theorem declarationEdit?_gives {copy : ResultCopy} (h : copy.DrawsOn source) (scope : Scope)
    (firstLine lastLine : Nat) :
    Gives (declarationEdit? source copy scope firstLine lastLine) fun e => DrawsOn source e.text := by
  have indent : DrawsOn source (lineIndent source firstLine) := drawsOn_lineIndent _
  refine .after ?_
  rintro ⟨place, _⟩
  refine .guarded (.guarded (.guarded ?_))
  dsimp only
  split
  · split
    · exact .none
    · refine .after ?_
      rintro ⟨place, _⟩
      dsimp only
      split
      · exact .none
      · refine .some ?_
        simp [bodyIndent_drawsOn indent, h.1]
  · refine .some ?_
    simp [indent, h.1]

theorem resultUse?_gives {copy : ResultCopy} (h : copy.DrawsOn source) (call : Call) :
    Gives (resultUse? source copy call) fun e => DrawsOn source e.text := by
  unfold resultUse?
  split
  · exact .none
  · split
    · exact .some h.2
    · exact .none

theorem repeatedCallEdits_drawsOn (h : f.DrawsOn source) :
    ∀ e ∈ repeatedCallEdits source f, DrawsOn source e.text := by
  unfold repeatedCallEdits cachePlan?
  refine Gives.getD (.map (.after fun calls => .after fun scope => .after fun first => .after fun last => ?_))
  refine (resultCopy?_gives h).bind fun copy hc => ?_
  have uses (calls : List Call) :
      ∀ e ∈ calls.filterMap (resultUse? source copy), DrawsOn source e.text := by
    intro e he
    obtain ⟨call, -, use⟩ := mem_filterMap.mp he
    exact resultUse?_gives hc call e use
  split
  · exact .some (uses _)
  · refine (declarationEdit?_gives hc scope _ _).bind fun declaration hd => .some ?_
    exact forall_mem_cons.mpr ⟨hd, uses _⟩

/-! ## All edits of a finding -/

theorem findingEdits_drawsOn (o : Options) (h : f.DrawsOn source) :
    ∀ e ∈ findingEdits o source f, DrawsOn source e.text := by
  unfold findingEdits
  split
  · exact appendEdits_drawsOn h
  · exact lengthEdits_drawsOn h (by decide)
  · exact lengthEdits_drawsOn h (by decide)
  · exact powerEdits_drawsOn h
  · exact debugEdits_drawsOn f
  · exact globalEdits_drawsOn h
  · split
    · exact concatEdits_drawsOn h
    · exact nofun
  · split
    · exact nilGuardEdits_drawsOn h
    · exact nofun
  · split
    · split
      · exact deadCodeEdits_drawsOn f
      · exact nofun
    · split
      · exact repeatedCallEdits_drawsOn h
      · exact nofun

theorem findingEdits_of_isAdvice (o : Options) (h : f.IsAdvice) : findingEdits o source f = [] := by
  unfold findingEdits
  rcases h with h | ⟨h, none⟩
  · simp only [advisoryPatterns, mem_cons, not_mem_nil, or_false] at h
    rcases h with h | h | h | h | h | h | h <;> rw [h] <;> rfl
  · have edits : repeatedCallEdits source f = [] := by
      unfold repeatedCallEdits cachePlan?
      rw [none]
      rfl
    rw [h]
    exact edits

/-! ## Applying -/

theorem applyTo_drawsOn {e : Edit} (he : DrawsOn source e.text)
    (ht : DrawsOn source text) : DrawsOn source (e.applyTo text) := by
  unfold Edit.applyTo
  simp only [DrawsOn.append_iff]
  refine ⟨⟨ht.take _, he⟩, ?_⟩
  split
  · exact ht.drop _
  · exact ht

theorem foldl_applyTo_drawsOn {es : List Edit} (he : ∀ e ∈ es, DrawsOn source e.text) (ht : DrawsOn source text) :
    DrawsOn source (es.foldl (fun t e => e.applyTo t) text) := by
  induction es generalizing text with
  | nil => exact ht
  | cons e es ih =>
    obtain ⟨first, rest⟩ := forall_mem_cons.mp he
    exact ih rest (applyTo_drawsOn first ht)

theorem mem_of_mem_fixable {o : Options} {fs : List Finding} (h : f ∈ fixable o fs) : f ∈ fs := by
  unfold fixable addOnNewLines at h
  grind

theorem fixSource_drawsOn {o : Options} {fixed : Fixed} (h : fixSource o source = .ok fixed) :
    DrawsOn source fixed.content := by
  obtain ⟨es, kept, generated, retained, content⟩ := fixSource_eq_ok h
  rw [content]
  refine foldl_applyTo_drawsOn (fun e he => ?_) (.of_subset (List.Subset.refl source))
  replace he := mem_sortBy.mp he
  have asked : e ∈ es := mem_sortBy.mp ((Edit.settled_of_retain retained).sublist.subset he)
  unfold generatedEdits at generated
  cases analyzed : analyzeSource {} source with
  | error fault => simp [analyzed, Except.mapError, Except.map] at generated
  | ok fs =>
    simp only [analyzed, Except.mapError, Except.map, Except.ok.injEq] at generated
    rw [← generated] at asked
    obtain ⟨f, hf, edit⟩ := mem_flatMap.mp asked
    rcases analyzeSource_drawsOn analyzed f (mem_of_mem_fixable hf) with drawn | advice
    · exact findingEdits_drawsOn o drawn e edit
    · rw [findingEdits_of_isAdvice o advice] at edit
      cases edit

end LuaTune.Fix
