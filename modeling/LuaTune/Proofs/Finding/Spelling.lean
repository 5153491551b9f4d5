import LuaTune.Proofs.Analysis.Spelling
import LuaTune.Proofs.Finding.Kinds

/-!
# The characters of findings

What the fixes take from a finding draws on the script, as the records do from which the findings
are made.
-/

namespace LuaTune

variable {source : Chars}

/-- The details whose texts are written by edits. -/
def writtenKeys : List String :=
  ["table", "string", "base", "variable", "var_name", "original_call", "globals_info"]

def Detail.DrawsOn (source : Chars) : Detail → Prop
  | .text s => Text.DrawsOn source s.toList
  | .callsByName groups => ∀ g ∈ groups, Text.DrawsOn source g.1.toList
  | _ => True

structure Finding.DrawsOn (source : Chars) (f : Finding) : Prop where
  pattern : Text.DrawsOn source f.pattern.toList
  details : ∀ d ∈ f.details, d.1 ∈ writtenKeys → d.2.DrawsOn source

namespace Finding.DrawsOn

variable {f : Finding} (h : f.DrawsOn source) {key : String}
include h

theorem get? (hk : key ∈ writtenKeys) {d : Detail} (hd : f.details.get? key = some d) :
    d.DrawsOn source := by
  obtain ⟨x, hx, rfl⟩ := Option.map_eq_some_iff.mp hd
  have same := List.find?_some hx
  exact h.details x (List.mem_of_find?_eq_some hx) (by rwa [eq_of_beq same])

theorem text? (hk : key ∈ writtenKeys) :
    Gives (f.details.text? key) fun s => Text.DrawsOn source s.toList := by
  intro s hs
  unfold Details.text? at hs
  split at hs
  · next hd =>
    cases hs
    exact h.get? hk hd
  · cases hs

end Finding.DrawsOn

end LuaTune

namespace LuaTune.Rules

open Text Lua Analysis List

variable {source : Chars} {lines : List Chars}

variable {scopes : List Scope} {calls : List Call}

/-! ## Findings about calls -/

def CallDrawsOn (source : Chars) (c : Call) : Prop :=
  DrawsOn source c.fullName.toList ∧ ∀ s ∈ textsOf c.args, DrawsOn source s.toList

attribute [local simp] aboutCall writtenKeys Detail.DrawsOn textsOf

section

variable {c : Call} (h : CallDrawsOn source c)
include h

theorem appendFinding?_gives : Gives (appendFinding? lines c) (Finding.DrawsOn source) := by
  unfold appendFinding?
  split
  · next table value _ args =>
    have texts := h.2
    rw [args] at texts
    exact .some ⟨.literal rfl, by simp_all⟩
  · exact .none

theorem lengthFinding?_gives : Gives (lengthFinding? lines c) (Finding.DrawsOn source) := by
  have texts := h.2
  unfold lengthFinding?
  dsimp only
  split
  iterate 2
    · next args =>
      rw [args] at texts
      exact .some ⟨.literal rfl, by simp_all⟩
  · exact .none

theorem powerFinding?_gives : Gives (powerFinding? lines c) (Finding.DrawsOn source) := by
  have texts := h.2
  unfold powerFinding?
  dsimp only
  split
  · next args =>
    rw [args] at texts
    split
    · exact .some ⟨.literal rfl, by simp_all⟩
    · split
      · split
        · exact .some ⟨.literal rfl, by simp_all⟩
        · exact .none
      · exact .none
  · exact .none

end

theorem debugFinding?_gives (c : Call) : Gives (debugFinding? lines c) (Finding.DrawsOn source) := by
  unfold debugFinding?
  split
  · exact .some ⟨.literal rfl, by simp⟩
  · exact .none

/-! ## Findings about functions -/

theorem mem_callsByFunction {g : ScopeId × List (String × List Call)}
    (hg : g ∈ callsByFunction scopes calls) {n : String × List Call} (hn : n ∈ g.2) :
    ∃ c ∈ calls, c.fullName = n.1 := by
  obtain ⟨g', hg', rfl⟩ := mem_map.mp hg
  obtain ⟨c, hc, named⟩ := (mem_groupOn hn).1
  exact ⟨c, (mem_groupOn hg').2 c hc, named⟩

theorem uncachedFindings_drawsOn {settings : Settings} (h : ∀ c ∈ calls, CallDrawsOn source c) :
    ∀ f ∈ uncachedFindings settings scopes calls, f.DrawsOn source := by
  intro f hf
  obtain ⟨g, hg, found⟩ := mem_filterMap.mp hf
  obtain ⟨scope, -, found⟩ := Option.bind_eq_some_iff.mp found
  unfold uncachedFinding? at found
  dsimp only at found
  split at found
  · cases found
  · cases found
    have names : ∀ n ∈ uncachedGlobals settings scope g.2, DrawsOn source n.1.toList := by
      intro n hn
      obtain ⟨c, hc, named⟩ := mem_callsByFunction hg (mem_filter.mp hn).1
      exact named ▸ (h c hc).1
    exact ⟨.literal rfl, by simpa using names⟩

theorem repeatedPattern_drawsOn {name : String} (h : DrawsOn source name.toList) :
    DrawsOn source (repeatedPattern name).toList := by
  rw [repeatedPattern, String.toList_append, DrawsOn.append_iff]
  refine ⟨.literal rfl, ?_⟩
  rw [String.toList_ofList]
  intro c hc
  obtain ⟨d, hd, rfl⟩ := mem_map.mp hc
  split
  · exact .inr rfl
  · exact h d hd

theorem repeatedFindings_drawsOn {settings : Settings} (h : ∀ c ∈ calls, CallDrawsOn source c) :
    ∀ f ∈ repeatedFindings settings scopes calls, f.DrawsOn source := by
  intro f hf
  obtain ⟨g, hg, found⟩ := mem_flatMap.mp hf
  split at found
  · obtain ⟨n, hn, found⟩ := mem_filterMap.mp found
    unfold repeatedFinding? at found
    split at found
    · cases found
      obtain ⟨c, hc, named⟩ := mem_callsByFunction hg hn
      have name : DrawsOn source n.1.toList := named ▸ (h c (mem_filter.mp hc).1).1
      exact ⟨repeatedPattern_drawsOn name, by simpa using name⟩
    · cases found
  · cases found

theorem concatFindings_drawsOn {t : Tracker}
    (h : ∀ k ∈ t.concats, ∀ v, k.target = some v → DrawsOn source v.toList) :
    ∀ f ∈ concatFindings t, f.DrawsOn source := by
  intro f hf
  obtain ⟨g, hg, found⟩ := mem_filterMap.mp hf
  obtain ⟨first, -, rfl⟩ := Option.map_eq_some_iff.mp found
  have var : DrawsOn source g.1.2.toList := by
    obtain ⟨g', hg', rfl⟩ := mem_map.mp hg
    obtain ⟨x, hx, same⟩ := (mem_groupOn hg').1
    obtain ⟨k, hk, own⟩ := mem_filterMap.mp hx
    split at own
    · next target _ =>
      split at own
      · cases own
        exact same ▸ h k hk _ target
      · cases own
    · cases own
  exact ⟨.literal rfl, by simpa using var⟩

theorem nilAccessFinding_drawsOn {a : NilAccess} (h : DrawsOn source a.var.toList) :
    (nilAccessFinding lines a).DrawsOn source :=
  ⟨.literal rfl, by simpa [nilAccessFinding] using h⟩

theorem DeadCode.finding_drawsOn (d : DeadCode) : (d.finding lines).DrawsOn source := by
  refine ⟨?_, ?_⟩
  · show DrawsOn source ("dead_code_" ++ d.kind.name).toList
    rw [String.toList_append, DrawsOn.append_iff]
    refine ⟨.literal rfl, ?_⟩
    cases d.kind <;> exact .literal rfl
  · unfold DeadCode.finding
    cases d.kind <;> simp

end LuaTune.Rules

namespace LuaTune

open Text Lua Analysis Rules

variable {source : Chars}

section

variable {a : Analyzed} {settings : Settings} (h : a.tracker.DrawsOn source)
include h

theorem callDrawsOn_of_mem {c : Call} (hc : c ∈ a.tracker.calls) : CallDrawsOn source c := by
  have word (s : String) (hs : s = c.fullName ∨ s ∈ textsOf c.args) : Text.DrawsOn source s.toList :=
    h s (mem_words.mpr (.inl ⟨c, hc, hs⟩))
  exact ⟨word _ (.inl rfl), fun s hs => word s (.inr hs)⟩

theorem findings_drawsOn : ∀ f ∈ a.findings settings, f.DrawsOn source ∨ f.IsAdvice := by
  intro f hf
  have drawn {c : Call} (hc : c ∈ a.tracker.calls) := callDrawsOn_of_mem h hc
  obtain ⟨k, made⟩ : ∃ k, f.MadeOf a settings k := ⟨_, Finding.madeOf f hf⟩
  cases made with
  | form c hc rule =>
    rcases rule with append | length | power
    · exact .inl (appendFinding?_gives (drawn hc) f append)
    · exact .inl (lengthFinding?_gives (drawn hc) f length)
    · exact .inl (powerFinding?_gives (drawn hc) f power)
  | globals found => exact .inl (uncachedFindings_drawsOn (fun c hc => drawn hc) f found)
  | repeated found => exact .inl (repeatedFindings_drawsOn (fun c hc => drawn hc) f found)
  | lengths notes none => exact .inr (.inr ⟨notes.pattern, none⟩)
  | concat found =>
    refine .inl (concatFindings_drawsOn (fun k hk v target => ?_) f found)
    exact h v (mem_words.mpr (.inr (.inl ⟨k, hk, target⟩)))
  | debug c hc found => exact .inl (debugFinding?_gives c f found)
  | nilAccess u hu found =>
    refine .inl (found ▸ nilAccessFinding_drawsOn ?_)
    exact h _ (mem_words.mpr (.inr (.inr ⟨u, hu, rfl⟩)))
  | dead d hd found => exact .inl (found ▸ d.finding_drawsOn)
  | advice p hp notes => exact .inr (.inl (notes.pattern ▸ hp))

end

theorem analyzeSource_drawsOn {settings : Settings} {fs : List Finding}
    (h : analyzeSource settings source = .ok fs) : ∀ f ∈ fs, f.DrawsOn source ∨ f.IsAdvice := by
  rcases analyzeSource_cases h with none | ⟨c, t, parsed, visited, found⟩
  · rw [none]
    exact nofun
  · rw [← found]
    exact findings_drawsOn (drawsOn_of_visit parsed visited)

end LuaTune
