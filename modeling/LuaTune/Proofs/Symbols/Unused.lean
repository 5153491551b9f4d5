import LuaTune.Proofs.Symbols.Repeated

/-!
# Which globals are reported as unused

A survey reports a definition of a global as unused whether or not the name is read anywhere: only
callbacks of the platform and exported names are left out.
-/

namespace LuaTune.Lua

/-! ## Names that a script reads

A name that is called is read. A name that is assigned to, declared or given to a function is not,
nor is the name of a field. The syntax has `{[f] = 1}` as it has `{f = 1}`, so a bare name in brackets
that is the key of a field is taken for the name of the field: that read is not counted. -/

mutual

def Expr.reads : Expr → List String
  | .name id => [id.name]
  | .index .bracket base key => base.reads ++ key.reads
  | .index _ base _ => base.reads
  | .call callee args _ => callee.reads ++ exprsRead args
  | .invoke source _ args => source.reads ++ exprsRead args
  | .function _ _ _ body => statsRead body
  | .table _ fields => fieldsRead fields
  | .binary _ left right => left.reads ++ right.reads
  | .unary _ _ operand => operand.reads
  | .nil _ | .bool _ _ | .number _ _ | .string _ _ _ | .varargs => []

def exprsRead : List Expr → List String
  | [] => []
  | e :: es => e.reads ++ exprsRead es

def fieldsRead : List Field → List String
  | [] => []
  | .mk (.name _) value :: fs => value.reads ++ fieldsRead fs
  | .mk key value :: fs => key.reads ++ value.reads ++ fieldsRead fs

def targetsRead : List Expr → List String
  | [] => []
  | .name _ :: es => targetsRead es
  | e :: es => e.reads ++ targetsRead es

def Stat.reads : Stat → List String
  | .assign _ _ targets values => targetsRead targets ++ exprsRead values
  | .localAssign _ _ values => exprsRead values
  | .expr e => e.reads
  | .whileLoop test body => test.reads ++ statsRead body
  | .repeatLoop body test => statsRead body ++ test.reads
  | .ifThen test body orelse => test.reads ++ statsRead body ++ orelse.reads
  | .numericFor _ bounds body => exprsRead bounds ++ statsRead body
  | .genericFor _ iterators body => exprsRead iterators ++ statsRead body
  | .function _ _ _ [] _ body => statsRead body
  | .function _ _ base _ _ body => base.name :: statsRead body
  | .method _ _ base _ _ _ body => base.name :: statsRead body
  | .localFunction _ _ _ _ body => statsRead body
  | .block body => statsRead body
  | .returnValues _ _ values => exprsRead values
  | .breakLoop | .goto _ | .label _ | .semicolon | .returnNothing _ _ => []

def statsRead : List Stat → List String
  | [] => []
  | s :: ss => s.reads ++ statsRead ss

def Orelse.reads : Orelse → List String
  | .none => []
  | .elseif test body orelse => test.reads ++ statsRead body ++ orelse.reads
  | .block body => statsRead body

end

def Chunk.reads (c : Chunk) : List String := statsRead c

end LuaTune.Lua

namespace LuaTune.Symbols

open Lua Files List

theorem mem_entries_scriptDefinitions {path : Path} {c : Chunk} {k : String} {d : Definition} :
    (k, d) ∈ (scriptDefinitions path c).entries ↔
      d ∈ c.walk.flatMap (nodeDefinitions path) ∧ k = d.key := by
  rw [(entries_scriptDefinitions path c).mem_iff, mem_flatMap, mem_flatMap, ← c.nodes_tree]
  simp only [Rose.mem_visited, recordedAt, entriesOf, mem_map, Prod.mk.injEq]
  grind

/-! ## The survey -/

def definitionsIn (t : Tree) (ps : List Path) : List Definition :=
  ps.flatMap fun p => ((parseFile? t p).map fun c => c.walk.flatMap (nodeDefinitions p)).getD []

def readIn (t : Tree) (ps : List Path) : List String :=
  ps.flatMap fun p => ((parseFile? t p).map Chunk.reads).getD []

/-- May the name of the definition be used by the platform or from outside? -/
def Definition.isExempt (d : Definition) : Bool := d.registers || d.exports

theorem mem_insertAll [BEq α] [LawfulBEq α] {x : α} (xs ys : List α) :
    x ∈ insertAll xs ys ↔ x ∈ xs ∨ x ∈ ys := by
  unfold insertAll
  induction ys generalizing xs with
  | nil => simp
  | cons y ys ih =>
    rw [foldl_cons, ih]
    by_cases h : xs.contains y
    · have : y ∈ xs := contains_iff_mem.mp h
      rw [if_pos h, mem_cons]
      grind
    · rw [if_neg h, mem_append, mem_singleton, mem_cons, or_assoc]

namespace Survey

variable {s : Survey} {ds : List Definition}

structure Knows (s : Survey) (ds : List Definition) : Prop where
  usages : s.usages = []
  definitions : ∀ k d, (k, d) ∈ s.definitions.entries ↔ d ∈ ds ∧ k = d.key
  callbacks : ∀ n, n ∈ s.callbacks ↔ ∃ d ∈ ds, d.registers ∧ d.name = n
  exported : ∀ n, n ∈ s.exported ↔ ∃ d ∈ ds, d.exports ∧ d.name = n

theorem knows_nothing : Knows {} [] where
  usages := rfl
  definitions := by simp [Index.entries]
  callbacks := by simp
  exported := by simp

theorem Knows.addDefinitions (h : s.Knows ds) (t : Tree) (p : Path) :
    (s.addDefinitions t p).Knows (ds ++ definitionsIn t [p]) := by
  unfold Survey.addDefinitions definitionsIn
  cases parse : parseFile? t p with
  | none =>
    simp only [flatMap_singleton, parse, Option.map_none, Option.getD_none, append_nil]
    exact ⟨h.usages, h.definitions, h.callbacks, h.exported⟩
  | some c =>
    simp only [flatMap_singleton, parse, Option.map_some, Option.getD_some]
    constructor
    · exact h.usages
    · intro k d
      rw [(Index.entries_append _ _).mem_iff, mem_append, h.definitions,
        mem_entries_scriptDefinitions, mem_append]
      tauto
    · intro n
      rw [mem_insertAll, h.callbacks, mem_map]
      grind
    · intro n
      rw [mem_insertAll, h.exported, mem_map]
      grind

theorem knows_firstPass (t : Tree) (ps : List Path) :
    (ps.foldl (Survey.addDefinitions t) {}).Knows (definitionsIn t ps) := by
  have run (s : Survey) (ds : List Definition) (h : s.Knows ds) :
      (ps.foldl (Survey.addDefinitions t) s).Knows (ds ++ definitionsIn t ps) := by
    induction ps generalizing s ds with
    | nil => simpa [definitionsIn] using h
    | cons p ps ih =>
      have step := ih _ _ (h.addDefinitions t p)
      have both : definitionsIn t (p :: ps) = definitionsIn t [p] ++ definitionsIn t ps := by
        simp [definitionsIn]
      rwa [append_assoc, ← both] at step
  exact run {} [] knows_nothing

theorem Knows.checkAgain (h : s.Knows ds) (t : Tree) (p : Path) : (s.checkAgain t p).Knows ds := by
  unfold Survey.checkAgain
  split
  · exact ⟨h.usages, h.definitions, h.callbacks, h.exported⟩
  · rwa [addNode_chunk]

theorem knows_ofFiles (t : Tree) (ps : List Path) : (ofFiles t ps).Knows (definitionsIn t ps) := by
  have run (qs : List Path) (s : Survey) (ds : List Definition) (h : s.Knows ds) :
      (qs.foldl (Survey.checkAgain t) s).Knows ds := by
    induction qs generalizing s with
    | nil => exact h
    | cons q qs ih => exact ih _ (h.checkAgain t q)
  exact run ps _ _ (knows_firstPass t ps)

theorem Knows.isUsed_iff (h : s.Knows ds) (name : String) :
    s.isUsed name ↔ ∃ d ∈ ds, d.isExempt ∧ d.name = name := by
  simp only [isUsed, h.usages, any_nil, Bool.false_or, Bool.or_eq_true, contains_iff_mem,
    h.callbacks, h.exported, Definition.isExempt]
  grind

end Survey

theorem Definition.key_of_reach {d : Definition} (h : d.kind.reach = "global") : d.key = d.name := by
  unfold Definition.key
  split
  · next kind => rw [kind] at h; exact absurd h (by decide)
  · rfl

/-- Of the globals that are defined, all are reported but those with the name of a callback of the
platform or of something exported. -/
theorem mem_unused_iff (t : Tree) (ps : List Path) (d : Definition) :
    d ∈ (Survey.ofFiles t ps).unused.toList ↔
      d ∈ definitionsIn t ps ∧ d.kind.reach = "global" ∧
        ¬∃ e ∈ definitionsIn t ps, e.isExempt ∧ e.name = d.name := by
  have known := Survey.knows_ofFiles t ps
  have reported : d ∈ (Survey.ofFiles t ps).unused.toList ↔
      ∃ k, (k, d) ∈ (Survey.ofFiles t ps).definitions.entries ∧
        ¬(Survey.ofFiles t ps).isUsed k ∧ d.kind.reach = "global" := by
    simp [Survey.unused_eq]
  rw [reported]
  constructor
  · rintro ⟨k, member, unused, reach⟩
    obtain ⟨defined, rfl⟩ := (known.definitions k d).mp member
    rw [Definition.key_of_reach reach, known.isUsed_iff] at unused
    exact ⟨defined, reach, unused⟩
  · rintro ⟨defined, reach, unused⟩
    refine ⟨d.key, (known.definitions _ d).mpr ⟨defined, rfl⟩, ?_, reach⟩
    rwa [Definition.key_of_reach reach, known.isUsed_iff]

/-- A report never names a global that is read exactly if all globals that are read have the name of
a callback or of something exported. A read as `{[f] = 1}` is not counted on either side. -/
theorem unused_unread_iff (t : Tree) (ps : List Path) :
    (∀ d ∈ (Survey.ofFiles t ps).unused.toList, d.name ∉ readIn t ps) ↔
      ∀ d ∈ definitionsIn t ps, d.kind.reach = "global" → d.name ∈ readIn t ps →
        ∃ e ∈ definitionsIn t ps, e.isExempt ∧ e.name = d.name := by
  constructor
  · intro sound d defined reach read
    by_contra free
    exact sound d ((mem_unused_iff t ps d).mpr ⟨defined, reach, free⟩) read
  · intro covered d member read
    obtain ⟨defined, reach, none⟩ := (mem_unused_iff t ps d).mp member
    exact none (covered d defined reach read)

/-- A function that is called on the next line is reported. -/
theorem unused_though_called :
    let t : Tree := ⟨[(["a.lua"], .file (.bytes (Text.bytesOfChars "function f() end\nf()\n".toList)))]⟩
    let p := Path.ofString "a.lua"
    ∃ d ∈ (Survey.ofFiles t [p]).unused.toList, d.name = "f" ∧ "f" ∈ readIn t [p] := by
  decide +kernel

end LuaTune.Symbols
