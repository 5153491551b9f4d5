import LuaTune.Text.Chars

/-! # Pieces of text -/

namespace LuaTune.Text

/-! ## Searching in text -/

def stripPrefix? : Chars → Chars → Option Chars
  | [], cs => some cs
  | _ :: _, [] => none
  | p :: ps, c :: cs => if p = c then stripPrefix? ps cs else none

theorem stripPrefix?_eq_some {p cs rest : Chars} :
    stripPrefix? p cs = some rest ↔ cs = p ++ rest := by
  induction p generalizing cs with
  | nil => simp [stripPrefix?]
  | cons c p ih =>
    cases cs with
    | nil => simp [stripPrefix?]
    | cons d cs =>
      by_cases h : c = d
      · simp [stripPrefix?, h, ih]
      · simp [stripPrefix?, h, Ne.symm h]

def startsWith (cs p : Chars) : Bool := (stripPrefix? p cs).isSome

theorem startsWith_iff {cs p : Chars} : startsWith cs p ↔ p <+: cs := by
  unfold startsWith
  rw [Option.isSome_iff_exists]
  exact exists_congr fun rest => stripPrefix?_eq_some.trans eq_comm

def endsWith (cs p : Chars) : Bool := startsWith cs.reverse p.reverse

theorem endsWith_iff {cs p : Chars} : endsWith cs p ↔ p <:+ cs := by
  unfold endsWith
  rw [startsWith_iff, List.reverse_prefix]

def find? (p : Chars) : Chars → Option Nat
  | [] => if p.isEmpty then some 0 else none
  | c :: cs => if startsWith (c :: cs) p then some 0 else (find? p cs).map (· + 1)

theorem find?_eq_some {p cs : Chars} {n : Nat} (h : find? p cs = some n) :
    ∃ xs ys, cs = xs ++ p ++ ys ∧ n = xs.length := by
  induction cs generalizing n with
  | nil =>
    rw [find?] at h
    split at h
    · next none =>
      cases h
      exact ⟨[], [], by simpa using none.symm, rfl⟩
    · cases h
  | cons c cs ih =>
    rw [find?] at h
    split at h
    · next starts =>
      cases h
      obtain ⟨ys, whole⟩ := startsWith_iff.mp starts
      exact ⟨[], ys, whole.symm, rfl⟩
    · obtain ⟨m, found, rfl⟩ := Option.map_eq_some_iff.mp h
      obtain ⟨xs, ys, rfl, rfl⟩ := ih found
      exact ⟨c :: xs, ys, rfl, rfl⟩

theorem find?_append_of_not_mem {c : Char} {p xs : Chars} (ys : Chars) (h : c ∉ xs) :
    find? (c :: p) (xs ++ ys) = (find? (c :: p) ys).map (· + xs.length) := by
  induction xs with
  | nil => simp
  | cons x xs ih =>
    rw [List.mem_cons, not_or] at h
    obtain ⟨other, rest⟩ := h
    have start : startsWith (x :: (xs ++ ys)) (c :: p) = false := by
      simp [startsWith, stripPrefix?, other]
    rw [List.cons_append, find?, start, if_neg Bool.false_ne_true, ih rest, Option.map_map]
    rfl

def findFrom? (p : Chars) (start : Nat) (cs : Chars) : Option Nat :=
  if start ≤ cs.length then (find? p (cs.drop start)).map (· + start) else none

def contains (cs p : Chars) : Bool := (find? p cs).isSome

theorem contains_of_once {c : Char} {p xs ys : Chars} (hx : c ∉ xs) (hy : c ∉ ys) :
    contains (xs ++ c :: ys) (c :: p) = startsWith ys p := by
  have nowhere : find? (c :: p) ys = none := by
    have := find?_append_of_not_mem (p := p) [] hy
    rwa [List.append_nil] at this
  have start : startsWith (c :: ys) (c :: p) = startsWith ys p := by
    simp [startsWith, stripPrefix?]
  rw [contains, find?_append_of_not_mem _ hx, find?, start, nowhere]
  cases startsWith ys p <;> rfl

def findChar? (c : Char) (cs : Chars) : Option Nat := cs.findIdx? (· == c)

theorem findChar?_eq_none {c : Char} {cs : Chars} (h : c ∉ cs) : findChar? c cs = none := by
  rw [findChar?, List.findIdx?_eq_none_iff]
  exact fun d hd => beq_eq_false_iff_ne.mpr fun same => h (same ▸ hd)

theorem findChar?_append {c : Char} {xs : Chars} (h : c ∉ xs) (ys : Chars) :
    findChar? c (xs ++ c :: ys) = some xs.length := by
  have none := findChar?_eq_none h
  unfold findChar? at none ⊢
  rw [List.findIdx?_append, none, List.findIdx?_cons]
  simp

def findLastChar? (c : Char) : Chars → Option Nat
  | [] => none
  | d :: ds =>
    match findLastChar? c ds with
    | some n => some (n + 1)
    | none => if d = c then some 0 else none

theorem findLastChar?_eq_none {c : Char} {cs : Chars} (h : c ∉ cs) : findLastChar? c cs = none := by
  induction cs with
  | nil => rfl
  | cons d cs ih =>
    rw [List.mem_cons, not_or] at h
    rw [findLastChar?, ih h.2]
    exact if_neg (Ne.symm h.1)

theorem findLastChar?_append {c : Char} (xs : Chars) {ys : Chars} (h : c ∉ ys) :
    findLastChar? c (xs ++ c :: ys) = some xs.length := by
  induction xs with
  | nil =>
    rw [List.nil_append, findLastChar?, findLastChar?_eq_none h]
    exact if_pos rfl
  | cons x xs ih =>
    rw [List.cons_append, findLastChar?, ih]
    rfl

def replaceFirst (p r cs : Chars) : Chars :=
  match find? p cs with
  | some n => cs.take n ++ r ++ cs.drop (n + p.length)
  | none => cs

def slice (cs : Chars) (a b : Nat) : Chars := (cs.drop a).take (b - a)

theorem slice_of_eq {cs front text rest : Chars} (h : front ++ text ++ rest = cs) :
    slice cs front.length (front.length + text.length) = text := by
  subst h
  simp [slice]

def countChar (c : Char) (cs : Chars) : Nat := cs.count c

/-!
## Word boundaries

A boundary lies between a word character and anything else, the ends of the text included.
-/

def isBoundary (before after : Option Char) : Bool :=
  before.any isWordChar != after.any isWordChar

/-- Does some tail of the text, the empty one included, satisfy `p`? `before` is the character in
front of the text, and `p` is given the one in front of the tail. -/
def anyTail (p : Option Char → Chars → Bool) (before : Option Char) : Chars → Bool
  | [] => p before []
  | c :: cs => p before (c :: cs) || anyTail p (some c) cs

def wordAt? (word : Chars) (before : Option Char) (cs : Chars) : Option Chars :=
  match stripPrefix? word cs with
  | some rest =>
    let last := word.getLast?.or before
    if isBoundary before cs.head? && isBoundary last rest.head? then some rest else none
  | none => none

def hasWord (word : Chars) (before : Option Char) (cs : Chars) : Bool :=
  anyTail (fun b t => (wordAt? word b t).isSome) before cs

def someBlanks? (cs : Chars) : Option Chars :=
  if cs.head?.any isBlank then some (stripLeft cs) else none

/-!
## Quoted text

Single quotes are used, unless the text holds some and no double ones.
-/

def isHidden (c : Char) : Bool :=
  let n := c.toNat
  n < 0x20 || (0x7f ≤ n && n ≤ 0xa0) || n == 0xad || n == 0x61c || n == 0x6dd || n == 0x70f
    || (0x600 ≤ n && n ≤ 0x605) || n == 0x1680 || n == 0x180e || (0x2000 ≤ n && n ≤ 0x200f)
    || (0x2028 ≤ n && n ≤ 0x202f) || (0x205f ≤ n && n ≤ 0x206f) || n == 0x3000
    || (0xe000 ≤ n && n ≤ 0xf8ff) || n == 0xfeff || (0xfff0 ≤ n && n ≤ 0xfffb) || 0xe0000 ≤ n

def hexText (width n : Nat) : Chars :=
  let ds := Nat.toDigits 16 n
  List.replicate (width - ds.length) '0' ++ ds

def quotedChar (quote c : Char) : Chars :=
  if c = quote ∨ c = '\\' then ['\\', c]
  else if c = '\n' then ['\\', 'n']
  else if c = '\r' then ['\\', 'r']
  else if c = '\t' then ['\\', 't']
  else if isHidden c then
    let n := c.toNat
    if n < 0x100 then '\\' :: 'x' :: hexText 2 n
    else if n < 0x10000 then '\\' :: 'u' :: hexText 4 n
    else '\\' :: 'U' :: hexText 8 n
  else [c]

def quoted (cs : Chars) : Chars :=
  let quote := if cs.contains '\'' && !cs.contains '"' then '"' else '\''
  quote :: cs.flatMap (quotedChar quote) ++ [quote]

/-!
## Lines

`splitOn` cuts at one character and keeps the empty piece at the end; it numbers lines the way the
parser does. `lines` cuts at every line boundary, drops the boundaries and has no empty last line.
-/

def splitOn (sep : Char) : Chars → List Chars
  | [] => [[]]
  | c :: cs =>
    if c = sep then [] :: splitOn sep cs
    else
      match splitOn sep cs with
      | [] => [[c]]
      | l :: ls => (c :: l) :: ls

abbrev newlineLines (cs : Chars) : List Chars := splitOn '\n' cs

/-- The characters that end a line, besides the pair of return and newline. -/
def isLineBreak (c : Char) : Bool :=
  let n := c.toNat
  (10 ≤ n && n ≤ 13) || (28 ≤ n && n ≤ 30) || n == 0x85 || n == 0x2028 || n == 0x2029

def linesFrom (line : Chars) : Chars → List Chars
  | [] => if line.isEmpty then [] else [line.reverse]
  | '\r' :: '\n' :: cs => line.reverse :: linesFrom [] cs
  | c :: cs => if isLineBreak c then line.reverse :: linesFrom [] cs else linesFrom (c :: line) cs

/-- The lines of a text without their ends; a text that ends with a line break has no further
empty line. -/
def lines (cs : Chars) : List Chars := linesFrom [] cs

def unifyNewlines : Chars → Chars
  | [] => []
  | '\r' :: '\n' :: cs => '\n' :: unifyNewlines cs
  | c :: cs => (if c = '\r' then '\n' else c) :: unifyNewlines cs

theorem splitOn_ne_nil (sep : Char) (cs : Chars) : splitOn sep cs ≠ [] := by
  cases cs with
  | nil => simp [splitOn]
  | cons c cs =>
    rw [splitOn]
    split
    · simp
    · split <;> simp

theorem of_mem_splitOn {sep : Char} {cs : Chars} : ∀ l ∈ splitOn sep cs, l ⊆ cs ∧ sep ∉ l := by
  induction cs with
  | nil => simp [splitOn]
  | cons c cs ih =>
    have behind : ∀ l ∈ splitOn sep cs, l ⊆ c :: cs ∧ sep ∉ l := fun l hl =>
      ⟨List.subset_cons_of_subset c (ih l hl).1, (ih l hl).2⟩
    rw [splitOn]
    split
    · exact List.forall_mem_cons.mpr ⟨⟨List.nil_subset _, List.not_mem_nil⟩, behind⟩
    · next other =>
      split
      · simpa [eq_comm] using other
      · next l ls pieces =>
        rw [pieces, List.forall_mem_cons] at ih behind
        refine List.forall_mem_cons.mpr ⟨⟨List.cons_subset_cons c ih.1.1, ?_⟩, behind.2⟩
        simpa [eq_comm, ih.1.2] using other

end LuaTune.Text
