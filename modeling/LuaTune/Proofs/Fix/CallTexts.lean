import LuaTune.Proofs.Analysis.Records
import LuaTune.Proofs.Fix.Straight
import LuaTune.Proofs.Lua.Placed

/-!
# The text of a call

A call of `module.func` with parentheses is the text from the token of the module to the closing
parenthesis.
-/

namespace LuaTune.Lua

open Text Grammar

variable {source : Chars} {t : Token}

theorem form_of_mem (h : t ∈ scan source) :
    ∃ (q : Cursor) (c : Char) (cs rest : Chars), t = q.token t.kind (c :: cs) ∧
      TokenForm c cs rest t.kind := by
  obtain ⟨ts, us, tokens⟩ := List.append_of_mem h
  obtain ⟨-, c, cs, rest, q, -, -, found, same, -⟩ := scanFrom_cut tokens
  exact ⟨q, c, cs, rest, same, tokenForm found⟩

theorem identifier_of_mem (h : t ∈ scan source) (name : t.kind = .name) :
    ∃ (q : Cursor) (n : Identifier), t = q.token .name n.text := by
  obtain ⟨q, c, cs, rest, same, form⟩ := form_of_mem h
  rw [name] at same form
  cases form with
  | name start goesOn free => exact ⟨q, ⟨c, cs, start, goesOn, free⟩, same⟩

theorem spelling_of_form {c : Char} {cs rest : Chars} {s : Symbol} (h : TokenForm c cs rest (.symbol s)) :
    ∃ text, (s, text) ∈ Symbol.all ∧ text.toList = c :: cs := by
  cases h with
  | symbol listed spelled => exact ⟨_, listed, spelled⟩

end LuaTune.Lua

namespace LuaTune.Fix

open Lua Grammar Analysis Text List

variable {source : Chars}

theorem not_mem_name {t : Token} {d : Char} (h : t ∈ scan source) (name : t.kind = .name)
    (hd : isNameChar d = false) : d ∉ t.name.toList := by
  obtain ⟨q, n, rfl⟩ := identifier_of_mem h name
  rw [Token.name, String.toList_ofList]
  exact n.not_mem hd

theorem append_cons_inj {c : Char} {xs ys xs' ys' : Chars} (hx : c ∉ xs) (hx' : c ∉ xs')
    (h : xs ++ c :: ys = xs' ++ c :: ys') : xs = xs' ∧ ys = ys' := by
  have length : xs.length = xs'.length := by
    have first := Text.findChar?_append hx ys
    rw [h, Text.findChar?_append hx'] at first
    exact (Option.some.inj first).symm
  obtain ⟨rfl, more⟩ := append_inj h length
  exact ⟨rfl, (List.cons.inj more).2⟩

theorem callee_of_fullName (module func : String) {callee : Expr} {module? : Option String}
    {fn : String} {before : List Token} (sub : before ⊆ scan source) (named : callee.NamedIn before)
    (name : Tracker.calleeName? callee = some (module?, fn, module ++ "." ++ func))
    (plain : '.' ∉ module.toList) :
    ∃ form m f, callee = .index form (.name (identAt m)) (.name (identAt f)) ∧ m ∈ before ∧
      m.kind = .name ∧ m.text = module.toList ∧ f ∈ before ∧ f.kind = .name ∧ f.text = func.toList := by
  unfold Tracker.calleeName? at name
  split at name
  · next id =>
    obtain ⟨t, ht, kind, rfl⟩ := named
    have full : t.name = module ++ "." ++ func := congrArg (·.2.2) (Option.some.inj name)
    refine absurd ?_ (not_mem_name (sub ht) kind (d := '.') (by decide))
    rw [full]
    simp
  · next form mid fid =>
    obtain ⟨⟨m, hm, mkind, rfl⟩, ⟨f, hf, fkind, rfl⟩⟩ := named
    have full : m.name ++ "." ++ f.name = module ++ "." ++ func :=
      congrArg (·.2.2) (Option.some.inj name)
    have texts : m.text ++ '.' :: f.text = module.toList ++ '.' :: func.toList := by
      have := congrArg String.toList full
      simpa [Token.name] using this
    have point := not_mem_name (sub hm) mkind (d := '.') (by decide)
    rw [Token.name, String.toList_ofList] at point
    obtain ⟨hmodule, hfunc⟩ := append_cons_inj point plain texts
    exact ⟨form, m, f, rfl, hm, mkind, hmodule, hf, fkind, hfunc⟩
  · cases name

theorem node_of_dottedName {tree : Chunk} {lines : List Chars} {t : Tracker} {c : Call}
    (parsed : Chunk.parse? source = some tree) (visited : visitChunk tree lines = .ok t)
    (hc : c ∈ t.calls) (plain : ':' ∉ c.fullName.toList) :
    ∃ callee last, c.node = .call callee c.args last ∧
      Tracker.calleeName? callee = some (c.module, c.func, c.fullName) ∧
      (Node.expr (.call callee c.args last)).CallIn (scan source) := by
  have names := (calls_isTrue visited c hc).names
  have place := Chunk.callsIn parsed _ (node_mem_walk visited c hc)
  cases node : c.node with
  | call callee args last =>
    rw [node] at names place
    obtain ⟨name, rfl⟩ := names
    exact ⟨callee, last, rfl, name, place⟩
  | invoke base method args =>
    rw [node] at names
    refine absurd ?_ plain
    rw [names.1]
    simp
  | nil | bool | number | string | varargs | name | index | function | table | binary | unary =>
    rw [node] at names
    cases names

theorem exprSpan_dotted {m close : Token} (h : m ∈ scan source) (name : m.kind = .name)
    (form : IndexForm) (key : Expr) (args : List Expr) :
    exprSpan source (.call (.index form (.name (identAt m)) key) args (some close)) =
      (some m.start, some (close.stop + 1)) := by
  obtain ⟨q, n, rfl⟩ := identifier_of_mem h name
  have paren : looksLikeParen
      (Expr.index form (.name (identAt (q.token .name n.text))) key).first = false := by
    cases form with
    | declared => rfl
    | dot | bracket => exact looksLikeParen_name q n
  rw [exprSpan, callSpan, paren]
  rfl

end LuaTune.Fix
