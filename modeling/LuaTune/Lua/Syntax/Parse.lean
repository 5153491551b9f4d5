import LuaTune.Lua.Syntax

/-!
# Reading a script

Any name, index, call or expression in parentheses is a statement; a comparison has at most two
sides, and all binary bit operators share one level above multiplication; a call's opening
parenthesis may not stand on a new line.

The parsers take a bound on the depth of calls. `Chunk.ofTokens?` gives one that no script exceeds:
between two tokens taken there are fewer than twenty nested calls.
-/

namespace LuaTune.Lua.Grammar

abbrev Parser (α : Type) := List Token → Option (α × List Token)

/-! ## Operators -/

inductive Level where
  | or | and | relation | concat | sum | product | bits
deriving DecidableEq, Repr

def Level.next? : Level → Option Level
  | .or => some .and
  | .and => some .relation
  | .relation => some .concat
  | .concat => some .sum
  | .sum => some .product
  | .product => some .bits
  | .bits => none

def Level.operator? : Level → Kind → Option BinaryOp
  | .or, .keyword .or_ => some .or
  | .and, .keyword .and_ => some .and
  | .relation, .symbol .less => some .less
  | .relation, .symbol .greater => some .greater
  | .relation, .symbol .lessEqual => some .lessEqual
  | .relation, .symbol .greaterEqual => some .greaterEqual
  | .relation, .symbol .tildeEqual => some .notEqual
  | .relation, .symbol .equalEqual => some .equal
  | .concat, .symbol .dotDot => some .concat
  | .sum, .symbol .plus => some .add
  | .sum, .symbol .minus => some .subtract
  | .product, .symbol .star => some .multiply
  | .product, .symbol .slash => some .divide
  | .product, .symbol .percent => some .modulo
  | .product, .symbol .slashSlash => some .floorDivide
  | .bits, .symbol .ampersand => some .bitAnd
  | .bits, .symbol .bar => some .bitOr
  | .bits, .symbol .tilde => some .bitXor
  | .bits, .symbol .shiftRight => some .shiftRight
  | .bits, .symbol .shiftLeft => some .shiftLeft
  | _, _ => none

def unaryOp? : Kind → Option UnaryOp
  | .symbol .minus => some .negate
  | .symbol .hash => some .length
  | .keyword .not_ => some .not
  | .symbol .tilde => some .bitNot
  | _ => none

/-! ## Single tokens -/

def expect (k : Kind) : Parser Token
  | t :: ts => if t.kind = k then some (t, ts) else none
  | [] => none

abbrev symbol (s : Symbol) : Parser Token := expect (.symbol s)

abbrev keyword (k : Keyword) : Parser Token := expect (.keyword k)

def ident : Parser Ident := fun ts => do
  let (t, ts) ← expect .name ts
  return (⟨t.name, t⟩, ts)

def nextIs (k : Kind) : List Token → Bool
  | t :: _ => t.kind == k
  | [] => false

abbrev nextSymbol (s : Symbol) : List Token → Bool := nextIs (.symbol s)

abbrev nextKeyword (k : Keyword) : List Token → Bool := nextIs (.keyword k)

def startsExpr : List Token → Bool
  | t :: _ =>
    match t.kind with
    | .name | .number | .string => true
    | .keyword k => [.not_, .function_, .nil_, .true_, .false_].contains k
    | .symbol s => [.minus, .hash, .tilde, .openParen, .openBrace, .dots].contains s
  | [] => false

def lastTaken (before after : List Token) : Option Token :=
  (before.take (before.length - after.length)).getLast?

/-! ## Literals -/

def lastCloser? : Chars → Option Nat
  | [] => none
  | c :: cs =>
    match lastCloser? cs with
    | some n => some (n + 1)
    | none =>
      let level := runLength (· == '=') cs
      if c = ']' ∧ level > 0 ∧ (cs.drop level).head? = some ']' then some 0 else none

/-- The value of a string token, escapes untouched. A long bracket with equals signs has a value
of its own only if it is closed on its first line. -/
def stringValue (text : Chars) : Chars :=
  match text with
  | '[' :: '[' :: cs => cs.take (cs.length - 2)
  | '[' :: cs =>
    let body := cs.drop (runLength (· == '=') cs + 1)
    let line := body.takeWhile (· != '\n')
    match lastCloser? line with
    | some n => line.take n
    | none => text
  | _ :: cs => cs.take (cs.length - 1)
  | [] => []

/-! ## Names -/

def namesTail (separator : Symbol) : Nat → Parser (List Ident)
  | 0, _ => none
  | n + 1, ts =>
    if nextSymbol separator ts then do
      let (id, ts) ← ident (ts.drop 1)
      let (ids, ts) ← namesTail separator n ts
      return (id :: ids, ts)
    else some ([], ts)

def idents : Parser (List Ident) := fun ts => do
  let (id, rest) ← ident ts
  let (ids, rest) ← namesTail .comma (rest.length + 1) rest
  return (id :: ids, rest)

def paramsTail : Nat → Parser (List Param)
  | 0, _ => none
  | n + 1, ts =>
    if nextSymbol .comma ts then
      if nextSymbol .dots (ts.drop 1) then some ([.varargs], ts.drop 2)
      else do
        let (id, ts) ← ident (ts.drop 1)
        let (ps, ts) ← paramsTail n ts
        return (.name id :: ps, ts)
    else some ([], ts)

def params : Parser (List Param) := fun ts => do
  let (_, ts) ← symbol .openParen ts
  if nextSymbol .closeParen ts then return ([], ts.drop 1)
  else if nextSymbol .dots ts then do
    let (_, ts) ← symbol .closeParen (ts.drop 1)
    return ([.varargs], ts)
  else do
    let (id, ts) ← ident ts
    let (ps, ts) ← paramsTail (ts.length + 1) ts
    let (_, ts) ← symbol .closeParen ts
    return (.name id :: ps, ts)

/-! ## Expressions and statements -/

mutual

def chain : Nat → Level → Parser Expr
  | 0, _, _ => none
  | n + 1, l, ts => do
    let (left, ts) ← operand n l ts
    chainTail n l left ts

def operand : Nat → Level → Parser Expr
  | 0, _, _ => none
  | n + 1, l, ts =>
    match l.next? with
    | some l' => chain n l' ts
    | none => unary n ts

def chainTail : Nat → Level → Expr → Parser Expr
  | 0, _, _, _ => none
  | n + 1, l, left, ts =>
    match ts with
    | [] => some (left, [])
    | t :: rest =>
      match l.operator? t.kind with
      | none => some (left, ts)
      | some op => do
        let (right, rest) ← operand n l rest
        if l = .relation then return (.binary op left right, rest)
        else chainTail n l (.binary op left right) rest

def unary : Nat → Parser Expr
  | 0, _ => none
  | n + 1, ts =>
    match ts with
    | [] => none
    | t :: rest =>
      match unaryOp? t.kind with
      | none => power n ts
      | some op => do
        let (e, rest) ← (if op = .length then power n rest else unary n rest)
        return (.unary op t e, rest)

/-- Powers group to the left, and their operands have no operator of their own. -/
def power : Nat → Parser Expr
  | 0, _ => none
  | n + 1, ts => do
    let (e, ts) ← atom n ts
    powerTail n e ts

def powerTail : Nat → Expr → Parser Expr
  | 0, _, _ => none
  | n + 1, left, ts =>
    if nextSymbol .caret ts then do
      let (right, ts) ← atom n (ts.drop 1)
      powerTail n (.binary .power left right) ts
    else some (left, ts)

def atom : Nat → Parser Expr
  | 0, _ => none
  | n + 1, ts =>
    match ts with
    | [] => none
    | t :: rest =>
      match t.kind with
      | .name | .symbol .openParen => suffixed n ts
      | .keyword .function_ => do
        let (ps, body, last, rest) ← funcBody n rest
        return (.function t last ps body, rest)
      | .symbol .openBrace => do
        let (fs, rest) ← tableFields n 1 rest
        return (.table .absent fs, rest)
      | .symbol .dots => some (.varargs, rest)
      | .number => do
        let v ← Numeral.ofText? t.text
        return (.number v t, rest)
      | .string => some (.string (stringValue t.text) (.at t) t, rest)
      | .keyword .nil_ => some (.nil t, rest)
      | .keyword .true_ => some (.bool true t, rest)
      | .keyword .false_ => some (.bool false t, rest)
      | _ => none

def suffixed : Nat → Parser Expr
  | 0, _ => none
  | n + 1, ts =>
    if nextSymbol .openParen ts then do
      let (e, ts) ← chain n .or (ts.drop 1)
      let (_, ts) ← symbol .closeParen ts
      suffixes n e ts
    else do
      let (id, ts) ← ident ts
      suffixes n (.name id) ts

def suffixes : Nat → Expr → Parser Expr
  | 0, _, _ => none
  | n + 1, base, ts =>
    match ts with
    | [] => some (base, [])
    | t :: rest =>
      match t.kind with
      | .symbol .dot => do
        let (id, rest) ← ident rest
        suffixes n (.index .dot base (.name id)) rest
      | .symbol .openBracket => do
        let (key, rest) ← chain n .or rest
        let (_, rest) ← symbol .closeBracket rest
        suffixes n (.index .bracket base key) rest
      | .symbol .colon => do
        let (id, rest) ← ident rest
        match rest with
        | a :: rest =>
          match a.kind with
          | .symbol .openParen => do
            let (args, _, rest) ← arguments n rest
            suffixes n (.invoke base id args) rest
          | .symbol .openBrace => do
            let (fs, rest) ← tableFields n 1 rest
            suffixes n (.invoke base id [.table .absent fs]) rest
          | .string => suffixes n (.invoke base id [.string (stringValue a.text) .unreadable a]) rest
          | _ => none
        | [] => none
      | .symbol .openParen =>
        if t.afterBreak then none
        else do
          let (args, close, rest) ← arguments n rest
          suffixes n (.call base args (some close)) rest
      | .symbol .openBrace => do
        let (fs, rest) ← tableFields n 1 rest
        suffixes n (.call base [.table base.first fs] none) rest
      | .string => suffixes n (.call base [.string (stringValue t.text) base.first t] (some t)) rest
      | _ => some (base, ts)

def arguments : Nat → List Token → Option (List Expr × Token × List Token)
  | 0, _ => none
  | n + 1, ts =>
    match ts with
    | [] => none
    | t :: rest =>
      if t.kind = .symbol .closeParen then some ([], t, rest)
      else do
        let (es, ts) ← exprs n ts
        let (close, ts) ← symbol .closeParen ts
        return (es, close, ts)

def exprs : Nat → Parser (List Expr)
  | 0, _ => none
  | n + 1, ts => do
    let (e, ts) ← chain n .or ts
    if nextSymbol .comma ts then do
      let (es, ts) ← exprs n (ts.drop 1)
      return (e :: es, ts)
    else return ([e], ts)

def tableFields : Nat → Nat → Parser (List Field)
  | 0, _, _ => none
  | n + 1, k, ts =>
    if nextSymbol .closeBrace ts then some ([], ts.drop 1)
    else do
      let (f, k, ts) ← field n k ts
      if nextSymbol .comma ts || nextSymbol .semicolon ts then do
        let (fs, ts) ← tableFields n k (ts.drop 1)
        return (f :: fs, ts)
      else do
        let (_, ts) ← symbol .closeBrace ts
        return ([f], ts)

def field : Nat → Nat → List Token → Option (Field × Nat × List Token)
  | 0, _, _ => none
  | n + 1, k, ts =>
    if nextSymbol .openBracket ts then do
      let (key, ts) ← chain n .or (ts.drop 1)
      let (_, ts) ← symbol .closeBracket ts
      let (_, ts) ← symbol .equal ts
      let (value, ts) ← chain n .or ts
      return (.mk key value, k, ts)
    else if nextIs .name ts && nextSymbol .equal (ts.drop 1) then do
      let (id, ts) ← ident ts
      let (value, ts) ← chain n .or (ts.drop 1)
      return (.mk (.name id) value, k, ts)
    else do
      let (value, ts) ← chain n .or ts
      return (.mk (.number (.int k) none) value, k + 1, ts)

def funcBody : Nat → List Token → Option (List Param × List Stat × Token × List Token)
  | 0, _ => none
  | n + 1, ts => do
    let (ps, ts) ← params ts
    let (body, ts) ← block n ts
    let (last, ts) ← keyword .end_ ts
    return (ps, body, last, ts)

def block : Nat → Parser (List Stat)
  | 0, _ => none
  | n + 1, ts =>
    match ts with
    | [] => some ([], [])
    | t :: rest =>
      match t.kind with
      | .keyword .end_ | .keyword .else_ | .keyword .elseif_ | .keyword .until_ => some ([], ts)
      | .keyword .return_ => do
        if startsExpr rest then
          let (es, rest) ← exprs n rest
          let rest := if nextSymbol .semicolon rest then rest.drop 1 else rest
          return ([.returnValues t ((lastTaken ts rest).getD t) es], rest)
        else
          let rest := if nextSymbol .semicolon rest then rest.drop 1 else rest
          return ([.returnNothing t ((lastTaken ts rest).getD t)], rest)
      | _ => do
        let (s, ts) ← stat n ts
        let (ss, ts) ← block n ts
        return (s :: ss, ts)

def doBlock : Nat → Parser (List Stat)
  | 0, _ => none
  | n + 1, ts => do
    let (_, ts) ← keyword .do_ ts
    let (body, ts) ← block n ts
    let (_, ts) ← keyword .end_ ts
    return (body, ts)

def stat : Nat → Parser Stat
  | 0, _ => none
  | n + 1, ts =>
    match ts with
    | [] => none
    | t :: rest =>
      match t.kind with
      | .name | .symbol .openParen => do
        let (target, rest) ← suffixed n ts
        if nextSymbol .comma rest || nextSymbol .equal rest then do
          let (more, rest) ← targetsTail n rest
          let (_, rest) ← symbol .equal rest
          let (values, rest) ← exprs n rest
          return (.assign t ((lastTaken ts rest).getD t) (target :: more) values, rest)
        else return (.expr target, rest)
      | .keyword .while_ => do
        let (test, rest) ← chain n .or rest
        let (body, rest) ← doBlock n rest
        return (.whileLoop test body, rest)
      | .keyword .repeat_ => do
        let (body, rest) ← block n rest
        let (_, rest) ← keyword .until_ rest
        let (test, rest) ← chain n .or rest
        return (.repeatLoop body test, rest)
      | .keyword .local_ =>
        if nextKeyword .function_ rest then do
          let (id, rest) ← ident (rest.drop 1)
          let (ps, body, last, rest) ← funcBody n rest
          return (.localFunction t last id ps body, rest)
        else do
          let (ids, rest) ← idents rest
          if nextSymbol .equal rest then do
            let (values, rest) ← exprs n (rest.drop 1)
            return (.localAssign t ids values, rest)
          else return (.localAssign t ids [], rest)
      | .keyword .goto_ => do
        let (id, rest) ← ident rest
        return (.goto id, rest)
      | .keyword .if_ => do
        let (test, rest) ← chain n .or rest
        let (_, rest) ← keyword .then_ rest
        let (body, rest) ← block n rest
        let (orelse, rest) ← orelse n rest
        return (.ifThen test body orelse, rest)
      | .keyword .for_ =>
        if nextSymbol .equal (rest.drop 1) then do
          let (id, rest) ← ident rest
          let (bounds, rest) ← forBounds n (rest.drop 1)
          let (body, rest) ← doBlock n rest
          return (.numericFor id bounds body, rest)
        else do
          let (ids, rest) ← idents rest
          let (_, rest) ← keyword .in_ rest
          let (es, rest) ← exprs n rest
          let (body, rest) ← doBlock n rest
          return (.genericFor ids es body, rest)
      | .keyword .function_ => do
        let (base, rest) ← ident rest
        let (path, rest) ← namesTail .dot (rest.length + 1) rest
        if nextSymbol .colon rest then do
          let (name, rest) ← ident (rest.drop 1)
          let (ps, body, last, rest) ← funcBody n rest
          return (.method t last base path name ps body, rest)
        else do
          let (ps, body, last, rest) ← funcBody n rest
          return (.function t last base path ps body, rest)
      | .symbol .colonColon => do
        let (id, rest) ← ident rest
        let (_, rest) ← symbol .colonColon rest
        return (.label id, rest)
      | .keyword .do_ => do
        let (body, rest) ← doBlock n ts
        return (.block body, rest)
      | .keyword .break_ => some (.breakLoop, rest)
      | .symbol .semicolon => some (.semicolon, rest)
      | _ => none

def targetsTail : Nat → Parser (List Expr)
  | 0, _ => none
  | n + 1, ts =>
    if nextSymbol .comma ts then do
      let (e, ts) ← suffixed n (ts.drop 1)
      let (es, ts) ← targetsTail n ts
      return (e :: es, ts)
    else some ([], ts)

/-- Start, limit and step of a loop; the step may be missing even after its comma. -/
def forBounds : Nat → Parser (List Expr)
  | 0, _ => none
  | n + 1, ts => do
    let (start, ts) ← chain n .or ts
    let (_, ts) ← symbol .comma ts
    let (limit, ts) ← chain n .or ts
    if nextSymbol .comma ts then
      if startsExpr (ts.drop 1) then do
        let (step, ts) ← chain n .or (ts.drop 1)
        return ([start, limit, step], ts)
      else return ([start, limit], ts.drop 1)
    else return ([start, limit], ts)

def orelse : Nat → Parser Orelse
  | 0, _ => none
  | n + 1, ts =>
    match ts with
    | [] => none
    | t :: rest =>
      match t.kind with
      | .keyword .end_ => some (.none, rest)
      | .keyword .else_ => do
        let (body, rest) ← block n rest
        let (_, rest) ← keyword .end_ rest
        return (.block body, rest)
      | .keyword .elseif_ => do
        let (test, rest) ← chain n .or rest
        let (_, rest) ← keyword .then_ rest
        let (body, rest) ← block n rest
        let (more, rest) ← orelse n rest
        return (.elseif test body more, rest)
      | _ => none

end

end LuaTune.Lua.Grammar

namespace LuaTune.Lua

def Chunk.ofTokens? (ts : List Token) : Option Chunk :=
  match Grammar.block (20 * (ts.length + 2)) ts with
  | some (body, []) => some body
  | _ => none

def Chunk.parse? (source : Chars) : Option Chunk := Chunk.ofTokens? (scan source)

end LuaTune.Lua
