import SharpTokens.Grammar.Nonterminal

/-!
# Expressions

An expression is gone through for the lambdas and anonymous methods in it; nothing else in it
declares a name that counts. It ends before a semicolon, before a bracket that it did not open, or
where a declaration shows that the semicolon is missing.

Operators are not told from operands, so there is no precedence and no tree of operations. What
matters of an expression is where it ends and which brackets, lambdas and anonymous methods are in
it.

Parameters and variables are here too, since their values are expressions and lambdas have
parameters.
-/

namespace SharpTokens.Grammar

open Grammar.Parser

inductive ParameterStyle where
  | method
  /-- in brackets -/
  | indexer
  /-- where types may be left out -/
  | lambda
  deriving DecidableEq, Repr

def ParameterStyle.close : ParameterStyle → Kind
  | .indexer => .rbracket
  | .method | .lambda => .rparen

namespace Nonterminals

variable (g : Nonterminals)

/-! ### Blocks

A block is a construct of its own, so it nests. -/

def block : Parser Node :=
  deeperNode do
    let first ← here
    plain .block first (← braced fun _ => orUnexpected g.statement)

def expectBlock : Parser (List Node) := do
  if ← isAt .lbrace then
    return [← g.block]
  expected (.kind .lbrace)
  return []

/-! ### Parameters

The list ends at its closing bracket or where something shows that it is missing. A parameter of
which no word is taken is dropped with a fault for the word ahead. -/

def isParameterModifier (ws : Words) (i : Nat) (k : Kind) : Bool :=
  [.refKw, .outKw, .inKw, .paramsKw, .thisKw, .readonlyKw].contains k || ws.isScoped i

/-- The name of a parameter, after its type. With neither a type nor anything read before it, from
`first` on, there is no parameter. -/
def parameterName (first : Nat) : Parser Name := do
  if ← skipType then
    name
  else
    if (← here) ≠ first then
      expected .type
    missingName

/-- A parameter: attributes, modifiers, a type, a name and a default value. In a lambda the type may
be left out. -/
def parameter (style : ParameterStyle) : Parser Node := do
  let first ← here
  let attributes ← attributeLists
  skipWhile isParameterModifier
  let untyped ← look fun ws i =>
    style == .lambda && ws.is i .ident && ws.isAny (i + 1) [.comma, .rparen]
  let name ← if untyped then name else parameterName first
  let value ← if ← eat .eq then g.expression true .statement else pure []
  node .parameter first (some name) .none (attributes ++ value)

/-- A parameter, a comma or the closing bracket. A brace, a semicolon or an arrow shows that the
closing bracket is missing. -/
def parameterStep (style : ParameterStyle) (found : Array Node) : Parser (Step (Array Node)) := do
  match ← peek with
  | some k =>
    if k == style.close then
      bump
      return .done found
    else if [.lbrace, .rbrace, .semi, .arrow].contains k then
      expected (.kind style.close)
      return .done found
    else if k == .comma then
      bump
      return .more found
    else return .more (found ++ (← orUnexpected (g.parameter style)))
  | none =>
    expected (.kind style.close)
    return .done found

def parameterList (style : ParameterStyle) : Parser Node := do
  let first ← here
  bump
  let found ← loop (g.parameterStep style) #[]
  plain .parameterList first found.toList

def expectParameters : Parser (List Node) := do
  if ← isAt .lparen then
    return [← g.parameterList .method]
  expected (.kind .lparen)
  return []

/-! ### Variables

A node for each variable is put below one for all of them, which starts at their type. -/

/-- A variable whose name was taken: the size of a buffer and an initial value may follow. -/
def declarator (name : Name) : Parser Node := do
  if ← isAt .lbracket then
    skipGroup
  let value ← if ← eat .eq then g.expression true .statement else pure []
  node .variableDeclarator name.word (some name) .none value

def declaratorStep (found : Array Node) : Parser (Step (Array Node)) := do
  if ← eat .comma then
    return .more (found.push (← g.declarator (← name)))
  return .done found

/-- Variables of one type, whose first name was taken. -/
def declarators (first : Nat) (firstName : Name) : Parser Node := do
  let found ← loop g.declaratorStep #[← g.declarator firstName]
  plain .variableDeclaration first found.toList

/-! ### Parts of expressions

A group is an expression between brackets. In the arms of a `switch` expression an arrow does not
make a lambda of the word before it, so lambdas without modifiers are not looked for there. Angle
brackets are passed over as a whole if they can be type arguments, and otherwise are signs of
comparison. -/

def group (scope : Scope) : Parser (List Node) := do
  let close? : Option Kind :=
    match ← peek with
    | some .lparen => some .rparen
    | some .lbracket => some .rbracket
    | some .lbrace => some .rbrace
    | _ => none
  match close? with
  | none => return []
  | some close =>
    deeper do
      bump
      let found ← g.expression false scope
      let _ ← expect close
      return found

def condition : Parser (List Node) := do
  if ← isAt .lparen then
    g.group .group
  else
    expected (.kind .lparen)
    return []

/-- A lambda: modifiers, parameters or a single name, an arrow and a body. -/
def lambda : Parser Node :=
  deeperNode do
    let first ← here
    skipWhile fun ws i k =>
      k == .staticKw || (ws.isContextual i "async" && !ws.is (i + 1) .arrow)
    let parameters ←
      if ← isAt .lparen then g.parameterList .lambda
      else do
        let start ← here
        let name ← name
        node .parameter start (some name) .none []
    let _ ← expect .arrow
    let body ← if ← isAt .lbrace then pure [← g.block] else g.expression true .statement
    plain .lambdaExpression first (parameters :: body)

def anonymousMethod : Parser Node := do
  let first ← here
  bump
  let parameters ← if ← isAt .lparen then pure [← g.parameterList .method] else pure []
  let body ← g.expectBlock
  plain .anonymousMethodExpression first (parameters ++ body)

def expressionStep (scope : Scope) (k : Kind) : Parser (List Node) := do
  let lambdas := scope != .arms
  if k == .lparen then
    if lambdas && (← look Words.startsParameters) then
      return [← g.lambda]
    g.group .group
  else if k == .lbracket then
    g.group .group
  else if k == .lbrace then
    let arms ← look fun ws i => i != 0 && ws.is (i - 1) .switchKw
    g.group (if arms then .arms else .group)
  else if k == .lt then
    match ← lookWithin Words.typeArgumentsInExpression? with
    | some past => moveTo past
    | none => bump
    return []
  else if k == .ident && lambdas && (← look fun ws i => ws.is (i + 1) .arrow) then
    return [← g.lambda]
  else if (k == .ident || k == .staticKw) && (← look Words.isLambdaModifier) then
    return [← g.lambda]
  else if k == .delegateKw && (← look fun ws i => ws.isAny (i + 1) [.lparen, .lbrace]) then
    return [← g.anonymousMethod]
  else
    bump
    return []

/-- Whether an expression that began at `start` ends before the word ahead. -/
def expressionEnds (toComma : Bool) (scope : Scope) (start : Nat) (k : Kind) : Parser Bool := do
  if toComma && k == .comma then
    return true
  if scope == .statement && (← lookWithin (fun ws limit i => ws.missesSemicolon limit start i)) then
    return true
  return [.semi, .rparen, .rbracket, .rbrace].contains k

def scanStep (toComma : Bool) (scope : Scope) (start : Nat) (found : Array Node) :
    Parser (Step (Array Node)) := do
  match ← peek with
  | none => return .done found
  | some k =>
    if ← expressionEnds toComma scope start k then
      return .done found
    return .more (found ++ (← g.expressionStep scope k))

def expressionBody (toComma : Bool) (scope : Scope) : Parser (List Node) := do
  let start ← here
  let found ← loop (g.scanStep toComma scope start) #[]
  return found.toList

def expressionStatement : Parser (List Node) := do
  let found ← g.expression false .statement
  let _ ← expect .semi
  return found

/-! ### Bodies

Methods, operators, constructors and local functions have the same bodies. -/

/-- The body of a method: a block, an arrow and an expression, or a semicolon. -/
def memberBody : Parser (List Node) := do
  match ← peek with
  | some .lbrace => return [← g.block]
  | some .arrow =>
    bump
    g.expressionStatement
  | some .semi =>
    bump
    return []
  | _ =>
    expected .bodyOrSemi
    return []

end Nonterminals

end SharpTokens.Grammar
