import SharpTokens.Grammar.Expression

/-!
# Statements

Statements matter for the variables, local functions and lambdas in them. Those that start with a
keyword are told apart by it; of the others, what starts with a type and a name is a declaration.

A declaration of variables starts with a type, and so may an expression. The look for a type
decides, with what follows the name behind it. Where it says no, the modifiers that were passed over
are read again as part of the expression.
-/

namespace SharpTokens.Grammar.Nonterminals

open Grammar.Parser

variable (g : Nonterminals)

def embedded : Parser Node := deeperNode g.statement

def tryVariables : Parser (Option Node) := do
  match ← lookWithin Words.typeBeforeVariable? with
  | some past =>
    let first ← here
    moveTo past
    return some (← g.declarators first (← name))
  | none => return none

def variablesOrExpression : Parser (List Node) := do
  match ← g.tryVariables with
  | some declared => return [declared]
  | none => g.expression false .statement

/-- The inside of parentheses with variables or an expression, and the closing one. -/
def resources : Parser (List Node) := do
  let found ← g.variablesOrExpression
  let _ ← expect .rparen
  return found

def typedVariables : Parser Node := do
  let first ← here
  expectType
  let declared ← g.declarators first (← name)
  let _ ← expect .semi
  return declared

/-! ### Statements with a keyword

Each is read behind its keyword and gives the nodes below the statement. A condition is a group of
its own, so whatever stands in it is read as an expression. -/

def conditional : Parser (List Node) := do
  let condition ← g.condition
  return condition ++ [← g.embedded]

def ifStatement : Parser (List Node) := do
  let found ← g.conditional
  if ← eat .elseKw then
    return found ++ [← g.embedded]
  return found

def doStatement : Parser (List Node) := do
  let body ← g.embedded
  let condition ← if ← expect .whileKw then g.condition else pure []
  let _ ← expect .semi
  return body :: condition

def forStatement : Parser (List Node) := do
  if ← expect .lparen then
    let start ← if ← isAt .semi then pure [] else g.variablesOrExpression
    let _ ← expect .semi
    let test ← g.expressionStatement
    let next ← g.expression false .statement
    let _ ← expect .rparen
    return start ++ test ++ next ++ [← g.embedded]
  return [← g.embedded]

def fixedStatement : Parser (List Node) := do
  let found ← if ← expect .lparen then g.resources else pure []
  return found ++ [← g.embedded]

def usingStatement (first : Nat) : Parser Node := do
  bump
  if ← eat .lparen then
    let found ← g.resources
    plain .statement first (found ++ [← g.embedded])
  else
    match ← g.tryVariables with
    | some declared =>
      let _ ← expect .semi
      plain .localDeclarationStatement first [declared]
    | none => plain .statement first (← g.expressionStatement)

/-- One handler after the block of `try`. Its variable does not count. -/
def catchStep (found : Array Node) : Parser (Step (Array Node)) := do
  if ← eat .catchKw then
    if ← isAt .lparen then
      skipGroup
    let filter ←
      if ← isAtContextual "when" then do
        bump
        g.condition
      else pure []
    return .more (found ++ filter ++ (← g.expectBlock))
  return .done found

def catchClauses : Parser (List Node) := do
  let found ← loop g.catchStep #[]
  return found.toList

def tryStatement : Parser (List Node) := do
  let body ← g.expectBlock
  let handlers ← g.catchClauses
  let last ← if ← eat .finallyKw then g.expectBlock else pure []
  return body ++ handlers ++ last

def caseLabel : Parser Unit := do
  skipGroupsWhile fun _ _ k => !([.colon, .semi, .rbrace].contains k)
  let _ ← expect .colon

def switchItem (k : Kind) : Parser (List Node) := do
  if k == .caseKw then
    bump
    caseLabel
    return []
  else if k == .defaultKw && (← look fun ws i => ws.is (i + 1) .colon) then
    bump
    bump
    return []
  else orUnexpected g.statement

def switchBlock : Parser (List Node) := do
  if ← isAt .lbrace then
    deeper (braced g.switchItem)
  else
    expected (.kind .lbrace)
    return []

/-! ### Declarations and expressions

Labels, `yield` and `await` are told by the word and the one behind it. A statement of which no word
is taken is a fault. -/

def isLocalModifier (ws : Words) (i : Nat) (k : Kind) : Bool :=
  [.staticKw, .unsafeKw, .externKw].contains k
    || (ws.isContextual i "async" && ws.isAny (i + 1) [.ident, .predefinedType, .voidKw])

def localModifierStep (found : Modifiers) : Parser (Step Modifiers) := do
  match ← look fun ws i => (ws.kind? i).filter (isLocalModifier ws i) with
  | some k =>
    bump
    return .more (if k == .staticKw then { found with isStatic := true } else found)
  | none => return .done found

def localModifiers : Parser Modifiers := loop localModifierStep .none

def skipRef : Parser Unit := do
  if ← eat .refKw then
    let _ ← eat .readonlyKw
  if ← look Words.isScoped then
    bump
    let _ ← eat .refKw

def localFunction (first : Nat) (modifiers : Modifiers) : Parser Node := do
  let name ← name
  typeParameters
  let parameters ← g.expectParameters
  constraints
  let body ← g.memberBody
  node .localFunctionStatement first (some name) modifiers (parameters ++ body)

def bareExpression (first start : Nat) : Parser Node := do
  moveTo start
  let found ← g.expression false .statement
  if (← here) = start then
    unexpected
  else
    let _ ← expect .semi
  plain .statement first found

def variableOrExpression (first : Nat) : Parser Node := do
  let start ← here
  let modifiers ← localModifiers
  skipRef
  let typeStart ← here
  match ← lookWithin Words.typeBeforeName? with
  | some past =>
    if ← look fun ws _ => ws.endsDeclarator (past + 1) then
      moveTo past
      let declared ← g.declarators typeStart (← name)
      let _ ← expect .semi
      plain .localDeclarationStatement first [declared]
    else if ← look fun ws _ => ws.isAny (past + 1) [.lparen, .lt] then
      moveTo past
      g.localFunction first modifiers
    else g.bareExpression first start
  | none => g.bareExpression first start

/-- A statement without a keyword of its own, which started at `first`. -/
def declarationOrExpression (first : Nat) : Parser Node := do
  if ← look fun ws i => ws.is i .ident && ws.is (i + 1) .colon then
    bump
    bump
    let labelled ← if ← isAt .rbrace then pure [] else pure [← g.embedded]
    plain .statement first labelled
  else if ← look fun ws i => ws.isContextual i "yield" && ws.isAny (i + 1)
    [.returnKw, .breakKw] then
    bump
    bump
    plain .statement first (← g.expressionStatement)
  else if ← look fun ws i => ws.isContextual i "await" && ws.is (i + 1) .usingKw then
    bump
    g.usingStatement first
  else if ← look fun ws i => ws.isContextual i "await" && ws.is (i + 1) .foreachKw then
    bump
    g.statement
  else g.variableOrExpression first

/-! ### Statements

By the kind of the word ahead. A word that can only go on with another statement, such as `else`, is
passed over as a statement of its own. -/

def afterKeyword (first : Nat) (rest : Parser (List Node)) : Parser Node := do
  bump
  plain .statement first (← rest)

/-- A statement of none of the forms that a keyword or mark tells. -/
def otherStatement (first : Nat) : Parser Node := do
  if ← look Words.startsMember then
    match ← g.member with
    | some member => return member
    | none => plain .statement first []
  else g.declarationOrExpression first

def statementBody : Parser Node := do
  let first ← here
  match ← peek with
  | none | some .rbrace =>
    expected .statement
    plain .statement first []
  | some .lbrace => g.block
  | some .semi => afterKeyword first (pure [])
  | some .ifKw => afterKeyword first g.ifStatement
  | some .whileKw | some .lockKw | some .foreachKw => afterKeyword first g.conditional
  | some .doKw => afterKeyword first g.doStatement
  | some .switchKw =>
    afterKeyword first do
      let condition ← g.condition
      return condition ++ (← g.switchBlock)
  | some .forKw => afterKeyword first g.forStatement
  | some .usingKw => g.usingStatement first
  | some .fixedKw => afterKeyword first g.fixedStatement
  | some .tryKw => afterKeyword first g.tryStatement
  | some .returnKw | some .throwKw | some .gotoKw => afterKeyword first g.expressionStatement
  | some .breakKw | some .continueKw =>
    afterKeyword first do
      let _ ← expect .semi
      return []
  | some .constKw =>
    bump
    plain .localDeclarationStatement first [← g.typedVariables]
  | some .elseKw | some .caseKw | some .catchKw | some .finallyKw =>
    unexpected
    plain .statement first []
  | some .lbracket =>
    let attributes ← attributeLists
    let goesOn ← look fun ws i => (ws.kind? i).any (· != .rbrace)
    let rest ← if goesOn then pure [← g.statement] else pure []
    plain .statement first (attributes ++ rest)
  | some k =>
    if [.checkedKw, .uncheckedKw, .unsafeKw].contains k
        && (← look fun ws i => ws.is (i + 1) .lbrace) then
      afterKeyword first (do return [← g.block])
    else g.otherStatement first

end SharpTokens.Grammar.Nonterminals
