import SharpTokens.Grammar.Parser

/-!
# Nonterminals

Expressions, namespaces, members and statements contain each other to any depth. The parsers for
their parts are written over given parsers for these four, and the grammar closes the circle.

This module also holds what contains none of them: attributes, modifiers, types, type parameters and
constraints.
-/

namespace SharpTokens.Grammar

open Grammar.Parser

inductive Scope where
  /-- directly in a statement, an initializer or the body of a member -/
  | statement
  /-- in parentheses, brackets or the braces of an initializer -/
  | group
  /-- in the braces of a switch expression, where an arrow divides a pattern from its value -/
  | arms
  deriving DecidableEq, Repr

/-- The parsers that everything else is built on. -/
structure Nonterminals where
  /-- The lambdas and anonymous methods in an expression, which may be asked to end at a comma. -/
  expression : (toComma : Bool) → Scope → Parser (List Node)
  /-- A namespace, from its keyword on. -/
  namespaceDeclaration : Parser Node
  /-- A declaration of a type or member, or nothing if none starts ahead. -/
  member : Parser (Option Node)
  /-- A statement. -/
  statement : Parser Node

/-! ### Attributes and modifiers -/

def attributeStep (found : Array Node) : Parser (Step (Array Node)) := do
  if ← isAt .lbracket then
    let first ← here
    skipGroup
    return .more (found.push (← plain .attributeList first []))
  return .done found

def attributeLists : Parser (List Node) := do
  let found ← loop attributeStep #[]
  return found.toList

def modifierStep (found : Modifiers) : Parser (Step Modifiers) := do
  match ← peek with
  | some .staticKw =>
    bump
    return .more { found with isStatic := true }
  | some .readonlyKw =>
    bump
    return .more { found with isReadonly := true }
  | some .abstractKw =>
    bump
    return .more { found with isAbstract := true }
  | some k =>
    if k.isMemberModifier || (← look Words.isContextualModifier) then
      bump
      return .more found
    return .done found
  | none => return .done found

/-- The modifiers of a declaration, those that are also words of other kinds among them. -/
def modifiers : Parser Modifiers := loop modifierStep .none

/-! ### Types -/

/-- Takes a type if one starts ahead, and says whether one did. -/
def skipType : Parser Bool := do
  match ← lookWithin Words.typeEnd? with
  | some past =>
    moveTo past
    return true
  | none => return false

/-- Takes a type; if none starts ahead, that is a fault. -/
def expectType : Parser Unit := do
  unless ← skipType do
    expected .type

def typeParameterStep (depth : Nat) : Parser (Step Nat) := do
  match ← peek with
  | none => return .done depth
  | some .lbrace | some .rbrace | some .semi | some .lparen | some .arrow =>
    expected (.kind .gt)
    return .done depth
  | some k =>
    let depth := if k == .lt then depth + 1 else if k == .gt then depth - 1 else depth
    bump
    if depth = 0 then return .done depth else return .more depth

def typeParameters : Parser Unit := do
  if ← isAt .lt then
    let _ ← loop typeParameterStep 0

def constraintStep (_ : Unit) : Parser (Step Unit) := do
  if ← isAtContextual "where" then
    bump
    skipWhile fun ws i k =>
      !([.lbrace, .arrow, .semi, .rbrace].contains k || ws.isContextual i "where")
    return .more ()
  return .done ()

def constraints : Parser Unit := loop constraintStep ()

def typeHeader : Parser Unit :=
  skipGroupsWhile fun _ _ k =>
    !([.lbrace, .semi, .rbrace, .namespaceKw, .interfaceKw, .enumKw, .delegateKw, .modifier,
      .staticKw, .readonlyKw, .abstractKw, .externKw, .unsafeKw].contains k)

end SharpTokens.Grammar
