import SharpTokens.Grammar.Member

/-!
# Whole texts

Namespaces and what stands at the top of a text: using directives, declarations and statements. Here
the nonterminals are given their parsers, by unfolding the grammar as often as the words can need.

The grammar is written over parsers for its nonterminals (`Nonterminals`), and here the knot is
tied: unfolded `n + 1` times, each nonterminal is its own parser over the grammar unfolded `n`
times. That this is as often as is needed is a theorem.

A namespace without braces takes in the rest of the text. At the top of a text a word that starts
neither a directive nor a declaration starts a statement.
-/

namespace SharpTokens.Grammar

open Grammar.Parser

/-- A using directive or an external alias, through its semicolon. -/
def usingDirective : Parser Node := do
  let first ← here
  if ← isAt .ident then
    bump
  bump
  skipWhile fun _ _ k =>
    !([.semi, .lbrace, .rbrace, .namespaceKw, .usingKw].contains k
      || (k != .staticKw && (k.isMemberModifier || k.isTypeKeyword)))
  let _ ← expect .semi
  plain .usingDirective first []

def dottedStep (first : Nat) (found : Node) : Parser (Step Node) := do
  if ← eat .dot then
    let second ← here
    let part ← name
    let right ← node .identifierName second (some part) .none []
    return .more (← plain .qualifiedName first [found, right])
  return .done found

/-- A dotted name, nested to the left: the first part is the innermost. -/
def qualifiedName : Parser Node := do
  let first ← here
  let start ← name
  loop (dottedStep first) (← node .identifierName first (some start) .none [])

namespace Nonterminals

variable (g : Nonterminals)

def namespaceMember : Parser (List Node) :=
  memberOrRecover do
    match ← peek with
    | some .namespaceKw => return some (← g.namespaceDeclaration)
    | some .semi =>
      bump
      return none
    | _ =>
      if ← look Words.startsUsing then
        return some (← usingDirective)
      g.member

/-- A member of a namespace that has no braces, in which a closing brace fits nowhere. -/
def restStep (found : Array Node) : Parser (Step (Array Node)) := do
  match ← peek with
  | none => return .done found
  | some .rbrace =>
    unexpected
    return .more found
  | some _ => return .more (found ++ (← g.namespaceMember))

/-- What follows the semicolon of a namespace that has no braces: the rest of the text. -/
def restOfFile : Parser (List Node) := do
  let found ← loop g.restStep #[]
  return found.toList

def namespaceBody : Parser Node := do
  let first ← here
  bump
  let name ← qualifiedName
  if ← eat .semi then
    plain .fileScopedNamespaceDeclaration first (name :: (← g.restOfFile))
  else
    let members ←
      if ← isAt .lbrace then deeper (braced fun _ => g.namespaceMember)
      else do
        expected (.kind .lbrace)
        pure []
    let _ ← eat .semi
    plain .namespaceDeclaration first (name :: members)

def topLevelItem : Parser (Option Node) := do
  match ← peek with
  | none | some .rbrace => return none
  | some k =>
    if k == .usingKw && (← lookWithin Words.usingIsStatement) then
      return some (← g.statement)
    else if ← look Words.startsUsing then
      return some (← usingDirective)
    else if k == .namespaceKw then
      return some (← g.namespaceDeclaration)
    else if ← look Words.startsMember then
      g.member
    else
      return some (← g.statement)

/-- One item at the top of a text. If there is none, the word ahead fits nowhere. -/
def unitStep (found : Array Node) : Parser (Step (Array Node)) := do
  match ← peek with
  | none => return .done found
  | some _ =>
    let before ← here
    let item ← g.topLevelItem
    if (← here) = before then
      unexpected
    return .more (found ++ item.toList)

def compilationUnit : Parser Node := do
  let found ← loop g.unitStep #[]
  plain .compilationUnit 0 found.toList

/-- The grammar unfolded `n` times. Unfolded no more, it reads nothing. -/
def unfolded : Nat → Nonterminals
  | 0 => {
      expression := fun _ _ => pure []
      namespaceDeclaration := do plain .skippedTokens (← here) []
      member := pure none
      statement := do plain .skippedTokens (← here) [] }
  | n + 1 => {
      expression := fun toComma scope input s => (unfolded n).expressionBody toComma scope input s
      namespaceDeclaration := fun input s => (unfolded n).namespaceBody input s
      member := fun input s => (unfolded n).memberDeclaration input s
      statement := fun input s => (unfolded n).statementBody input s }

end Nonterminals

structure Parsed where
  tree : Node
  faults : List Fault

/-- Reads the words of a text, with constructs nested up to a limit. From one nonterminal the
grammar comes to the next at most four times before it takes a word, so it is unfolded four times
for each. -/
def parse (words : Words) (limit : Limit) : Parsed :=
  let result := (Nonterminals.unfolded (4 * (words.size + 1))).compilationUnit
    ⟨words, limit⟩ .initial
  ⟨result.1, result.2.faults.toList⟩

end SharpTokens.Grammar
