import SharpTokens.Grammar.Statement

/-!
# Types and their members

A declaration starts with attributes and modifiers. A keyword tells some of them apart; the others
start with a type, and what follows their name decides.

What was read of a declaration before it is known which one it is stands in a `Head`. Each parser of
a declaration is given the head and makes a node over it and over what follows, with the attributes
first. A declaration that breaks off behind its head leaves its attributes in a node of passed-over
words, so that no word is lost.

Nothing here is sure to take a word: where no declaration starts, the parser of declarations gives
nothing and the loop around it passes over a word with a fault (`memberOrRecover`).
-/

namespace SharpTokens.Grammar.Nonterminals

open Grammar.Parser

variable (g : Nonterminals)

/-- What was read of a declaration before its keyword or type: the word it started at, its
attributes and its modifiers. -/
structure Head where
  first : Nat
  attributes : List Node
  modifiers : Modifiers

namespace Head

def named (h : Head) (kind : NodeKind) (name : Name) (children : List Node) : Parser Node :=
  node kind h.first (some name) h.modifiers (h.attributes ++ children)

def unnamed (h : Head) (kind : NodeKind) (children : List Node) : Parser Node :=
  node kind h.first none h.modifiers (h.attributes ++ children)

/-- What is left of a declaration that breaks off. -/
def incomplete (h : Head) : Parser Node := plain .skippedTokens h.first h.attributes

end Head

def restartsMember (ws : Words) (i : Nat) (k : Kind) : Bool :=
  [.rbrace, .namespaceKw, .usingKw, .lbracket, .voidKw, .predefinedType, .eventKw, .constKw,
    .tilde].contains k
    || (k == .ident && ws.is (i + 1) .ident) || k.isMemberModifier || k.isTypeKeyword

/-- Skips a broken member: through a semicolon, or up to where the next one may start. -/
def recover : Parser Unit := do
  match ← peek with
  | none => pure ()
  | some k =>
    fault (.unexpected k)
    skipGroup
    skipGroupsWhile fun ws i k => !(k == .semi || restartsMember ws i k)
    let _ ← eat .semi

def memberOrRecover (p : Parser (Option Node)) : Parser (List Node) := do
  let before ← here
  let found ← p
  if (← here) = before then
    recover
  return found.toList

/-! ### Accessors

Accessors have no nodes of their own, only what is in their bodies. Any identifier may name one, and
modifiers and attributes before one are items of the list by themselves. -/

def accessorBody : Parser (List Node) := do
  match ← peek with
  | some .semi =>
    bump
    return []
  | some .lbrace => return [← g.block]
  | some .arrow =>
    bump
    g.expressionStatement
  | _ =>
    expected .semiOrBody
    return []

/-- An accessor, or attributes or a modifier before one. -/
def accessorItem (k : Kind) : Parser (List Node) := do
  if k == .lbracket then
    attributeLists
  else if k.isMemberModifier then
    bump
    return []
  else if k == .ident then
    bump
    g.accessorBody
  else
    fault (.unexpected k)
    skipGroup
    return []

def accessorList : Parser (List Node) := deeper (braced g.accessorItem)

/-- The body of a property: accessors or an arrow and an expression, then an initial value. -/
def propertyBody : Parser (List Node) := do
  let body ←
    match ← peek with
    | some .lbrace => g.accessorList
    | some .arrow =>
      bump
      g.expressionStatement
    | _ =>
      expected .accessorsOrArrow
      pure []
  let value ← if ← eat .eq then g.expressionStatement else pure []
  return body ++ value

/-! ### Types

The kinds of types differ in their keyword and in the kind of node. A record may have a second
keyword behind the first. Parameters are read behind the name of any of them. -/

def typeItem (k : Kind) : Parser (List Node) := do
  if k == .semi then
    bump
    return []
  else memberOrRecover g.member

def typeDeclaration (kind : NodeKind) (h : Head) : Parser Node := do
  bump
  if kind == .recordDeclaration then
    unless ← eat .classKw do
      let _ ← eat .structKw
  let name ← name
  typeParameters
  let parameters ← if ← isAt .lparen then pure [← g.parameterList .method] else pure []
  typeHeader
  let body ←
    match ← peek with
    | some .lbrace =>
      let members ← deeper (braced g.typeItem)
      let _ ← eat .semi
      pure members
    | some .semi =>
      bump
      pure []
    | _ =>
      expected (.kind .lbrace)
      pure []
  h.named kind name (parameters ++ body)

def enumMember : Parser Node := do
  let first ← here
  let attributes ← attributeLists
  let name ← name
  let value ← if ← eat .eq then g.expression true .statement else pure []
  node .enumMemberDeclaration first (some name) .none (attributes ++ value)

def enumItem (k : Kind) : Parser (List Node) := do
  if k == .comma then
    bump
    return []
  else if k == .lbracket || k == .ident then
    return [← g.enumMember]
  else
    unexpected
    return []

def enumDeclaration (h : Head) : Parser Node := do
  bump
  let name ← name
  typeHeader
  let body ←
    if ← isAt .lbrace then do
      let members ← deeper (braced g.enumItem)
      let _ ← eat .semi
      pure members
    else do
      expected (.kind .lbrace)
      pure []
  h.named .enumDeclaration name body

def delegateDeclaration (h : Head) : Parser Node := do
  bump
  expectType
  let name ← name
  typeParameters
  let parameters ← g.expectParameters
  constraints
  let _ ← expect .semi
  h.named .delegateDeclaration name parameters

/-! ### Names of members

A member that implements one of an interface is named by a dotted name, with arguments between the
parts. Its last part is the name that counts. Arguments that are not followed by a dot belong to the
method, and are left to it. -/

/-- The name of a member. An indexer or an operator of an explicit interface is named by its
keyword, which is then ahead. -/
inductive MemberName where
  | name (n : Name)
  | indexer
  | operator

def qualifierStep (found : MemberName) : Parser (Step MemberName) := do
  let past? ← lookWithin fun ws limit i =>
    if ws.is i .lt then (ws.typeArgumentsEnd? limit i).filter (ws.is · .dot) else some i
  match past? with
  | none => return .done found
  | some past =>
    moveTo past
    match ← look fun ws i => if ws.is i .dot then ws.kind? (i + 1) else none with
    | some .ident =>
      bump
      return .more (.name (← name))
    | some .thisKw =>
      bump
      return .done .indexer
    | some .operatorKw =>
      bump
      return .done .operator
    | _ => return .done found

/-- The rest of a name that may be qualified by an interface, where `last` is the part read
before. -/
def qualifiedMember (last : Name) : Parser MemberName := loop qualifierStep (.name last)

def memberName : Parser MemberName := do
  if ← isAt .ident then
    qualifiedMember (← name)
  else
    return .name (← name)

/-! ### Members

Of the members that start with a type, what follows the name decides. A constructor is told before,
by a name and a parenthesis, since its name may also be read as a type. -/

def eventDeclaration (h : Head) : Parser Node := do
  bump
  let typeStart ← here
  expectType
  let name ←
    match ← memberName with
    | .name n => pure n
    | .indexer | .operator =>
      expected (.kind .ident)
      missingName
  if ← isAt .lbrace then
    h.named .eventDeclaration name (← g.accessorList)
  else
    let declared ← g.declarators typeStart name
    let _ ← expect .semi
    h.unnamed .eventFieldDeclaration [declared]

def conversionOperator (h : Head) : Parser Node := do
  bump
  let _ ← expect .operatorKw
  let _ ← eat .checkedKw
  expectType
  let parameters ← g.expectParameters
  let body ← g.memberBody
  h.unnamed .operatorDeclaration (parameters ++ body)

def destructor (h : Head) : Parser Node := do
  bump
  let name ← name
  let parameters ← g.expectParameters
  let body ← g.memberBody
  h.named .destructorDeclaration name (parameters ++ body)

def constructor (h : Head) : Parser Node := do
  bump
  let parameters ← g.parameterList .method
  let call ←
    if ← eat .colon then do
      if ← look fun ws i => ws.isAny i [.keyword, .thisKw] then
        bump
      g.condition
    else pure []
  let body ← g.memberBody
  h.unnamed .constructorDeclaration (parameters :: call ++ body)

def method (h : Head) (name : Name) : Parser Node := do
  typeParameters
  let parameters ← g.expectParameters
  constraints
  let body ← g.memberBody
  h.named .methodDeclaration name (parameters ++ body)

def operator (h : Head) : Parser Node := do
  bump
  let _ ← eat .checkedKw
  skipWhile fun _ _ k => !([.lparen, .lbrace, .rbrace, .semi].contains k)
  let parameters ← g.expectParameters
  let body ← g.memberBody
  h.unnamed .operatorDeclaration (parameters ++ body)

def indexer (h : Head) : Parser Node := do
  bump
  let parameters ←
    if ← isAt .lbracket then pure [← g.parameterList .indexer]
    else do
      expected (.kind .lbracket)
      pure []
  let body ← g.propertyBody
  h.unnamed .indexerDeclaration (parameters ++ body)

/-- A member with a type and a name, whose type started at `typeStart` and whose name was read. -/
def namedMember (h : Head) (typeStart : Nat) (name : Name) : Parser Node := do
  match ← peek with
  | some .lt | some .lparen => g.method h name
  | some .lbrace | some .arrow => h.named .propertyDeclaration name (← g.propertyBody)
  | _ =>
    let declared ← g.declarators typeStart name
    let _ ← expect .semi
    h.unnamed .fieldDeclaration [declared]

/-- A member that starts with a type or a name; nothing if neither starts ahead and nothing was read
before it. -/
def typedMember (h : Head) : Parser (Option Node) := do
  if ← look fun ws i => ws.is i .ident && ws.is (i + 1) .lparen then
    return some (← g.constructor h)
  if ← eat .refKw then
    let _ ← eat .readonlyKw
  let typeStart ← here
  if ← skipType then
    match ← peek with
    | some .operatorKw => return some (← g.operator h)
    | some .thisKw => return some (← g.indexer h)
    | some .ident =>
      match ← memberName with
      | .indexer => return some (← g.indexer h)
      | .operator => return some (← g.operator h)
      | .name n => return some (← g.namedMember h typeStart n)
    | _ =>
      expected (.kind .ident)
      return some (← h.incomplete)
  else if typeStart = h.first then
    return none
  else
    expected .type
    return some (← h.incomplete)

/-- A declaration of a type or member, or nothing if none starts ahead. -/
def memberDeclaration : Parser (Option Node) := do
  let first ← here
  let attributes ← attributeLists
  let h : Head := ⟨first, attributes, ← modifiers⟩
  match ← peek with
  | some .classKw => return some (← g.typeDeclaration .classDeclaration h)
  | some .structKw => return some (← g.typeDeclaration .structDeclaration h)
  | some .interfaceKw => return some (← g.typeDeclaration .interfaceDeclaration h)
  | some .enumKw => return some (← g.enumDeclaration h)
  | some .delegateKw => return some (← g.delegateDeclaration h)
  | some .namespaceKw => return some (← g.namespaceDeclaration)
  | some .eventKw => return some (← g.eventDeclaration h)
  | some .constKw =>
    bump
    return some (← h.unnamed .fieldDeclaration [← g.typedVariables])
  | some .implicitKw | some .explicitKw => return some (← g.conversionOperator h)
  | some .tilde => return some (← g.destructor h)
  | some _ =>
    if ← look Words.startsRecord then
      return some (← g.typeDeclaration .recordDeclaration h)
    g.typedMember h
  | none =>
    if (← here) = first then
      return none
    expected .declaration
    return some (← h.incomplete)

end SharpTokens.Grammar.Nonterminals
