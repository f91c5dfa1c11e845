import SharpTokens.Grammar.Group
import SharpTokens.Grammar.TypeExpr

/-!
# Looking ahead

Where the grammar has to choose, it looks at the words ahead. These functions only look: each is
decided by the words and an index.

A function that looks for something which can be arbitrarily far away is given a bound, for which
the number of words left is enough. Those that depend on types are also given the limit that types
nest within.
-/

namespace SharpTokens.Grammar.Words

/-! ### Directives and declarations

Attributes and modifiers come before a word that tells what is declared. Some modifiers are decisive
by themselves, as no statement starts with them. The others may also start a statement, so the look
goes on behind them. -/

def startsUsing (ws : Words) (i : Nat) : Bool :=
  match ws.kind? i with
  | some .usingKw => true
  | some .externKw => ws.isContextual (i + 1) "alias"
  | some .ident => ws.text i == "global" && ws.is (i + 1) .usingKw
  | _ => false

/-- Whether the `using` at `i` starts a statement: it is followed by a parenthesis, or by a type and
a name. -/
def usingIsStatement (ws : Words) (limit i : Nat) : Bool :=
  if ws.is (i + 1) .lparen then true
  else if ws.is (i + 1) .staticKw then false
  else (ws.typeEnd? limit (i + 1)).any (ws.is · .ident)

/-- Past the closed groups in brackets that start at `i`; none if one is not closed. -/
def pastAttributes? (ws : Words) : (n i : Nat) → Option Nat
  | 0, i => some i
  | n + 1, i =>
    if ws.is i .lbracket then (ws.groupEnd? i).bind (pastAttributes? ws n) else some i

/-- Whether a record is declared at `i`: the word may also be a name of something else. -/
def startsRecord (ws : Words) (i : Nat) : Bool :=
  ws.isContextual i "record" && ws.isAny (i + 1) [.ident, .classKw, .structKw]

/-- Whether the modifiers from `i` on lead to a declaration of a type or member. -/
def leadsToMember (ws : Words) : (n i : Nat) → Bool
  | 0, _ => false
  | n + 1, i =>
    match ws.kind? i with
    | some .modifier | some .abstractKw | some .readonlyKw | some .externKw => true
    | some .staticKw | some .unsafeKw | some .newKw => leadsToMember ws n (i + 1)
    | some .classKw | some .structKw | some .interfaceKw | some .enumKw | some .eventKw => true
    | some .delegateKw => !ws.isAny (i + 1) [.lparen, .lbrace]
    | some .ident =>
      if ws.text i == "record" then ws.isAny (i + 1) [.ident, .classKw, .structKw]
      else if ["partial", "file", "required"].contains (ws.text i) then leadsToMember ws n (i + 1)
      else false
    | _ => false

/-- Whether a declaration of a type or member starts at `i`, and not a statement. -/
def startsMember (ws : Words) (i : Nat) : Bool :=
  (ws.pastAttributes? (ws.size - i) i).any fun j => ws.leadsToMember (ws.size - j) j

/-- Whether the identifier at `i` is a modifier, by what follows it. -/
def isContextualModifier (ws : Words) (i : Nat) : Bool :=
  ws.is i .ident && ["partial", "async", "required", "file"].contains (ws.text i)
    && match ws.kind? (i + 1) with
      | some .ident | some .voidKw | some .predefinedType | some .lparen => true
      | some .eventKw | some .constKw | some .implicitKw | some .explicitKw | some .tilde => true
      | some k => k.isMemberModifier || k.isTypeKeyword
      | none => false

def isScoped (ws : Words) (i : Nat) : Bool :=
  ws.isContextual i "scoped" && ws.isAny (i + 1) [.ident, .predefinedType, .refKw]

/-! ### Variables

A type, a name, and what ends a name that is declared. -/

def endsDeclarator (ws : Words) (i : Nat) : Bool := ws.isAny i [.eq, .comma, .semi]

/-- The index past a type at `i` that is followed by a name. The word `await` on its own is no type
here. -/
def typeBeforeName? (ws : Words) (limit i : Nat) : Option Nat :=
  (ws.typeEnd? limit i).filter fun j =>
    ws.is j .ident && !(j == i + 1 && ws.text i == "await")

def typeBeforeVariable? (ws : Words) (limit i : Nat) : Option Nat :=
  (ws.typeBeforeName? limit i).filter fun j => ws.endsDeclarator (j + 1)

/-! ### Lambdas

A parenthesis starts the parameters of a lambda if an arrow follows where it closes. Before an arrow
nothing may come that a list of parameters cannot hold. -/

/-- Whether the parenthesis that is open to `depth` before `i` closes right before an arrow. -/
def closesBeforeArrow (ws : Words) : (n depth i : Nat) → Bool
  | 0, _, _ => false
  | n + 1, depth, i =>
    match ws.kind? i with
    | none => false
    | some .lparen => closesBeforeArrow ws n (depth + 1) (i + 1)
    | some .rparen =>
      if depth ≤ 1 then ws.is (i + 1) .arrow else closesBeforeArrow ws n (depth - 1) (i + 1)
    | some .semi | some .lbrace | some .rbrace | some .arrow => false
    | some _ => closesBeforeArrow ws n depth (i + 1)

def startsParameters (ws : Words) (i : Nat) : Bool := ws.closesBeforeArrow (ws.size - i) 0 i

/-- Whether a lambda starts at `i`, with or without its modifiers. -/
def leadsToLambda (ws : Words) : (n i : Nat) → Bool
  | 0, _ => false
  | n + 1, i =>
    match ws.kind? i with
    | some .ident =>
      ws.is (i + 1) .arrow || (ws.text i == "async" && leadsToLambda ws n (i + 1))
    | some .staticKw => leadsToLambda ws n (i + 1)
    | some .lparen => ws.startsParameters i
    | _ => false

def isLambdaModifier (ws : Words) (i : Nat) : Bool :=
  (ws.is i .staticKw || ws.isContextual i "async") && ws.leadsToLambda (ws.size - i) (i + 1)

/-! ### Expressions

Where a semicolon is missing, what follows is often a declaration. It is taken for one if it could
not go on with the expression. In a query two names may follow one another, which is why its words
are listed. -/

/-- Words that start a clause of a query, in which two names may follow each other. -/
def queryWords : List String := [
  "from", "where", "select", "group", "by", "into", "orderby", "join", "let", "on", "equals",
  "ascending", "descending"]

def followsOperand (ws : Words) : (i : Nat) → Bool
  | 0 => false
  | i + 1 =>
    match ws.kind? i with
    | some .ident | some .number | some .string | some .char | some .rparen | some .rbracket
    | some .thisKw => true
    | some .keyword => ["true", "false", "null"].contains (ws.text i)
    | _ => false

/-- Whether a type, a name and what may follow it start at `i`, outside a query. -/
def startsVariable (ws : Words) (limit i : Nat) : Bool :=
  (ws.typeEnd? limit i).any fun j =>
    ws.is j .ident && ws.endsDeclarator (j + 1)
      && !queryWords.contains (ws.text i) && !queryWords.contains (ws.text j)

/-- Whether a declaration starts at `i`, so that an expression which began at `start` lacks its
semicolon. -/
def missesSemicolon (ws : Words) (limit start i : Nat) : Bool :=
  match ws.kind? i with
  | some .classKw | some .structKw | some .interfaceKw | some .enumKw | some .namespaceKw
  | some .constKw | some .eventKw => true
  | some .staticKw => !ws.isLambdaModifier i
  | some .newKw => false
  | some .ident | some .predefinedType =>
    decide (start < i) && ws.followsOperand i && ws.startsVariable limit i
  | some k => k.isMemberModifier
  | none => false

/-- Whether what stands at `i` may follow type arguments in an expression; otherwise the `<` before
them was a comparison. -/
def followsTypeArguments (ws : Words) (i : Nat) : Bool :=
  match ws.kind? i with
  | none => true
  | some .lparen | some .rparen | some .rbracket | some .rbrace | some .semi | some .comma
  | some .dot | some .question | some .colon | some .arrow => true
  | some .eq => ws.is (i + 1) .eq && ws.touchesNext i
  | some .punct => ws.text i == "!" && ws.is (i + 1) .eq && ws.touchesNext i
  | _ => false

def typeArgumentsInExpression? (ws : Words) (limit i : Nat) : Option Nat :=
  (ws.typeArgumentsEnd? limit i).filter ws.followsTypeArguments

end SharpTokens.Grammar.Words
