import SharpTokens.Grammar.Guard
import SharpTokens.Grammar.Lookahead

/-!
# Parsers

A parser reads words from a place on, notes faults and always gives a result. It moves forward only,
apart from `moveTo`, which goes to a place that was looked at before. Every repetition is bounded by
the number of words left, so no parser runs for ever.

The limit is on two things: on the constructs that the guard counts, and on the types that are
looked for. A text is read with one number for both; that they are kept apart, and the second one by
words, only serves to say which of them matters where.
-/

namespace SharpTokens.Grammar

/-- How deep constructs may nest, and types that are looked for from the word at an index on. When a
text is read, one number is the limit on both and at every word. -/
structure Limit where
  nesting : Nat
  types : Nat → Nat

instance : Coe Nat Limit := ⟨fun n => ⟨n, fun _ => n⟩⟩

instance (n : Nat) : OfNat Limit n := ⟨n⟩

/-- What a parser reads, and how deep it may nest. -/
structure Input where
  words : Words
  limit : Limit

/-- How far a parser has come: the word it is at, the constructs it is in, and the faults it
noted. -/
structure State where
  pos : Nat
  guard : Guard
  faults : Array Fault

def State.initial : State := ⟨0, .initial, #[]⟩

def Parser (α : Type) : Type := Input → State → α × State

namespace Parser

variable {α σ : Type}

instance : Monad Parser where
  pure a := fun _ s => (a, s)
  bind p f := fun input s =>
    match p input s with
    | (a, s) => f a input s

/-! ### Words

The word ahead is looked at by its kind or by a function of all words and the place. Nothing else
can be learned of the text. -/

def here : Parser Nat := fun _ s => (s.pos, s)

def look (f : Words → Nat → α) : Parser α := fun input s => (f input.words s.pos, s)

/-- Looks at the words from the one ahead on, with regard to the limit on types there. -/
def lookWithin (f : Words → (limit pos : Nat) → α) : Parser α :=
  fun input s => (f input.words (input.limit.types s.pos) s.pos, s)

def peek : Parser (Option Kind) := look Words.kind?

def isAt (k : Kind) : Parser Bool := look (·.is · k)

def isAtContextual (text : String) : Parser Bool := look (·.isContextual · text)

def moveTo (i : Nat) : Parser Unit := fun _ s => ((), { s with pos := i })

def bump : Parser Unit := fun _ s => ((), { s with pos := s.pos + 1 })

/-- Takes the word ahead if it is of a kind, and says whether it was. -/
def eat (k : Kind) : Parser Bool := do
  if ← isAt k then
    bump
    return true
  return false

/-- Takes the word ahead, or the group that it opens. -/
def skipGroup : Parser Unit := do moveTo (← look Words.pastGroup)

/-! ### Faults

A fault is noted at the word ahead. What goes wrong behind the last word is noted at the end of the
text. -/

def fault (cause : SyntaxError) : Parser Unit :=
  fun _ s => ((), { s with faults := s.faults.push ⟨cause, s.pos⟩ })

def expected (what : Expectation) : Parser Unit := do
  match ← peek with
  | some k => fault (.expected what k)
  | none => fault (.endOfFile what)

/-- Takes a word of a kind, or notes that it is not there. -/
def expect (k : Kind) : Parser Bool := do
  if ← eat k then
    return true
  expected (.kind k)
  return false

/-- Notes that the word ahead fits nowhere, and takes it. -/
def unexpected : Parser Unit := do
  match ← peek with
  | some k =>
    fault (.unexpected k)
    bump
  | none => pure ()

/-! ### Repetition

A step says whether there are more. The bound is the number of words left, so a step that says so
without taking a word does no harm either. -/

inductive Step (σ : Type) where
  | more (found : σ)
  | done (found : σ)

def repeatUpTo (step : σ → Parser (Step σ)) : (n : Nat) → σ → Parser σ
  | 0, found => pure found
  | n + 1, found => do
    match ← step found with
    | .more found => repeatUpTo step n found
    | .done found => pure found

/-- Repeats a step until it is done. Each step before the last one takes a word, so there is no need
for more steps than there are words. -/
def loop (step : σ → Parser (Step σ)) (found : σ) : Parser σ :=
  fun input s => repeatUpTo step (input.words.size - s.pos + 1) found input s

def skipStep (holds : Words → Nat → Kind → Bool) (_ : Unit) : Parser (Step Unit) := do
  match ← look fun ws i => (ws.kind? i).filter (holds ws i) with
  | some _ =>
    bump
    return .more ()
  | none => return .done ()

def skipWhile (holds : Words → Nat → Kind → Bool) : Parser Unit := loop (skipStep holds) ()

def skipGroupStep (holds : Words → Nat → Kind → Bool) (_ : Unit) : Parser (Step Unit) := do
  match ← look fun ws i => (ws.kind? i).filter (holds ws i) with
  | some _ =>
    skipGroup
    return .more ()
  | none => return .done ()

def skipGroupsWhile (holds : Words → Nat → Kind → Bool) : Parser Unit :=
  loop (skipGroupStep holds) ()

/-! ### Nodes

A node is labelled with the words it covers, as the words behind its last one are not known when it
starts. -/

/-- A node from the word at `first` to before the one ahead. -/
def node (kind : NodeKind) (first : Nat) (name : Option Name) (modifiers : Modifiers)
    (children : List Node) : Parser Node := do
  return .node ⟨kind, first, ← here, name, modifiers⟩ children

def plain (kind : NodeKind) (first : Nat) (children : List Node) : Parser Node :=
  node kind first none .none children

/-- Notes that a name is missing before the word ahead, without a fault. -/
def missingName : Parser Name := return .missing (← here)

/-- Takes an identifier as a name; if there is none, that is a fault. -/
def name : Parser Name := do
  let i ← here
  if ← isAt .ident then
    bump
    return .present i (← look fun ws _ => ws.text i)
  expected (.kind .ident)
  missingName

/-! ### Nesting

What is too deep is passed over as a group, with a fault, so that what follows it is read as usual.
-/

/-- Reads a construct one level deeper, or nothing if that is too deep. -/
def nested (p : Parser α) : Parser (Option α) := fun input s =>
  match s.guard.enter input.limit.nesting with
  | .error _ => (none, s)
  | .ok guard =>
    match p input { s with guard } with
    | (a, s) => (some a, { s with guard := s.guard.leave })

/-- Passes over a construct that is too deep. -/
def tooDeep : Parser Node := do
  let first ← here
  fault (.tooDeep (← fun input s => (input.limit.nesting, s)))
  skipGroup
  plain .skippedTokens first []

/-- The nodes of a construct one level deeper, which is passed over if that is too deep. -/
def deeper (p : Parser (List Node)) : Parser (List Node) := do
  match ← nested p with
  | some nodes => return nodes
  | none => return [← tooDeep]

def deeperNode (p : Parser Node) : Parser Node := do
  match ← nested p with
  | some node => return node
  | none => tooDeep

/-! ### Braces

Members, statements, accessors and values of enumerations stand between braces, and all of them are
read by one loop. -/

/-- Reads an item between braces, or the closing one. It may be missing at the end of the text,
which is a fault. -/
def bracedStep (item : Kind → Parser (List Node)) (found : Array Node) :
    Parser (Step (Array Node)) := do
  match ← peek with
  | none =>
    expected (.kind .rbrace)
    return .done found
  | some .rbrace =>
    bump
    return .done found
  | some k => return .more (found ++ (← item k))

def braced (item : Kind → Parser (List Node)) : Parser (List Node) := do
  bump
  let found ← loop (bracedStep item) #[]
  return found.toList

/-- Reads one of many nodes. If that takes no word, there is no node, and the word ahead fits
nowhere. -/
def orUnexpected (p : Parser Node) : Parser (List Node) := do
  let before ← here
  let found ← p
  if (← here) = before then
    unexpected
    return []
  return [found]

end Parser

end SharpTokens.Grammar
