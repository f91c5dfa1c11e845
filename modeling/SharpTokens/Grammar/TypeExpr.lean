import SharpTokens.Grammar.Word

/-!
# Types

A type is a built-in type, a name with type arguments at any of its segments, or a tuple; any number
of `?`, `*` and array ranks follow. Types are recognised without errors: where none ends, none
starts. Their arguments and tuple elements may nest up to a budget.

All functions give the index past what they recognise. `n` bounds the number of calls in a row.
-/

namespace SharpTokens.Grammar.Words

def pastCommas (ws : Words) : (n i : Nat) → Nat
  | 0, i => i
  | n + 1, i => if ws.is i .comma then pastCommas ws n (i + 1) else i

/-- Past the marks that may follow a type. An opening bracket counts only before a comma or a
closing bracket; then only commas may stand in between. -/
def typeSuffixes? (ws : Words) : (n i : Nat) → Option Nat
  | 0, _ => none
  | n + 1, i =>
    if ws.isAny i [.question, .star] then typeSuffixes? ws n (i + 1)
    else if ws.is i .lbracket && ws.isAny (i + 1) [.rbracket, .comma] then
      let j := ws.pastCommas (ws.size - i) (i + 1)
      if ws.is j .rbracket then typeSuffixes? ws n (j + 1) else none
    else some i

inductive TypePart where
  /-- a whole type -/
  | type
  /-- types divided by commas, up to the closing `>` -/
  | arguments
  /-- the dotted segments after a name -/
  | segments
  /-- types divided by commas, each with or without a name, up to the closing parenthesis; there are
  as many before them -/
  | elements (before : Nat)
  deriving DecidableEq, Repr

/-- Past a part of a type that starts at `i`. -/
def typePart? (ws : Words) : (n : Nat) → (part : TypePart) → (budget i : Nat) → Option Nat
  | 0, _, _, _ => none
  | n + 1, .type, budget, i =>
    match budget with
    | 0 => none
    | budget + 1 =>
      let past? :=
        match ws.kind? i with
        | some .predefinedType => some (i + 1)
        | some .voidKw => some (i + 1)
        | some .ident =>
          let name? :=
            if ws.is (i + 1) .colonColon then
              if ws.is (i + 2) .ident then some (i + 3) else none
            else some (i + 1)
          name?.bind fun j =>
            (if ws.is j .lt then typePart? ws n .arguments budget (j + 1) else some j).bind fun j =>
              typePart? ws n .segments budget j
        | some .lparen => typePart? ws n (.elements 0) budget (i + 1)
        | _ => none
      past?.bind (ws.typeSuffixes? (ws.size + 1))
  | n + 1, .arguments, budget, i =>
    (typePart? ws n .type budget i).bind fun j =>
      if ws.is j .comma then typePart? ws n .arguments budget (j + 1)
      else if ws.is j .gt then some (j + 1)
      else none
  | n + 1, .segments, budget, i =>
    if ws.is i .dot && ws.is (i + 1) .ident then
      (if ws.is (i + 2) .lt then typePart? ws n .arguments budget (i + 3) else some (i + 2)).bind
        fun j => typePart? ws n .segments budget j
    else some i
  | n + 1, .elements before, budget, i =>
    (typePart? ws n .type budget i).bind fun j =>
      let j := if ws.is j .ident then j + 1 else j
      if ws.is j .comma then typePart? ws n (.elements (before + 1)) budget (j + 1)
      else if ws.is j .rparen && before != 0 then some (j + 1)
      else none

/-- Calls in a row that suffice from `i` on: each part of a type is looked for at a word of its own,
apart from the first and last of each kind. -/
def typeFuel (ws : Words) (i : Nat) : Nat := 3 * (ws.size - i) + 3

/-- Past the type that starts at `i`, where types may nest up to `limit`. -/
def typeEnd? (ws : Words) (limit i : Nat) : Option Nat :=
  ws.typePart? (ws.typeFuel i) .type (limit + 1) i

/-- Past the type arguments whose opening `<` is at `i`. -/
def typeArgumentsEnd? (ws : Words) (limit i : Nat) : Option Nat :=
  ws.typePart? (ws.typeFuel i) .arguments limit (i + 1)

end SharpTokens.Grammar.Words
