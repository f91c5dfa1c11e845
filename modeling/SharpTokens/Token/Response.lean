import SharpTokens.Json.Reader
import SharpTokens.Json.Writer
import SharpTokens.Token.Basic
import SharpTokens.Token.Legend

/-!
# Answers and legends as JSON

The answer to a request is a list of tokens. If they could not be found there are none, and the
answer says why; an answer without tokens that says nothing is about a text without declarations.
-/

namespace SharpTokens

/-! ### Tokens

A token is an object with five numbers, all of which have to be there and to be words. -/

namespace Token

def keys : List String := ["Line", "StartChar", "Length", "TokenType", "TokenModifiers"]

def toJson (t : Token) : Json :=
  .object [
    (some "Line", .natural t.line.toNat),
    (some "StartChar", .natural t.start.toNat),
    (some "Length", .natural t.length.toNat),
    (some "TokenType", .natural t.type.toNat),
    (some "TokenModifiers", .natural t.modifiers.toNat)]

/-- The token that a JSON value is. It has all its fields. -/
def ofJson? (json : Json) : Option Token :=
  match json.fields? keys with
  | some [some line, some start, some length, some type, some modifiers] => do
    return ⟨← line.asWord?, ← start.asWord?, ← length.asWord?, ← type.asWord?,
      ← modifiers.asWord?⟩
  | _ => none

end Token

/-! ### Answers

The error may be left out or be null when an answer is read. -/

structure Response where
  tokens : List Token
  error : Option String
  deriving DecidableEq, Repr

namespace Response

def ofTokens (tokens : List Token) : Response := ⟨tokens, none⟩

/-- The answer that there are none, and why. -/
def degraded (reason : String) : Response := ⟨[], some reason⟩

def isDegraded (r : Response) : Bool := r.error.isSome

def toJson (r : Response) : Json :=
  .object ((some "Tokens", .array (r.tokens.map Token.toJson)) ::
    (r.error.map fun e => (some "Error", Json.text e)).toList)

def errorOfJson? : Option Json → Option (Option String)
  | none | some .null => some none
  | some (.text reason) => some (some reason)
  | _ => none

def ofJson? (json : Json) : Option Response :=
  match json.fields? ["Tokens", "Error"] with
  | some [some tokens, error] => do
    return ⟨← (← tokens.asArray?).mapM Token.ofJson?, ← errorOfJson? error⟩
  | _ => none

def render (r : Response) : Bytes := r.toJson.render .compact

def parse? (bytes : Bytes) : Option Response := (Json.parse? bytes).bind ofJson?

end Response

/-! ### Legends

Names that make no legend are refused. -/

namespace Legend

def namesToJson (names : List String) : Json := .array (names.map Json.text)

def namesOfJson? (json : Json) : Option (List String) := do (← json.asArray?).mapM Json.asText?

def toJson (l : Legend) : Json :=
  .object [(some "tokenTypes", namesToJson l.types),
    (some "tokenModifiers", namesToJson l.modifiers)]

/-- The legend that a JSON value is. Its names have to make one. -/
def ofJson? (json : Json) : Option Legend :=
  match json.fields? ["tokenTypes", "tokenModifiers"] with
  | some [some types, some modifiers] => do
    (ofNames (← namesOfJson? types) (← namesOfJson? modifiers)).toOption
  | _ => none

def render (l : Legend) (layout : Json.Layout) : Bytes := l.toJson.render layout

def parse? (bytes : Bytes) : Option Legend := (Json.parse? bytes).bind ofJson?

end Legend

end SharpTokens
