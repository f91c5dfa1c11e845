import SharpTokens.Directive.Region
import SharpTokens.Lexeme.Raw

/-!
# Lexemes of a source text

What the grammar reads: the lexemes of the text, without blanks, comments and directives, and
without whatever lies in a branch of a conditional that is not read. Directives take effect as the
text is gone through. Errors are kept beside the lexemes; in text that is not read there are none,
apart from those in directives themselves.

Pieces of the text are taken one after another with the regions that directives opened before them.
A directive counts only where nothing but blanks stands before it on its line; elsewhere it is an
error.
-/

namespace SharpTokens

open Text

structure Lexeme where
  kind : Kind
  text : String
  span : Span
  deriving DecidableEq, Repr

structure Lexed where
  lexemes : List Lexeme
  errors : List (SyntaxError × Span)
  deriving DecidableEq, Repr

namespace Lexed

/-- What an error is about, by how its text begins. -/
def blame : List Char → SyntaxError
  | '"' :: _ => .unterminated .string
  | '@' :: '"' :: _ => .unterminated .string
  | '$' :: '"' :: _ => .unterminated .string
  | '@' :: '@' :: '"' :: _ => .unterminated .string
  | '@' :: '$' :: '"' :: _ => .unterminated .string
  | '$' :: '@' :: '"' :: _ => .unterminated .string
  | '$' :: '$' :: '"' :: _ => .unterminated .string
  | '\'' :: _ => .unterminated .character
  | '/' :: '*' :: _ => .unterminated .comment
  | _ => .unknownCharacter

/-- Whether only blanks stand before a place on its line, given whether that holds before `c`. A
line starts after a line feed or a carriage return. -/
def lineStartAfter (before : Bool) (c : Char) : Bool :=
  c == '\n' || c == '\r' || (before && (isBlank c || c == '\ufeff'))

/-- How far a text has been gone through: the regions at this place, whether only blanks stand
before it on its line, and what was found. -/
structure Progress where
  regions : Regions
  lineStart : Bool
  lexemes : Array Lexeme
  errors : Array (SyntaxError × Span)

namespace Progress

def initial : Progress := ⟨.initial, true, #[], #[]⟩

def fail (p : Progress) (error : SyntaxError) (span : Span) : Progress :=
  { p with errors := p.errors.push (error, span) }

def failIfActive (p : Progress) (error : SyntaxError) (span : Span) : Progress :=
  if p.regions.isActive then p.fail error span else p

def direct (p : Progress) (raw : Raw) : Progress :=
  if p.lineStart then
    match p.regions.apply (Directive.parse (raw.text.drop 1)) with
    | .ok regions => { p with regions }
    | .error e => p.fail e raw.span
  else p.failIfActive .invalidDirective raw.span

def keep (p : Progress) (lexeme : Lexeme) : Progress :=
  if p.regions.isActive then { p with lexemes := p.lexemes.push lexeme } else p

def add (p : Progress) (raw : Raw) : Progress :=
  match raw.kind with
  | some .directive => p.direct raw
  | some kind => if kind.isTrivia then p else p.keep ⟨kind, String.ofList raw.text, raw.span⟩
  | none => p.failIfActive (blame raw.text) raw.span

def next (p : Progress) (raw : Raw) : Progress :=
  let lineStart := raw.text.foldl lineStartAfter p.lineStart
  { p.add raw with lineStart }

end Progress

/-- The lexemes and errors of a text. A conditional that is still open at its end is an error
there. -/
def ofText (text : List Char) : Lexed :=
  let p := (Raw.ofText text).foldl Progress.next .initial
  let p := if p.regions.stack.isEmpty then p
    else p.fail .unbalancedConditional (.point (byteSize text))
  ⟨p.lexemes.toList, p.errors.toList⟩

end Lexed

end SharpTokens
