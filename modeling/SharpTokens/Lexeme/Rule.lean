import SharpTokens.Pattern
import SharpTokens.Lexeme.Kind

/-!
# The shape of lexemes

Every kind of lexeme has its patterns. A rule pairs a pattern with what becomes of a text that
matches it: it is a lexeme of some kind, or it is refused. The rules stand in order of preference,
so that among rules that match the same text the first one counts: keywords and marks come before
identifiers.
-/

namespace SharpTokens

open Text (CharSet)

/-- What becomes of a text that a rule matches. -/
inductive Outcome where
  | accept (kind : Kind)
  | refuse
  deriving DecidableEq, Repr

structure Rule where
  outcome : Outcome
  pattern : Pattern
  deriving DecidableEq, Repr

namespace Rule

/-! ### Sets of characters

Each is a list of ranges, so that patterns can be compared and explored. -/

/-- Spaces, line breaks and the byte order mark. -/
def blanks : CharSet := ⟨[(0x09, 0x0D), (0x20, 0x20), (0x85, 0x85), (0xA0, 0xA0), (0x1680, 0x1680),
  (0x2000, 0x200A), (0x2028, 0x2029), (0x202F, 0x202F), (0x205F, 0x205F), (0x3000, 0x3000),
  (0xFEFF, 0xFEFF)]⟩

def beyondAscii : CharSet := ⟨[(0x80, 0x84), (0x86, 0x9F), (0xA1, 0x167F), (0x1681, 0x1FFF),
  (0x200B, 0x2027), (0x202A, 0x202E), (0x2030, 0x205E), (0x2060, 0x2FFF), (0x3001, 0xFEFE),
  (0xFF00, 0x10FFFF)]⟩

def letters : CharSet := (CharSet.range 'A' 'Z').union (.range 'a' 'z')

def digits : CharSet := .range '0' '9'

def identStart : CharSet := (letters.union (.single '_')).union beyondAscii

def identPart : CharSet := identStart.union digits

/-! ### Patterns

One for each form of lexeme that does not have a fixed text. -/

open Pattern

def whitespace : Pattern := plus (one blanks)

/-- `//` and the rest of the line. -/
def lineComment : Pattern := seq (text "//") (star (noneOf ['\n']))

/-- `/*` to the next `*/`. -/
def blockComment : Pattern := all [
  text "/*",
  star (alt (noneOf ['*']) (seq (plus (text "*")) (noneOf ['*', '/']))),
  plus (text "*"), text "/"]

/-- `#` and the rest of the line. -/
def directive : Pattern := seq (text "#") (star (noneOf ['\n']))

/-- A name, which `@` may precede. -/
def ident : Pattern := all [opt (text "@"), one identStart, star (one identPart)]

/-- A digit, then digits with underscores among them. -/
def digitRun : Pattern := seq (one digits) (star (one (digits.union (.single '_'))))

/-- Digits with an optional fraction and exponent, and a suffix of letters. -/
def decimal : Pattern := all [
  digitRun, opt (seq (text ".") digitRun),
  opt (all [oneOf ['e', 'E'], opt (oneOf ['+', '-']), plus (one digits)]),
  star (one letters)]

/-- A number in another base, and a suffix of letters. -/
def basedNumber : Pattern := all [
  text "0", oneOf ['x', 'X', 'b', 'B'],
  plus (one (((digits.union (.range 'A' 'F')).union (.range 'a' 'f')).union (.single '_'))),
  star (one letters)]

/-- What a string may hold on one line: anything but a quote or a break, which a backslash may
precede. -/
def lineOfText : Pattern :=
  star (alt (noneOf ['\n', '"', '\\']) (seq (text "\\") (noneOf ['\n'])))

/-- What a verbatim string may hold: anything, with each quote written twice. -/
def verbatimText : Pattern := star (alt (noneOf ['"']) (text "\"\""))

def regularString : Pattern := all [text "\"", lineOfText, text "\""]

def openString : Pattern := seq (text "\"") lineOfText

/-- A string that takes backslashes and breaks as they are. -/
def verbatimString : Pattern := all [text "@\"", verbatimText, text "\""]

def interpolatedString : Pattern := all [text "$\"", lineOfText, text "\""]

def interpolatedVerbatimString : Pattern :=
  all [alt (text "$@") (text "@$"), text "\"", verbatimText, text "\""]

/-- A string between three quotes on either side, with no three quotes in it. -/
def rawString : Pattern := all [
  star (text "$"), text "\"\"\"",
  star (any [noneOf ['"'], seq (text "\"") (noneOf ['"']), seq (text "\"\"") (noneOf ['"'])]),
  text "\"\"\""]

def charLiteral : Pattern := all [
  text "'", plus (alt (noneOf ['\n', '\'', '\\']) (seq (text "\\") (noneOf ['\n']))), text "'"]

/-! ### The rules

Fixed texts come first, so that a keyword is no identifier. -/

def fixedTexts : List Rule :=
  Kind.all.flatMap fun k => k.spellings.map fun s => ⟨.accept k, text s⟩

def varyingTexts : List Rule := [
  ⟨.accept .whitespace, whitespace⟩,
  ⟨.accept .lineComment, lineComment⟩,
  ⟨.accept .blockComment, blockComment⟩,
  ⟨.accept .directive, directive⟩,
  ⟨.accept .ident, ident⟩,
  ⟨.accept .number, decimal⟩,
  ⟨.accept .number, basedNumber⟩,
  ⟨.accept .string, regularString⟩,
  ⟨.refuse, openString⟩,
  ⟨.accept .string, verbatimString⟩,
  ⟨.accept .string, interpolatedString⟩,
  ⟨.accept .string, interpolatedVerbatimString⟩,
  ⟨.accept .string, rawString⟩,
  ⟨.accept .char, charLiteral⟩]

/-- All rules, in order of preference. -/
def table : List Rule := fixedTexts ++ varyingTexts

end Rule

end SharpTokens
