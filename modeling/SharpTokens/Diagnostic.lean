import SharpTokens.Text.Position
import SharpTokens.Lexeme.Kind

/-!
# What can be wrong with a source text

Errors in a source text are recorded and recovered from; they never stop the reading of it. Each is
one of a few causes, with its wording in `SyntaxError.message`.
-/

namespace SharpTokens

open Text

/-- Something that runs to the end of a line or a text without being closed. -/
inductive Unclosed where
  | string | character | comment
  deriving DecidableEq, Repr

def Unclosed.describe : Unclosed → String
  | .string => "string"
  | .character => "character literal"
  | .comment => "comment"

/-- What the grammar asked for in vain. -/
inductive Expectation where
  | kind (k : Kind)
  | type
  | declaration
  | statement
  | bodyOrSemi
  | accessorsOrArrow
  | semiOrBody
  deriving DecidableEq, Repr

def Expectation.describe : Expectation → String
  | .kind k => k.describe
  | .type => "type"
  | .declaration => "declaration"
  | .statement => "statement"
  | .bodyOrSemi => "`\x7b` or `;`"
  | .accessorsOrArrow => "`\x7b` or `=>`"
  | .semiOrBody => "`;` or `\x7b`"

inductive SyntaxError where
  /-- a character that no lexeme starts with -/
  | unknownCharacter
  /-- something that is never closed -/
  | unterminated (what : Unclosed)
  /-- a lexeme other than the one asked for -/
  | expected (what : Expectation) (found : Kind)
  /-- the end of the text in place of what was asked for -/
  | endOfFile (what : Expectation)
  /-- a lexeme that fits nowhere -/
  | unexpected (found : Kind)
  /-- a construct below the limit of nesting, which was passed over -/
  | tooDeep (limit : Nat)
  /-- a directive that is not known, or not at the start of its line -/
  | invalidDirective
  /-- a branch of a conditional without its start, or without its end -/
  | unbalancedConditional
  deriving DecidableEq, Repr

def SyntaxError.message : SyntaxError → String
  | .unknownCharacter => "unrecognized character"
  | .unterminated what => "unterminated " ++ what.describe
  | .expected what found => "expected " ++ what.describe ++ ", found " ++ found.describe
  | .endOfFile what => "expected " ++ what.describe ++ ", found end of file"
  | .unexpected found => "unexpected " ++ found.describe
  | .tooDeep limit => "nesting exceeds the limit of " ++ toString limit ++ ", construct skipped"
  | .invalidDirective => "invalid preprocessor directive"
  | .unbalancedConditional => "unbalanced conditional directive"

structure Diagnostic where
  error : SyntaxError
  span : Span
  position : Position
  deriving DecidableEq, Repr

/-- One line for a reader, who counts lines and columns from one. -/
def Diagnostic.render (d : Diagnostic) : String :=
  toString (d.position.line + 1).toNat ++ ":" ++ toString (d.position.character + 1).toNat ++ ": "
    ++ d.error.message

end SharpTokens
