import SharpTokens.Lexeme.Kind
import SharpTokens.Diagnostic
import SharpTokens.Syntax.Declared
import SharpTokens.Syntax.Tree

/-!
# Words

What the grammar sees of a lexeme is its kind, its text and whether it touches the next one. It
never sees where a lexeme is: places in what it builds are indices of words, so what it builds is
decided by the words alone.
-/

namespace SharpTokens.Grammar

/-- A lexeme without its place. -/
structure Word where
  kind : Kind
  text : String
  touches : Bool
  deriving DecidableEq, Repr

abbrev Words := Array Word

/-- The name in a node: a word, or a note that there is none, at the word before which it is
missing. -/
inductive Name where
  | present (word : Nat) (text : String)
  | missing (word : Nat)
  deriving DecidableEq, Repr

def Name.word : Name → Nat
  | .present word _ => word
  | .missing word => word

/-- What a node holds: it covers the words from `first` to before `past`. -/
structure Label where
  kind : NodeKind
  first : Nat
  past : Nat
  name : Option Name
  modifiers : Modifiers
  deriving DecidableEq, Repr

abbrev Node := Tree Label

/-- An error, and the word at which it was found. -/
structure Fault where
  cause : SyntaxError
  word : Nat
  deriving DecidableEq, Repr

/-! ### Looking at words -/

namespace Words

def kind? (ws : Words) (i : Nat) : Option Kind := (ws[i]?).map (·.kind)

/-- The text of a word; empty past the end. -/
def text (ws : Words) (i : Nat) : String := ((ws[i]?).map (·.text)).getD ""

def is (ws : Words) (i : Nat) (k : Kind) : Bool := ws.kind? i == some k

def isAny (ws : Words) (i : Nat) (ks : List Kind) : Bool := (ws.kind? i).any ks.contains

def isContextual (ws : Words) (i : Nat) (text : String) : Bool :=
  ws.is i .ident && ws.text i == text

/-- Whether the word at `i` runs straight into the next one. -/
def touchesNext (ws : Words) (i : Nat) : Bool := (ws[i]?).any (·.touches)

end Words

end SharpTokens.Grammar
