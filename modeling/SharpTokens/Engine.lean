import SharpTokens.SourceFile
import SharpTokens.Token.Response
import SharpTokens.Token.Walk

/-!
# Engines

An engine turns a source text into tokens: it reads the text, goes through the tree and answers.
What reads the text is part of the engine and may fail; the engine for C# never does. Nothing is
kept between requests.

The labels of a tree are seen through a function, so an engine may bring labels of its own. The
answer to a request is made of tokens or of the error, and there is one for every text.
-/

namespace SharpTokens

/-- A text that was read, whatever its tree is labelled with. -/
structure Reading (α : Type) where
  tree : Tree α
  view : α → Declared
  errorCount : Nat

/-- A failure of what reads a text: it says why, or not. -/
inductive Crash where
  | told (reason : String)
  | untold
  deriving DecidableEq, Repr

def Crash.reason : Crash → String
  | .told reason => reason
  | .untold => "unknown panic"

inductive EngineError where
  | sourceTooLarge (length max : Nat)
  | internal (reason : String)
  deriving DecidableEq, Repr

def EngineError.message : EngineError → String
  | .sourceTooLarge length max =>
    "source of " ++ toString length ++ " bytes exceeds maximum " ++ toString max
  | .internal reason => "internal failure: " ++ reason

/-- Tokens, and the number of errors in the text, which may have cost some. -/
structure Tokenized where
  tokens : List Token
  syntaxErrors : Nat
  deriving DecidableEq, Repr

/-- What turns texts of up to `maxSource` bytes into tokens. -/
structure Engine (α : Type) where
  legend : Legend
  maxSource : Nat
  read : String → Except Crash (Reading α)

namespace Engine

variable {α : Type}

def defaultMaxSource : Nat := 10000000

def tokensOf (e : Engine α) (r : Reading α) : List Token :=
  (Walk.Context.mk e.legend r.view).tokens r.tree

def tokenize (e : Engine α) (source : String) : Except EngineError Tokenized :=
  if e.maxSource < source.utf8ByteSize then .error (.sourceTooLarge source.utf8ByteSize e.maxSource)
  else
    match e.read source with
    | .ok r => .ok ⟨e.tokensOf r, r.errorCount⟩
    | .error crash => .error (.internal crash.reason)

/-- The answer to a request. There is always one. -/
def respond (e : Engine α) (source : String) : Response :=
  match e.tokenize source with
  | .ok t => .ofTokens t.tokens
  | .error err => .degraded err.message

/-- The engine for C#, with constructs nested up to a limit. -/
def csharp (legend : Legend) (maxSource limit : Nat) : Engine Grammar.Label where
  legend := legend
  maxSource := maxSource
  read := fun source =>
    let file := SourceFile.ofText source.toList limit
    .ok ⟨file.tree, file.layout.declared, file.diagnostics.length⟩

end Engine

end SharpTokens
