import SharpTokens.Diagnostic
import SharpTokens.Directive.Condition
import SharpTokens.Text.Alphanumeric
import SharpTokens.Text.Blank

/-!
# Conditional regions

`#if`, `#elif`, `#else` and `#endif` divide a text into branches, of which at most one is read: the
first whose condition holds, or else the last. Nothing of a conditional within a branch that is not
read is read either. `#define` and `#undef` change what later conditions see, where they are read.

A directive that cannot be applied is an error and changes nothing. Conditions and symbols are only
looked at where they matter: in text that is not read, and behind a branch that was, nothing can be
wrong with them.
-/

namespace SharpTokens

open Text

inductive Directive where
  | ifThen (condition : List Char)
  | elseIf (condition : List Char)
  | otherwise
  | endIf
  | define (symbol : List Char)
  | undefine (symbol : List Char)
  /-- known, and without a meaning here -/
  | ignored
  | unknown
  deriving DecidableEq, Repr

namespace Directive

def beforeComment : List Char → List Char
  | [] => []
  | '/' :: '/' :: _ => []
  | c :: cs => c :: beforeComment cs

/-- Words after `#` that change nothing. -/
def ignoredWords : List String :=
  ["region", "endregion", "pragma", "nullable", "line", "error", "warning", "r", "load"]

def parse (text : List Char) : Directive :=
  let text := trim (beforeComment text)
  let rest := trim (text.dropWhile Char.isAlpha)
  match String.ofList (text.takeWhile Char.isAlpha) with
  | "if" => ifThen rest
  | "elif" => elseIf rest
  | "else" => otherwise
  | "endif" => endIf
  | "define" => define rest
  | "undef" => undefine rest
  | word => if ignoredWords.contains word then ignored else unknown

/-- The symbol that `#define` or `#undef` names: the first word, of letters, numbers and
underscores. -/
def symbol (text : List Char) : Option String :=
  match firstWord text with
  | [] => none
  | word =>
    if word.all fun c => isAlphanumeric c || c == '_' then some (String.ofList word) else none

end Directive

/-- An open conditional: whether the text around it is read, whether one of its branches was, and
whether the present one is. -/
structure Region where
  parentActive : Bool
  taken : Bool
  active : Bool
  deriving DecidableEq, Repr

/-- The conditionals open at a place, the innermost first, and the symbols defined there. -/
structure Regions where
  stack : List Region
  defined : List String
  deriving DecidableEq, Repr

namespace Regions

def initial : Regions := ⟨[], []⟩

def isActive (r : Regions) : Bool :=
  match r.stack with
  | [] => true
  | region :: _ => region.active

def eval (r : Regions) (condition : List Char) : Except SyntaxError Bool :=
  match Condition.parse condition with
  | some c => .ok (c.value r.defined)
  | none => .error .invalidDirective

def symbol (text : List Char) : Except SyntaxError String :=
  match Directive.symbol text with
  | some name => .ok name
  | none => .error .invalidDirective

def enter (r : Regions) (condition : List Char) : Except SyntaxError Regions :=
  if r.isActive then do
    let value ← r.eval condition
    return { r with stack := ⟨true, value, value⟩ :: r.stack }
  else .ok { r with stack := ⟨false, false, false⟩ :: r.stack }

def branch (r : Regions) (condition : List Char) : Except SyntaxError Regions :=
  match r.stack with
  | [] => .error .unbalancedConditional
  | region :: outer => do
    let value ← if region.parentActive && !region.taken then r.eval condition else pure false
    return { r with stack := ⟨region.parentActive, region.taken || value, value⟩ :: outer }

def lastBranch (r : Regions) : Except SyntaxError Regions :=
  match r.stack with
  | [] => .error .unbalancedConditional
  | region :: outer =>
    .ok { r with
      stack := ⟨region.parentActive, true, region.parentActive && !region.taken⟩ :: outer }

def close (r : Regions) : Except SyntaxError Regions :=
  match r.stack with
  | [] => .error .unbalancedConditional
  | _ :: outer => .ok { r with stack := outer }

/-- The regions after a directive, or the error that leaves them as they are. -/
def apply (r : Regions) : Directive → Except SyntaxError Regions
  | .ifThen condition => r.enter condition
  | .elseIf condition => r.branch condition
  | .otherwise => r.lastBranch
  | .endIf => r.close
  | .define text =>
    if r.isActive then do
      let name ← symbol text
      return { r with defined := name :: r.defined }
    else .ok r
  | .undefine text =>
    if r.isActive then do
      let name ← symbol text
      return { r with defined := r.defined.filter (· != name) }
    else .ok r
  | .ignored => .ok r
  | .unknown => .error .invalidDirective

end Regions

end SharpTokens
