/-!
# Conditions of conditional compilation

A condition is built from symbols with `!`, `&&`, `||`, `==`, `!=` and parentheses. Comparison binds
tighter than `&&`, and that tighter than `||`; all of them group to the left. A symbol is true when
it is defined, and `true` and `false` are what they say.
-/

namespace SharpTokens

inductive Condition where
  | symbol (name : String)
  | not (a : Condition)
  | and (a b : Condition)
  | or (a b : Condition)
  | same (a b : Condition)
  | differ (a b : Condition)
  deriving DecidableEq, Repr

namespace Condition

def value (defined : List String) : Condition → Bool
  | symbol name => name == "true" || (name != "false" && defined.contains name)
  | not a => !a.value defined
  | and a b => a.value defined && b.value defined
  | or a b => a.value defined || b.value defined
  | same a b => a.value defined == b.value defined
  | differ a b => a.value defined != b.value defined

/-! ### Reading a condition

One loop for each level of binding, over a reader for the operands of that level. -/

def isGap (c : Char) : Bool := c == ' ' || c == '\t' || c == '\n' || c == '\x0c' || c == '\r'

def isNameChar (c : Char) : Bool := c.isAlphanum || c == '_' || 0x80 ≤ c.toNat

/-- The text after blanks and the sign `sign`, if it comes next. -/
def eat (sign : List Char) (cs : List Char) : Option (List Char) :=
  let rest := cs.dropWhile isGap
  if sign.isPrefixOf rest then some (rest.drop sign.length) else none

/-- A binary sign and what it builds. -/
abbrev Sign := List Char × (Condition → Condition → Condition)

/-- The first of some signs that comes next, and the text after it. -/
def eatSign : List Sign → List Char → Option ((Condition → Condition → Condition) × List Char)
  | [], _ => none
  | (sign, build) :: signs, cs =>
    match eat sign cs with
    | some rest => some (build, rest)
    | none => eatSign signs cs

/-- A reader takes a condition off the front of a text. -/
abbrev Reader := List Char → Option (Condition × List Char)

/-- Goes on from the operand `left` with signs and further operands, as long as a sign comes next.
`n` bounds the number of signs. -/
def chainFrom (signs : List Sign) (operand : Reader) : (n : Nat) → (left : Condition) → Reader
  | 0, _, _ => none
  | n + 1, left, cs =>
    match eatSign signs cs with
    | none => some (left, cs)
    | some (build, rest) =>
      match operand rest with
      | none => none
      | some (right, rest) => chainFrom signs operand n (build left right) rest

def chain (signs : List Sign) (operand : Reader) : Reader := fun cs =>
  match operand cs with
  | none => none
  | some (left, rest) => chainFrom signs operand (rest.length + 1) left rest

/-- A condition of any kind, given how its smallest parts are read. -/
def disjunction (operand : Reader) : Reader :=
  chain [(['|', '|'], or)] (chain [(['&', '&'], and)]
    (chain [(['=', '='], same), (['!', '='], differ)] operand))

def name : Reader := fun cs =>
  let cs := cs.dropWhile isGap
  match cs.takeWhile isNameChar with
  | [] => none
  | word => some (symbol (String.ofList word), cs.dropWhile isNameChar)

/-- A symbol, a negation, or a condition in parentheses, with up to `depth` of them one in
another. -/
def operand : (depth : Nat) → Reader
  | 0, _ => none
  | depth + 1, cs =>
    match eat ['!'] cs with
    | some rest => (operand depth rest).map fun r => (not r.1, r.2)
    | none =>
      match eat ['('] cs with
      | some rest =>
        match disjunction (operand depth) rest with
        | none => none
        | some (a, rest) => (eat [')'] rest).map fun rest => (a, rest)
      | none => name cs

def maxDepth : Nat := 64

def parse (cs : List Char) : Option Condition :=
  match disjunction (operand maxDepth) cs with
  | none => none
  | some (a, rest) => if rest.all isGap then some a else none

end Condition

end SharpTokens
