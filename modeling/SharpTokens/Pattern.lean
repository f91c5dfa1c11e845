import SharpTokens.Text.CharSet

/-!
# Patterns

A pattern describes a set of texts, by the relation `Pattern.Matches`. A text is recognised one
character at a time: `Pattern.deriv c p` describes what may follow `c` in a text of `p`, so a text
matches when the pattern left after its last character matches the empty text. Patterns that are
left without any text become `void`, which is how a reader knows that no continuation can match.
-/

namespace SharpTokens

open Text (CharSet)

/-- A set of texts. -/
inductive Pattern where
  /-- no text at all -/
  | void
  /-- the empty text -/
  | empty
  /-- one character of a set -/
  | one (set : CharSet)
  /-- a text of the first followed by a text of the second -/
  | seq (p q : Pattern)
  /-- a text of either -/
  | alt (p q : Pattern)
  /-- any number of texts, one after another -/
  | star (p : Pattern)
  deriving DecidableEq, Repr

namespace Pattern

inductive Matches : Pattern → List Char → Prop
  | empty : Matches empty []
  | one {set c} : set.mem c → Matches (one set) [c]
  | seq {p q u v} : Matches p u → Matches q v → Matches (seq p q) (u ++ v)
  | altLeft {p q u} : Matches p u → Matches (alt p q) u
  | altRight {p q u} : Matches q u → Matches (alt p q) u
  | starNil {p} : Matches (star p) []
  | starCons {p u v} : Matches p u → Matches (star p) v → Matches (star p) (u ++ v)

/-! ### Building patterns

Sequence, choice and repetition are primitive; the others are made of them. -/

def text (s : String) : Pattern := s.toList.foldr (fun c p => seq (one (.single c)) p) empty

def oneOf (cs : List Char) : Pattern := one (.ofList cs)

/-- One character other than those listed, which are in ascending order. -/
def noneOf (cs : List Char) : Pattern := one (.except cs)

def plus (p : Pattern) : Pattern := seq p (star p)

def opt (p : Pattern) : Pattern := alt p empty

def all : List Pattern → Pattern
  | [] => empty
  | [p] => p
  | p :: ps => seq p (all ps)

def any : List Pattern → Pattern
  | [] => void
  | [p] => p
  | p :: ps => alt p (any ps)

/-! ### Recognising texts

Derivatives are simplified as they are built, so that they stay small and that a pattern without
texts is void. -/

def nullable : Pattern → Bool
  | void => false
  | empty => true
  | one _ => false
  | seq p q => p.nullable && q.nullable
  | alt p q => p.nullable || q.nullable
  | star _ => true

/-- `seq`, where a part without texts leaves no text and the empty text adds nothing. -/
def followedBy : Pattern → Pattern → Pattern
  | void, _ => void
  | empty, q => q
  | _, void => void
  | p, q => seq p q

/-- `alt`, where a part without texts is left out. -/
def orElse : Pattern → Pattern → Pattern
  | void, q => q
  | p, void => p
  | p, q => alt p q

/-- What may follow `c` in a text that starts with it. -/
def deriv (c : Char) : Pattern → Pattern
  | void => void
  | empty => void
  | one set => if set.mem c then empty else void
  | seq p q =>
    if p.nullable then orElse (followedBy (deriv c p) q) (deriv c q) else followedBy (deriv c p) q
  | alt p q => orElse (deriv c p) (deriv c q)
  | star p => followedBy (deriv c p) (star p)

def isVoid : Pattern → Bool
  | void => true
  | _ => false

/-- Whether a text of the pattern starts with a character whose encoding has the same leading byte
as that of `c`. -/
def hasLead (c : Char) : Pattern → Bool
  | void => false
  | empty => false
  | one set => set.hasLead c
  | seq p q => hasLead c p || (p.nullable && hasLead c q)
  | alt p q => hasLead c p || hasLead c q
  | star p => hasLead c p

end Pattern

end SharpTokens
