import SharpTokens.Text.Position
import SharpTokens.Lexeme.Rule

/-!
# Cutting a text into lexemes

At each place the longest text that matches a rule is cut off, and the first such rule says what it
is. Where the longest match is refused, it is an error of that length. Where no rule matches, the
error covers the longest text that some match could start with: reading goes by bytes, so this
includes a character of which only the leading byte could go on a match. An error covers at least
one character.
-/

namespace SharpTokens

open Text

/-- A piece of a text: a lexeme of some kind, or an error. -/
structure Raw where
  kind : Option Kind
  text : List Char
  span : Span
  deriving DecidableEq, Repr

namespace Raw

/-- The rules that can still match after `c`, with what is left of their patterns. -/
def step (live : List Rule) (c : Char) : List Rule :=
  live.filterMap fun r =>
    let p := r.pattern.deriv c
    if p.isVoid then none else some ⟨r.outcome, p⟩

def accepting (live : List Rule) : Option Outcome :=
  (live.find? (·.pattern.nullable)).map (·.outcome)

/-- What was found at a place: a match of some length, or how many characters are in error. -/
inductive Found where
  | hit (outcome : Outcome) (length : Nat)
  | miss (length : Nat)
  deriving DecidableEq, Repr

/-- Reads on from a place where the rules in `live` are left after `taken` characters, and `best` is
the longest match so far. -/
def munch (live : List Rule) (taken : Nat) (best : Option (Outcome × Nat)) : List Char → Found
  | [] =>
    match best with
    | some (o, n) => .hit o n
    | none => .miss (max taken 1)
  | c :: cs =>
    match step live c with
    | [] =>
      match best with
      | some (o, n) => .hit o n
      | none => .miss (if taken = 0 || live.any (·.pattern.hasLead c) then taken + 1 else taken)
    | r :: rs =>
      let best := match accepting (r :: rs) with
        | some o => some (o, taken + 1)
        | none => best
      munch (r :: rs) (taken + 1) best cs

def Found.length : Found → Nat
  | .hit _ n => n
  | .miss n => n

def Found.kind : Found → Option Kind
  | .hit (.accept k) _ => some k
  | .hit .refuse _ => none
  | .miss _ => none

/-- Cuts a text whose first byte is at `offset` into pieces, which follow those in `done`, the last
of them first. At most `n` pieces are cut: as many as the text has characters are always enough. -/
def cut : (n offset : Nat) → (done : List Raw) → List Char → List Raw
  | 0, _, done, _ => done
  | _, _, done, [] => done
  | n + 1, offset, done, c :: cs =>
    let found := munch Rule.table 0 none (c :: cs)
    let text := (c :: cs).take found.length
    let stop := offset + byteSize text
    cut n stop (⟨found.kind, text, ⟨offset, stop⟩⟩ :: done) ((c :: cs).drop found.length)

def ofText (text : List Char) : List Raw := (cut text.length 0 [] text).reverse

end Raw

end SharpTokens
