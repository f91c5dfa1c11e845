import SharpTokens.Grammar.Word

/-!
# Bracketed groups

Braces, parentheses and brackets group words, whichever closes which. A group can be looked past
(`groupEnd?`, which fails if it is not closed) or skipped (`pastGroup`, which then goes to the end).
-/

namespace SharpTokens.Grammar.Words

/-- The index past the group that is open to `depth` at `i`, or none if the words end before it
does. `n` bounds the words looked at. -/
def closing? (ws : Words) : (n depth i : Nat) → Option Nat
  | 0, _, _ => none
  | n + 1, depth, i =>
    match ws.kind? i with
    | none => none
    | some k =>
      if k.isOpener then closing? ws n (depth + 1) (i + 1)
      else if k.isCloser then
        if depth ≤ 1 then some (i + 1) else closing? ws n (depth - 1) (i + 1)
      else closing? ws n depth (i + 1)

def groupEnd? (ws : Words) (i : Nat) : Option Nat := ws.closing? (ws.size - i) 0 i

/-- The index past the group that is open to `depth` before `i`, or past the last word. `n` bounds
the words passed over. -/
def pastClosing (ws : Words) : (n depth i : Nat) → Nat
  | 0, _, i => i
  | n + 1, depth, i =>
    match ws.kind? i with
    | none => i
    | some k =>
      let depth := if k.isOpener then depth + 1 else if k.isCloser then depth - 1 else depth
      if depth = 0 then i + 1 else pastClosing ws n depth (i + 1)

/-- The index past the word at `i`, or past the whole group if it opens one. -/
def pastGroup (ws : Words) (i : Nat) : Nat := ws.pastClosing (ws.size - i) 0 i

end SharpTokens.Grammar.Words
