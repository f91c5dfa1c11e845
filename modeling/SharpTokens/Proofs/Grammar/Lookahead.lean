import SharpTokens.Grammar.Lookahead

/-!
# Looking ahead goes forward

The places that looking ahead leads to are never behind the one it starts from.

Where a parser goes to a place that was looked up, this is what makes it go forward. That looks also
stay among the words is shown where runs of parsers are followed.
-/

namespace SharpTokens.Grammar.Words

variable (ws : Words)

/-! ## Groups

A group that is opened has at least its opening bracket. -/

/-- How many brackets are open past a word, if `depth` are open before it. -/
def depthPast (depth : Nat) (k : Kind) : Nat :=
  if k.isOpener then depth + 1 else if k.isCloser then depth - 1 else depth

/-- Passing over a word leads past it, and then past the rest of the group if one is open. -/
theorem pastClosing_succ {k : Kind} {i : Nat} (n depth : Nat) (hk : ws.kind? i = some k) :
    ws.pastClosing (n + 1) depth i
      = if depthPast depth k = 0 then i + 1 else ws.pastClosing n (depthPast depth k) (i + 1) := by
  simp only [pastClosing, hk]
  rfl

/-- Skipping the rest of a group never leads back. -/
theorem le_pastClosing (n depth i : Nat) : i ≤ ws.pastClosing n depth i := by
  induction n generalizing depth i with
  | zero => exact Nat.le_refl i
  | succ n ih =>
      cases hk : ws.kind? i with
      | none => simp [pastClosing, hk]
      | some k =>
          rw [ws.pastClosing_succ n depth hk]
          split
          · exact Nat.le_succ i
          · exact Nat.le_trans (Nat.le_succ i) (ih _ (i + 1))

theorem le_pastGroup (i : Nat) : i ≤ ws.pastGroup i := ws.le_pastClosing _ _ i

/-! ## Types

A part of a type that has to be there takes a word. -/

theorem le_pastCommas (n i : Nat) : i ≤ ws.pastCommas n i := by
  induction n generalizing i with
  | zero => exact Nat.le_refl i
  | succ n ih =>
      unfold pastCommas
      split
      · exact Nat.le_trans (Nat.le_succ i) (ih (i + 1))
      · exact Nat.le_refl i

/-- There may be no marks behind a type, so it need not go forward by a word. -/
theorem le_of_typeSuffixes? {n i j : Nat} (h : ws.typeSuffixes? n i = some j) : i ≤ j := by
  induction n generalizing i with
  | zero => cases h
  | succ n ih =>
      unfold typeSuffixes? at h
      split at h
      · exact Nat.le_trans (Nat.le_succ i) (ih h)
      · split at h
        · have hcommas := ws.le_pastCommas (ws.size - i) (i + 1)
          simp only at h
          split at h
          · have := ih h
            omega
          · cases h
        · cases h
          exact Nat.le_refl _

/-- The words that a part of a type takes at least. -/
def TypePart.least : TypePart → Nat
  | .segments => 0
  | _ => 1

/-- A part of a type ends past where it starts; only segments may be none. -/
theorem least_of_typePart? {n : Nat} {part : TypePart} {budget i j : Nat}
    (h : ws.typePart? n part budget i = some j) : i + part.least ≤ j := by
  induction n generalizing part budget i j with
  | zero => cases h
  | succ n ih =>
      cases part with
      | type =>
          cases budget with
          | zero => cases h
          | succ budget =>
              simp only [typePart?] at h
              obtain ⟨k, hk, hsuffixes⟩ := Option.bind_eq_some_iff.1 h
              have hle := ws.le_of_typeSuffixes? hsuffixes
              refine Nat.le_trans ?_ hle
              -- marks behind the type only go forward, so it is enough to look before them
              show i + 1 ≤ k
              split at hk
              · cases hk
                exact Nat.le_refl _
              · cases hk
                exact Nat.le_refl _
              · obtain ⟨l, hl, hk⟩ := Option.bind_eq_some_iff.1 hk
                obtain ⟨m, hm, hk⟩ := Option.bind_eq_some_iff.1 hk
                have hname : i + 1 ≤ l := by
                  split at hl
                  · split at hl <;> cases hl
                    omega
                  · cases hl
                    exact Nat.le_refl _
                have harguments : l ≤ m := by
                  split at hm
                  · have : l + 1 + 1 ≤ m := ih hm
                    omega
                  · cases hm
                    exact Nat.le_refl _
                have hsegments : m + 0 ≤ k := ih hk
                omega
              · have : i + 1 + 1 ≤ k := ih hk
                omega
              · cases hk
      | arguments =>
          simp only [typePart?] at h
          obtain ⟨k, hk, h⟩ := Option.bind_eq_some_iff.1 h
          have htype : i + 1 ≤ k := ih hk
          show i + 1 ≤ j
          split at h
          · have : k + 1 + 1 ≤ j := ih h
            omega
          · split at h <;> cases h
            omega
      | segments =>
          simp only [typePart?] at h
          show i + 0 ≤ j
          split at h
          · obtain ⟨k, hk, h⟩ := Option.bind_eq_some_iff.1 h
            have hsegments : k + 0 ≤ j := ih h
            split at hk
            · have : i + 3 + 1 ≤ k := ih hk
              omega
            · cases hk
              omega
          · cases h
            exact Nat.le_refl _
      | elements before =>
          simp only [typePart?] at h
          obtain ⟨k, hk, h⟩ := Option.bind_eq_some_iff.1 h
          have htype : i + 1 ≤ k := ih hk
          -- an element may have a name behind its type
          have hnamed : k ≤ if ws.is k .ident then k + 1 else k := by split <;> omega
          generalize (if ws.is k .ident then k + 1 else k) = l at h hnamed
          show i + 1 ≤ j
          split at h
          · have : l + 1 + 1 ≤ j := ih h
            omega
          · split at h <;> cases h
            omega

theorem lt_of_typeEnd? {limit i j : Nat} (h : ws.typeEnd? limit i = some j) : i < j :=
  ws.least_of_typePart? h

theorem lt_of_typeArgumentsEnd? {limit i j : Nat}
    (h : ws.typeArgumentsEnd? limit i = some j) : i < j := by
  have : i + 1 + 1 ≤ j := ws.least_of_typePart? h
  omega

theorem lt_of_typeBeforeName? {limit i j : Nat} (h : ws.typeBeforeName? limit i = some j) : i < j :=
  ws.lt_of_typeEnd? (Option.filter_eq_some_iff.1 h).1

theorem lt_of_typeBeforeVariable? {limit i j : Nat}
    (h : ws.typeBeforeVariable? limit i = some j) : i < j :=
  ws.lt_of_typeBeforeName? (Option.filter_eq_some_iff.1 h).1

theorem lt_of_typeArgumentsInExpression? {limit i j : Nat}
    (h : ws.typeArgumentsInExpression? limit i = some j) : i < j :=
  ws.lt_of_typeArgumentsEnd? (Option.filter_eq_some_iff.1 h).1

end SharpTokens.Grammar.Words
