import SharpTokens.Proofs.Grammar.Run.Progress
import SharpTokens.Proofs.Grammar.Types

/-!
# Recursion enters the guard

A nonterminal that is called from another one is inside more constructs than that, or in the same
ones and of a lower `level` (`Calls.needed`). So a chain of calls that comes back to its level has
entered a construct (`deeper_of_transGen`), and no chain is longer than five calls for each
construct that the limit allows (`length_add_stage_le`). Two kinds of calls are not like this, and
nothing bounds chains of them: those of a namespace without braces, which holds the rest of the
text, and those for the value of a parameter of an anonymous method (`Unguarded`).

What only looks ahead does not enter the guard either. Types nest within the limit by a count of
their own, while looking for a lambda goes on as long as modifiers follow each other. `Guarded` says
all this of the words that are read, and `ofText_guarded` proves it of every text, together with the
bound on the height of its tree.
-/

namespace SharpTokens.Grammar

open Loosened Relation

variable {words : Words} {limit : Nat} {a b : Symbol × State}

/-! ## Levels of calls

Depth counts first, and within one depth the level falls. The stage joins the two into one number
that grows with each call. -/

/-- A call that enters no construct, and that may lead back to where it came from. -/
def Bypasses (words : Words) (a b : Symbol × State) : Prop :=
  b.2.guard.depth = a.2.guard.depth ∧ Unguarded words a.2.pos b.2.pos a.1 b.1

/-- A call of a nonterminal from another one, if it is not one of those that nothing guards. -/
def GuardedCall (words : Words) (limit : Nat) (a b : Symbol × State) : Prop :=
  Calls (grammarOf words) ⟨words, limit⟩ a b ∧ ¬Bypasses words a b

def levelOf (words : Words) (a : Symbol × State) : Nat := a.1.level words a.2.pos

/-- How far calls have come: five of them may follow each other in the same construct. -/
def stage (words : Words) (a : Symbol × State) : Nat := 5 * a.2.guard.depth + (4 - levelOf words a)

/-- Stages are bounded by the limit. -/
theorem stage_lt_of_mayStart (ha : MayStart words limit a) : stage words a < 5 * (limit + 1) := by
  have hwithin := ha.1.2.1
  simp only [stage]
  omega

section

variable (few : words.size < Guard.unlimited)
include few

/-- A call leads to a state in which nonterminals start. -/
theorem GuardedCall.mayStart (ha : MayStart words limit a) (h : GuardedCall words limit a b) :
    MayStart words limit b :=
  (h.1.needed few (Nat.le_refl _) ha).1

/-- A call is deeper, or in the same construct and of a lower level. -/
theorem GuardedCall.deeper (ha : MayStart words limit a) (h : GuardedCall words limit a b) :
    a.2.guard.depth < b.2.guard.depth ∨
      b.2.guard.depth = a.2.guard.depth ∧ levelOf words b < levelOf words a := by
  rcases (h.1.needed few (Nat.le_refl _) ha).2.2 with hdeeper | ⟨hdepth, hlower | hunguarded⟩
  · exact .inl hdeeper
  · exact .inr ⟨hdepth, hlower⟩
  · exact absurd ⟨hdepth, hunguarded⟩ h.2

/-- A guarded call comes further. -/
theorem GuardedCall.stage_lt (ha : MayStart words limit a) (h : GuardedCall words limit a b) :
    stage words a < stage words b := by
  have hlevel : levelOf words a ≤ 4 := a.1.level_le words a.2.pos
  rcases h.deeper few ha with hdeeper | ⟨hdepth, hlower⟩
  · simp only [stage]
    omega
  · simp only [stage, hdepth]
    omega

/-- A chain of guarded calls goes deeper as each of them does. -/
theorem deeper_of_transGen (ha : MayStart words limit a)
    (h : TransGen (GuardedCall words limit) a b) :
    MayStart words limit b ∧ (a.2.guard.depth < b.2.guard.depth ∨
      b.2.guard.depth = a.2.guard.depth ∧ levelOf words b < levelOf words a) := by
  induction h with
  | single hcall => exact ⟨hcall.mayStart few ha, hcall.deeper few ha⟩
  | tail _ hcall ih =>
      obtain ⟨hb, hdeeper⟩ := ih
      have hnext := hcall.deeper few hb
      exact ⟨hcall.mayStart few hb, by omega⟩

/-- The further calls have come, the fewer may follow. -/
theorem length_add_stage_le {path : List (Symbol × State)} (ha : MayStart words limit a)
    (h : (a :: path).IsChain (GuardedCall words limit)) :
    path.length + stage words a < 5 * (limit + 1) := by
  induction path generalizing a with
  | nil => simpa using stage_lt_of_mayStart ha
  | cons b path ih =>
      rw [List.isChain_cons_cons] at h
      have hstage := h.1.stage_lt few ha
      have hrest := ih (h.1.mayStart few ha) h.2
      rw [List.length_cons]
      omega

end

/-! ## Looking ahead

Types bring a limit of their own, and the look for lambdas goes past modifiers, one by one. Neither
enters a construct. -/

def Words.isModifierOfLambda (ws : Words) (i : Nat) : Bool :=
  ws.is i .staticKw || ws.isContextual i "async"

/-- Looking for a lambda stops at the first word that is no modifier of one. -/
theorem Words.leadsToLambda_settled {ws : Words} (k : Nat) {i : Nat}
    (h : ws.isModifierOfLambda (i + k) = false) :
    Settled (k + 1) (ws.leadsToLambda · i) := by
  induction k generalizing i with
  | zero =>
      intro n hn
      obtain ⟨n, rfl⟩ := Nat.exists_eq_succ_of_ne_zero (Nat.ne_zero_of_lt hn)
      simp only [isModifierOfLambda, isContextual, is, Nat.add_zero, Bool.or_eq_false_iff] at h
      simp only [leadsToLambda]
      split <;> simp_all
  | succ k ih =>
      intro n hn
      obtain ⟨n, rfl⟩ := Nat.exists_eq_succ_of_ne_zero (Nat.ne_zero_of_lt hn)
      have hnext := ih (i := i + 1) (by rwa [Nat.add_right_comm, Nat.add_assoc]) n
        (Nat.le_of_succ_le_succ hn)
      simp only at hnext
      simp only [leadsToLambda, hnext]

/-! ## Whole texts

The bound on heights and the statement about calls, for every text. -/

/-- What recurses when words are read, and what bounds it. -/
structure Guarded (words : Words) (limit : Nat) : Prop where
  /-- A call stays in the constructs that it comes from. -/
  inside : ∀ {a b}, Reached words limit a → Calls (grammarOf words) ⟨words, limit⟩ a b →
    a.2.guard.depth ≤ b.2.guard.depth
  /-- A call that enters no construct goes to a lower level, or it is one of those that nothing
  guards. -/
  same : ∀ {a b}, Reached words limit a → Calls (grammarOf words) ⟨words, limit⟩ a b →
    b.2.guard.depth = a.2.guard.depth →
      levelOf words b < levelOf words a ∨ Unguarded words a.2.pos b.2.pos a.1 b.1
  /-- Calls that come back to a nonterminal of the level that they started from have entered a
  construct. -/
  recursion : ∀ {a b}, Reached words limit a → TransGen (GuardedCall words limit) a b →
    levelOf words a ≤ levelOf words b → a.2.guard.depth < b.2.guard.depth
  /-- No more than five calls are open for each construct that the limit allows. -/
  nested : ∀ {a path}, Reached words limit a → (a :: path).IsChain (GuardedCall words limit) →
    (a :: path).length ≤ 5 * (limit + 1)
  /-- Types nest within the limit. -/
  types : ∀ {i j}, words.typeEnd? limit i = some j →
    ∃ n ks, n ≤ limit ∧ Forms .type n ks ∧ words.Runs i ks j
  /-- Looking for a lambda goes on over modifiers only. -/
  lambdas : ∀ {i k}, words.isModifierOfLambda (i + k) = false →
    Settled (k + 1) (words.leadsToLambda · i)

/-- The fields of the statement, for words of which there are few enough to be counted. -/
theorem guarded_of_few (few : words.size < Guard.unlimited) (limit : Nat) :
    Guarded words limit where
  inside h hcall := by
    rcases (hcall.needed few (Nat.le_refl _) (h.mayStart few)).2.2 with hdeeper | ⟨hdepth, -⟩
    · exact Nat.le_of_lt hdeeper
    · exact Nat.le_of_eq hdepth.symm
  same h hcall hdepth := by
    rcases (hcall.needed few (Nat.le_refl _) (h.mayStart few)).2.2 with hdeeper | ⟨-, hstays⟩
    · exact absurd hdeeper (by simp [hdepth])
    · exact hstays
  recursion h hcalls hlevel := by
    rcases (deeper_of_transGen few (h.mayStart few) hcalls).2 with hdeeper | ⟨-, hlower⟩
    · exact hdeeper
    · exact absurd hlevel (Nat.not_le_of_lt hlower)
  nested h hchain := by
    have hlength := length_add_stage_le few (h.mayStart few) hchain
    rw [List.length_cons]
    omega
  types h := by
    obtain ⟨n, ks, hn, hforms, hruns⟩ := (Words.typeEnd?_eq_some.1 h).made
    exact ⟨n, ks, Nat.le_of_lt_succ hn, hforms, hruns⟩
  lambdas h := Words.leadsToLambda_settled _ h

end SharpTokens.Grammar

namespace SharpTokens

open Text Grammar

/-- **The limit bounds recursion and the height of a tree.** All recursion enters the guard apart
from the calls that are `Unguarded` and what looks ahead, and a tree is at most sixteen nodes high
for each level of nesting, where chains of dotted names, of namespaces without braces and of
anonymous methods that are default values of one another count as one node each. -/
theorem ofText_guarded (text : List Char) (limit : Nat) (hsize : byteSize text < Guard.unlimited) :
    height Above.chained .none (SourceFile.ofText text limit).tree ≤ 16 * (limit + 1) ∧
      Guarded (wordsOfText text) limit :=
  ⟨ofText_height_le text limit hsize,
    guarded_of_few (wordsOfText_few hsize) limit⟩

/-- An anonymous method in the default value of another one's parameter, inside parentheses. -/
theorem ofText_guarded_delegate :
    byteSize "delegate(int n = (delegate \x7b \x7d)) \x7b \x7d;".toList < Guard.unlimited ∧
      height Above.chained .none
        (SourceFile.ofText "delegate(int n = (delegate \x7b \x7d)) \x7b \x7d;".toList 3).tree ≤
        16 * (3 + 1) ∧
      Guarded (wordsOfText "delegate(int n = (delegate \x7b \x7d)) \x7b \x7d;".toList) 3 :=
  ⟨by decide, ofText_guarded _ 3 (by decide)⟩

/-- Under the limit 0, namespaces without braces and anonymous methods are higher than the limit
allows, if each of them counts, and twenty modifiers are all gone through before a lambda is
found. -/
theorem chains_exceed_limit :
    16 * (0 + 1) < height Above.dotted .none
        (SourceFile.ofText (List.replicate 20 "namespace A;".toList).flatten 0).tree ∧
      16 * (0 + 1) < height Above.dotted .none
        (SourceFile.ofText (List.replicate 5 "delegate(n=".toList).flatten 0).tree ∧
      (wordsOfText (List.replicate 20 "static ".toList ++ ["n=>n".toList]).flatten).leadsToLambda
        20 0 = false ∧
      (wordsOfText (List.replicate 20 "static ".toList ++ ["n=>n".toList]).flatten).leadsToLambda
        21 0 = true := by
  decide +kernel

end SharpTokens
