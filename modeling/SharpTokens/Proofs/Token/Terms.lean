import SharpTokens.Channel.Codec
import SharpTokens.Proofs.Token.Declarations
import SharpTokens.Proofs.Token.Order

/-!
# Tokens in terms of a legend

Whatever reads a text, the tokens that an engine answers with are in terms of its legend
(`Engine.respond_covers`), because a type that the legend lacks gets its last slot and modifiers
that it lacks are dropped. They are sorted, so they have a relative form
(`Engine.respond_relative`). The engine for C# finds none in the empty text
(`csharp_respond_empty`).
-/

namespace SharpTokens

open Text

/-! ## Types and modifiers

The check that a client makes never fails on tokens made with its own legend. -/

/-- There is nothing wrong with tokens that are in terms of a legend. -/
theorem Codec.strayToken?_eq_none {l : Legend} {tokens : List Token} (h : ∀ t ∈ tokens, l.Covers t)
    (index : Nat) : strayToken? l index tokens = none := by
  induction tokens generalizing index with
  | nil => rfl
  | cons t tokens ih =>
      obtain ⟨htype, hmodifiers⟩ := h t List.mem_cons_self
      rw [strayToken?, htype, hmodifiers]
      exact ih (fun t ht => h t (List.mem_cons_of_mem _ ht)) (index + 1)

namespace Engine

variable {α : Type} (e : Engine α)

/-- An answer has the tokens of a tree, or says why there are none. -/
theorem respond_eq (source : String) :
    (∃ r, e.respond source = .ofTokens (e.tokensOf r)) ∨
      ∃ reason, e.respond source = .degraded reason := by
  rw [respond]
  split
  · next t ht =>
    rw [tokenize] at ht
    split at ht
    · cases ht
    · split at ht
      · next r hr =>
        cases ht
        exact .inl ⟨r, rfl⟩
      · cases ht
  · exact .inr ⟨_, rfl⟩

/-- **The tokens that an engine answers with are in terms of its legend.** -/
theorem respond_covers (source : String) :
    ∀ token ∈ (e.respond source).tokens, e.legend.Covers token := by
  rcases e.respond_eq source with ⟨r, hr⟩ | ⟨reason, hr⟩
  · rw [hr]
    exact (Walk.Context.mk e.legend r.view).tokens_covers r.tree
  · rw [hr]
    exact List.forall_mem_nil _

end Engine

/-! ## Relative form

Tokens are sorted at the end of the walk, so none is before the one that precedes it. -/

/-- **The tokens that an engine answers with have a relative form.** -/
theorem Engine.respond_relative {α : Type} (e : Engine α) (source : String) :
    ∃ data, Deltas.encode (e.respond source).tokens = .ok data := by
  rcases e.respond_eq source with ⟨r, hr⟩ | ⟨reason, hr⟩
  · rw [hr]
    exact Deltas.exists_encode_iff.2 ((Walk.Context.mk e.legend r.view).tokens_isStableSort
      r.tree).ordered
  · rw [hr]
    exact ⟨[], rfl⟩

/-! ## The empty text

There are no words in it, so nothing is declared. -/

/-- Nothing is declared in the empty text. -/
theorem csharp_respond_empty (legend : Legend) (maxSource limit : Nat) :
    (Engine.csharp legend maxSource limit).respond "" = .ofTokens [] := by
  have hsize : byteSize [] < UInt32.size := by decide
  obtain ⟨places, -, hmarks⟩ := foundTokens_mark [] legend limit hsize
  have hnone : foundTokens [] legend limit = [] := by
    generalize foundTokens [] legend limit = found at hmarks
    cases hmarks with
    | nil => rfl
    | cons hmark =>
        obtain ⟨l, -, ⟨hne, pre, post, htext, -⟩, -⟩ := hmark
        simp [hne] at htext
  have hmax : "".utf8ByteSize ≤ maxSource := Nat.zero_le _
  rw [Engine.respond, csharp_tokenize legend limit hmax]
  exact congrArg Response.ofTokens ((tokens_eq_foundTokens [] legend limit hsize).trans hnone)

end SharpTokens
