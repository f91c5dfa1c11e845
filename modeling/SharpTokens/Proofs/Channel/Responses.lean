import Mathlib.Algebra.Group.Nat.Defs
import SharpTokens.Proofs.Channel.Reading
import SharpTokens.Proofs.Token.Legend
import SharpTokens.Proofs.Token.Response
import SharpTokens.Proofs.Token.Terms

/-!
# Answers are carried as they are

An answer that fits a frame is read as it was sent (`Codec.answers_carried`), whatever its tokens
and its reason are. A reader with a legend refuses it exactly if some token is not in terms of the
legend, says which one is the first, and has read the frame and nothing behind it all the same.

An answer is written as JSON, and what is written is read back as the same answer; that is shown
where answers are defined. Here it goes through a frame, and then through the check against a
legend, which looks at the tokens in their order and stops at the first that is not in its terms.
-/

namespace SharpTokens

/-! ## Tokens in terms of a legend

Whether a token is in terms of a legend is checked on numbers: its type against the number of types,
its modifiers against a mask. `Legend.Names` says what is meant. -/

namespace Legend

/-- A token whose type is a place in the list of types and whose modifiers are all places in the
list of modifiers. -/
def Names (l : Legend) (t : Token) : Prop :=
  t.type.toNat < l.types.length ∧ ∀ i, t.modifiers.toNat.testBit i = true → i < l.modifiers.length

/-- The check on numbers decides what is meant. -/
theorem covers_iff (l : Legend) (t : Token) : l.Covers t ↔ l.Names t := by
  rw [Covers, Names, containsModifiers_iff, containsType, decide_eq_true_eq]

end Legend

namespace Codec

variable {c : Codec} {l : Legend} {r : Response}

/-- The first of some tokens that is not in terms of a legend, and its index. -/
structure FirstStray (l : Legend) (tokens : List Token) (index : Nat) (t : Token) : Prop where
  at_index : tokens[index]? = some t
  stray : ¬ l.Names t
  before : ∀ i s, i < index → tokens[i]? = some s → l.Names s

/-- A token that is not in terms of the legend is found, and no other one stands before it. -/
theorem exists_strayToken? {tokens : List Token} (h : ¬ ∀ t ∈ tokens, l.Names t) (index : Nat) :
    ∃ i t, FirstStray l tokens i t ∧
      strayToken? l index tokens = some (.outOfLegend (index + i) t.type t.modifiers) := by
  induction tokens generalizing index with
  | nil => exact absurd (List.forall_mem_nil _) h
  | cons t tokens ih =>
      by_cases hnames : l.Names t
      · have hrest : ¬ ∀ s ∈ tokens, l.Names s :=
          fun hall => h (List.forall_mem_cons.2 ⟨hnames, hall⟩)
        obtain ⟨i, s, hfirst, hstray⟩ := ih hrest (index + 1)
        refine ⟨i + 1, s, ⟨hfirst.at_index, hfirst.stray, ?_⟩, ?_⟩
        · intro j u hj hu
          cases j with
          | zero =>
              cases hu
              exact hnames
          | succ j => exact hfirst.before j u (Nat.lt_of_succ_lt_succ hj) hu
        · obtain ⟨htype, hmodifiers⟩ := (l.covers_iff t).2 hnames
          rw [strayToken?, htype, hmodifiers, Bool.and_self, if_pos rfl, hstray, Nat.add_assoc,
            Nat.add_comm 1 i]
      · refine ⟨0, t, ⟨rfl, hnames, fun i s hi => absurd hi (Nat.not_lt_zero i)⟩, ?_⟩
        rw [strayToken?, if_neg, Nat.add_zero]
        rwa [Bool.and_eq_true, ← Legend.Covers, l.covers_iff]

/-- What is read from the bytes of an answer without a legend. -/
theorem decodeResponse_render_of_none (h : c.legend = none) :
    c.decodeResponse r.render = .ok r := by
  simp only [decodeResponse, Response.parse?_render, h, Option.bind_none]

/-- What is read from the bytes of an answer in terms of the legend. -/
theorem decodeResponse_render_of_names (h : c.legend = some l)
    (hnames : ∀ t ∈ r.tokens, l.Names t) :
    c.decodeResponse r.render = .ok r := by
  have hstray := strayToken?_eq_none (fun t ht => (l.covers_iff t).2 (hnames t ht)) 0
  simp only [decodeResponse, Response.parse?_render, h, Option.bind_some, hstray]

/-- What is read from the bytes of an answer that is not in terms of the legend. -/
theorem decodeResponse_render_of_stray (h : c.legend = some l)
    (hstray : ¬ ∀ t ∈ r.tokens, l.Names t) :
    ∃ i t, FirstStray l r.tokens i t ∧ c.decodeResponse r.render =
      .error (.outOfLegend i t.type t.modifiers) := by
  obtain ⟨i, t, hfirst, hfound⟩ := exists_strayToken? hstray 0
  refine ⟨i, t, hfirst, ?_⟩
  simp only [decodeResponse, Response.parse?_render, h, Option.bind_some, hfound, Nat.zero_add]

/-- The frame of an answer that fits is read, whatever becomes of the answer, and what is behind is
left. -/
theorem readResponse_frame (hfits : r.render.length ≤ min c.limit Frame.maxLength) {s : Source}
    {rest : Bytes} (h : s.content = Frame.ofPayload r.render ++ rest) :
    ∃ left, c.readResponse s = (some (c.decodeResponse r.render), left) ∧ left.content = rest := by
  have hpos : 0 < r.render.length := List.length_pos_iff.2 r.render_ne_nil
  obtain ⟨left, hread, hleft, -⟩ := (Source.readsAs_frame ⟨hpos, hfits⟩ h).readFrame
  refine ⟨left, ?_, hleft⟩
  simp only [readResponse, readWith, hread]

/-- **Answers are carried as they are.** An answer whose bytes fit has a frame, and reading the
frame off the front of any stream leaves what is behind it. Without a legend the answer is what was
sent. With one it is what was sent exactly if all tokens are in terms of the legend, and otherwise
the first one that is not is named. -/
theorem answers_carried (c : Codec) (r : Response)
    (hfits : r.render.length ≤ min c.limit Frame.maxLength) :
    ∃ frame, c.encodeResponse r = .ok frame ∧ ∀ (s : Source)
      (rest : Bytes), s.content = frame ++ rest →
      ∃ result left, c.readResponse s = (some result, left) ∧ left.content = rest ∧
        (c.legend = none → result = .ok r) ∧
        ∀ l, c.legend = some l →
          (result = .ok r ↔ ∀ t ∈ r.tokens, l.Names t) ∧
          ((¬ ∀ t ∈ r.tokens, l.Names t) →
            ∃ i t, FirstStray l r.tokens i t ∧ result =
            .error (.outOfLegend i t.type t.modifiers)) := by
  have hpos : 0 < r.render.length := List.length_pos_iff.2 r.render_ne_nil
  refine ⟨_, Frame.encode_eq_ok_iff.2 ⟨⟨hpos, hfits⟩, rfl⟩, ?_⟩
  intro s rest hcontent
  obtain ⟨left, hread, hleft⟩ := readResponse_frame hfits hcontent
  refine ⟨_, left, hread, hleft, decodeResponse_render_of_none, ?_⟩
  intro l hl
  refine ⟨⟨?_, decodeResponse_render_of_names hl⟩, decodeResponse_render_of_stray hl⟩
  intro hok
  by_contra hstray
  obtain ⟨i, t, -, herror⟩ := decodeResponse_render_of_stray hl hstray
  rw [herror] at hok
  cases hok

/-- An answer whose second token has a type that the usual legend lacks, and whose reason has to be
escaped. -/
theorem answers_carried_stray :
    (⟨[⟨0, 0, 1, 0, 1⟩, ⟨4294967295, 7, 2, 10, 15⟩], some "\"\n\x01é"⟩ : Response).render.length ≤
        min 200 Frame.maxLength ∧
      ∃ frame, (⟨200, some .standard⟩ : Codec).encodeResponse
          ⟨[⟨0, 0, 1, 0, 1⟩, ⟨4294967295, 7, 2, 10, 15⟩], some "\"\n\x01é"⟩ = .ok frame ∧
        ∃ left, (⟨200, some .standard⟩ : Codec).readResponse (.ofBytes (frame ++ [7])) =
          (some (.error (.outOfLegend 1 10 15)), left) ∧ left.content = [7] := by
  have hfits :
      (⟨[⟨0, 0, 1, 0, 1⟩, ⟨4294967295, 7, 2, 10, 15⟩], some "\"\n\x01é"⟩ : Response).render.length ≤
      min 200 Frame.maxLength := by decide +kernel
  refine ⟨hfits, ?_⟩
  obtain ⟨frame, hframe, hreads⟩ := answers_carried ⟨200, some .standard⟩ _ hfits
  obtain ⟨result, left, hread, hleft, -, hlegend⟩ :=
    hreads (.ofBytes (frame ++ [7])) [7] (Source.content_ofBytes _)
  obtain ⟨-, hstray⟩ := hlegend .standard rfl
  have hsecond : ¬ Legend.standard.Names ⟨4294967295, 7, 2, 10, 15⟩ :=
    fun h => absurd h.1 (by decide)
  obtain ⟨i, t, hfirst, hresult⟩ := hstray fun hall => hsecond (hall _ (by simp))
  match i, hfirst with
  | 0, hfirst =>
      cases hfirst.at_index
      exact absurd ((Legend.covers_iff _ _).1 ⟨by decide, by decide⟩) hfirst.stray
  | 1, hfirst =>
      cases hfirst.at_index
      exact ⟨frame, hframe, left, hresult ▸ hread, hleft⟩
  | i + 2, hfirst =>
      exact absurd (hfirst.before 1 _ (Nat.succ_lt_succ (Nat.succ_pos i)) rfl) hsecond

end Codec

end SharpTokens
