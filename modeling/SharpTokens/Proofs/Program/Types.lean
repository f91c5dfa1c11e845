import SharpTokens.Proofs.Grammar.Types
import SharpTokens.Proofs.Program.Syntax

/-!
# Types are recognised

The types of programs are types of the grammar (`TypeTerm.formed`). So where one is spelled and a
name, a comma or a `>` follows, the look at the words ahead recognises just that type
(`TypeTerm.typeEnd?_eq`), as long as its arguments nest within the limit.

The types of programs are given by their own syntax, so they are first shown to be forms of the
grammar of types; that these are recognised is known already.
-/

namespace SharpTokens.Program

open Grammar
open Grammar.Words (TypePart)

variable {ws : Words} {lo hi i j : Nat} {l m : List Spelled}

/-! ## Spelled words

Words that are spelled as given stand at a place among the words of a text. -/

/-- The words from `lo` to before `hi` are spelled as given. -/
def Spells (ws : Words) (lo : Nat) : List Spelled → (hi : Nat) → Prop
  | [], hi => lo = hi
  | w :: l, hi => (ws.kind? lo = some w.kind ∧ ws.text lo = w.text) ∧ Spells ws (lo + 1) l hi

@[simp] theorem spells_nil : Spells ws lo [] hi ↔ lo = hi := Iff.rfl

@[simp] theorem spells_cons {w : Spelled} :
    Spells ws lo (w :: l) hi ↔ (ws.kind? lo = some w.kind ∧ ws.text lo = w.text) ∧
      Spells ws (lo + 1) l hi := Iff.rfl

/-- Two lists of words, one after the other. -/
@[simp] theorem spells_append : Spells ws lo (l ++ m) hi ↔ ∃ mid, Spells ws lo l mid ∧
    Spells ws mid m hi := by
  induction l generalizing lo with
  | nil => simp
  | cons w l ih => simp [ih, and_assoc]

theorem Spells.eq_add (h : Spells ws lo l hi) : lo + l.length = hi := by
  induction l generalizing lo with
  | nil => exact h
  | cons w l ih =>
      have := ih h.2
      rw [List.length_cons]
      omega

theorem Spells.le_size (h : Spells ws lo l hi) (hlo : lo ≤ ws.size) : hi ≤ ws.size := by
  induction l generalizing lo with
  | nil => exact h ▸ hlo
  | cons w l ih => exact ih h.2 (Words.lt_size_of_kind? h.1.1)

theorem Spells.runs (h : Spells ws lo l hi) : Words.Runs ws lo (l.map (·.kind)) hi := by
  induction l generalizing lo with
  | nil => exact h
  | cons w l ih => exact ⟨h.1.1, ih h.2⟩

/-- What may stand after a part of a type. -/
def Closes (ws : Words) (i : Nat) : TypePart → Prop
  | .type => ws.isAny i [.ident, .comma, .gt] = true
  | .segments => ws.isAny i [.ident, .comma, .gt, .question, .lbracket] = true
  | .arguments | .elements _ => True

/-! ## Types are forms of the grammar

By recursion on the term, for its three sorts at once. -/

theorem suffixes_spell (suffixes : List Suffix) :
    Suffixes ((suffixes.flatMap Suffix.spell).map (·.kind)) := by
  induction suffixes with
  | nil => exact .none
  | cons s suffixes ih =>
      rw [List.flatMap_cons, List.map_append]
      cases s with
      | nullable => exact .nullable ih
      | array commas =>
          have h := Suffixes.array commas ih
          simpa [Suffix.spell, mark] using h

/-- What a part of a type is in the grammar. The segments of a name after its first make a name of
any first segment. -/
def Formed (n : Nat) (ks : List Kind) : TypePart → Prop
  | .type => Forms .type n ks
  | .arguments => ∃ ls, ks = ls ++ [.gt] ∧ Forms .arguments (n + 1) ls
  | .segments => ∀ {m ls}, Forms .segment m ls → Forms .segments (max m n) (ls ++ ks)
  | .elements _ => True

/-- Each part of a type is a form of the grammar, and nests as deep as the part does. -/
theorem TypeTerm.formed {part : TypePart} (t : TypeTerm part) :
    Formed t.nesting (t.spell.map (·.kind)) part := by
  induction t with
  | builtin builtin suffixes =>
      refine Forms.builtin ?_ (suffixes_spell suffixes)
      cases builtin <;> simp [Builtin.word, mark]
  | named name rest suffixes ih =>
      have h := Forms.named (ih .plain) (suffixes_spell suffixes)
      rw [Nat.zero_max] at h
      simpa [Formed, spell, nesting, used] using h
  | applied name arguments rest suffixes iharguments ih =>
      obtain ⟨ls, hls, harguments⟩ := iharguments
      have h := Forms.named (ih (.applied harguments)) (suffixes_spell suffixes)
      simpa [Formed, spell, nesting, used, mark, hls] using h
  | argument first rest ihfirst ih =>
      obtain ⟨ls, hls, hrest⟩ := ih
      refine ⟨first.spell.map (·.kind) ++ .comma :: ls, ?_, ?_⟩
      · simp [spell, mark, hls]
      · have h := Forms.argument ihfirst hrest
        rwa [Nat.add_max_add_right] at h
  | lastArgument last ih => exact ⟨_, by simp [spell, mark], .lastArgument ih⟩
  | noSegment =>
      intro m ls h
      simpa [spell, nesting] using Forms.lastSegment h
  | segment name rest ih =>
      intro m ls h
      have h' := Forms.dotted h (ih .plain)
      rw [Nat.zero_max] at h'
      simpa [spell, nesting, used, mark] using h'
  | appliedSegment name arguments rest iharguments ih =>
      intro m ls h
      obtain ⟨ls', hls', harguments⟩ := iharguments
      have h' := Forms.dotted h (ih (.applied harguments))
      simpa [spell, nesting, used, mark, hls'] using h'

/-- **Types are recognised where they are spelled.** -/
theorem TypeTerm.typeEnd?_eq (t : TypeTerm .type) {limit : Nat} (h : Spells ws i t.spell j)
    (hj : Closes ws j .type) (hlimit : t.nesting ≤ limit) : ws.typeEnd? limit i = some j := by
  have hnext : ws.isAny j Words.typeGoesOn = false := Words.isAny_eq_false_of_isAny hj (by decide)
  exact Words.typeEnd?_eq_some.2 (Forms.found t.formed hlimit h.runs hnext)

/-! ## What stands around types

Behind a part of a type there is what its surroundings put there, and that never goes on with a
type. -/

/-- Marks behind a name, or what follows the type. -/
theorem closes_segments {suffixes : List Suffix} (h : Spells ws i (suffixes.flatMap Suffix.spell) j)
    (hj : Closes ws j .type) : Closes ws i .segments := by
  cases suffixes with
  | nil =>
      obtain rfl : i = j := h
      exact Words.isAny_mono hj (by decide)
  | cons s suffixes =>
      cases s with
      | nullable =>
          rw [Closes, Words.isAny_of_kind? h.1.1]
          rfl
      | array commas =>
          rw [Closes, Words.isAny_of_kind? h.1.1]
          rfl

/-- What may stand after a name in a type. -/
def FollowsName (ws : Words) (i : Nat) : Prop :=
  ws.isAny i [.dot, .ident, .comma, .gt, .question, .lbracket] = true

/-- Behind the first segment of a name there is another one, a mark, or what follows the type. -/
theorem TypeTerm.followsName (rest : TypeTerm .segments) (h : Spells ws i rest.spell j)
    (hj : Closes ws j .segments) :
    FollowsName ws i := by
  cases rest with
  | noSegment =>
      obtain rfl : i = j := h
      exact Words.isAny_mono hj (by decide)
  | segment name rest =>
      rw [FollowsName, Words.isAny_of_kind? h.1.1]
      rfl
  | appliedSegment name arguments rest =>
      rw [FollowsName, Words.isAny_of_kind? h.1.1]
      rfl

/-- What a type starts with, and that no parenthesis follows it. -/
theorem TypeTerm.starts (t : TypeTerm .type) (h : Spells ws i t.spell j) (hj : Closes ws j .type) :
    ws.isAny i [.ident, .predefinedType, .voidKw] = true ∧ ws.is (i + 1) .lparen = false := by
  cases t with
  | builtin builtin suffixes =>
      have hnext := closes_segments h.2 hj
      refine ⟨?_, Words.is_eq_false_of_isAny hnext (by decide)⟩
      rw [Words.isAny_of_kind? h.1.1]
      cases builtin <;> rfl
  | named name rest suffixes =>
      obtain ⟨mid, hrest, hsuffixes⟩ := spells_append.1 h.2
      have hnext := rest.followsName hrest (closes_segments hsuffixes hj)
      refine ⟨?_, Words.is_eq_false_of_isAny hnext (by decide)⟩
      rw [Words.isAny_of_kind? h.1.1]
      rfl
  | applied name arguments rest suffixes =>
      refine ⟨?_, ?_⟩
      · rw [Words.isAny_of_kind? h.1.1]
        rfl
      · rw [Words.is_of_kind? h.2.1.1]
        rfl

end SharpTokens.Program
