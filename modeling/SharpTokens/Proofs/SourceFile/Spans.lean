import SharpTokens.Proofs.Grammar.Run.Progress
import SharpTokens.Proofs.Syntax.Everywhere
import SharpTokens.Proofs.Text.Slices

/-!
# Where nodes and names are in a text

The tree of a text is over words (`parse_placed`), and words are lexemes, which are parts of the
text one after another (`Lexed.placed`). So spans of nodes are nested and in order as the words are:
what covers a byte lies inside the node above it, and after what comes before it
(`Layout.spanOf_inside`, `Layout.spanOf_before`).

Only spans that cover a byte can be compared: a node without words is an empty span before the next
word, which may stand behind the end of the node above.

Spans of nodes are given by the first and last of their words. Comparing spans is thus comparing
words, and words are apart in the text. The root is the exception: it covers the whole text,
whatever stands around its words.
-/

namespace SharpTokens

open Text Grammar

namespace Text.Span

def NonEmpty (s : Span) : Prop := s.start < s.stop

def Inside (s t : Span) : Prop := t.start ≤ s.start ∧ s.stop ≤ t.stop

def Before (s t : Span) : Prop := s.stop ≤ t.start

end Text.Span

namespace Lexeme

variable {text : List Char} {l : Lexeme}

/-- A lexeme is the part of the text that its span is. -/
theorem In.slice (h : l.In text) : slice? text l.span = some l.text.toList :=
  slice?_eq_some_iff.2 h.2

/-- A lexeme covers at least a byte. -/
theorem In.nonEmpty (h : l.In text) : l.span.NonEmpty := by
  obtain ⟨hne, pre, post, -, hspan⟩ := h
  have hpos := byteSize_pos hne
  show l.span.start < l.span.stop
  rw [hspan]
  exact Nat.lt_add_of_pos_right hpos

theorem In.stop_le (h : l.In text) : l.span.stop ≤ byteSize text := by
  obtain ⟨-, pre, post, rfl, hspan⟩ := h
  rw [hspan, byteSize_append, byteSize_append]
  show byteSize pre + byteSize l.text.toList ≤ _
  omega

end Lexeme

/-! ## Spans of words

A word past the last one is at the end of the text, so starts are in order without exception. -/

abbrev layoutOf (text : List Char) : Layout :=
  .ofLexemes (LineIndex.ofText text) (byteSize text) (Lexed.ofText text).lexemes

namespace Layout

variable {text : List Char} {l m : Lexeme} {i j first past : Nat}

theorem lexemes_layoutOf (text : List Char) (i : Nat) :
    (layoutOf text).lexemes[i]? = (Lexed.ofText text).lexemes[i]? := by
  simp [ofLexemes]

/-- A word starts where its lexeme does. -/
theorem start_of_some (hl : (Lexed.ofText text).lexemes[i]? = some l) :
    (layoutOf text).start i = l.span.start := by
  rw [start, lexemes_layoutOf, hl]
  rfl

theorem start_of_none (hl : (Lexed.ofText text).lexemes[i]? = none) :
    (layoutOf text).start i = byteSize text := by
  rw [start, lexemes_layoutOf, hl]
  rfl

theorem in_of_some (hl : (Lexed.ofText text).lexemes[i]? = some l) : l.In text :=
  (Lexed.placed text).1 l (List.mem_of_getElem? hl)

/-- No word starts behind the text. -/
theorem start_le_size (text : List Char) (i : Nat) : (layoutOf text).start i ≤ byteSize text := by
  cases hl : (Lexed.ofText text).lexemes[i]? with
  | none => exact Nat.le_of_eq (start_of_none hl)
  | some l =>
      rw [start_of_some hl]
      have hin := in_of_some hl
      exact Nat.le_trans (Nat.le_of_lt hin.nonEmpty) hin.stop_le

/-- A lexeme ends before the next ones start. -/
theorem stop_le_start (hl : (Lexed.ofText text).lexemes[i]? = some l) (hij : i < j) :
    l.span.stop ≤ (layoutOf text).start j := by
  cases hm : (Lexed.ofText text).lexemes[j]? with
  | none =>
      rw [start_of_none hm]
      exact (in_of_some hl).stop_le
  | some m =>
      rw [start_of_some hm]
      obtain ⟨hi, rfl⟩ := List.getElem?_eq_some_iff.1 hl
      obtain ⟨hj, rfl⟩ := List.getElem?_eq_some_iff.1 hm
      exact List.pairwise_iff_getElem.1 (Lexed.placed text).2 i j hi hj hij

/-- Words start in their order. -/
theorem start_mono (text : List Char) (hij : i ≤ j) :
    (layoutOf text).start i ≤ (layoutOf text).start j := by
  rcases Nat.eq_or_lt_of_le hij with rfl | hlt
  · exact Nat.le_refl _
  · cases hl : (Lexed.ofText text).lexemes[i]? with
    | none =>
        have hm : (Lexed.ofText text).lexemes[j]? = none :=
          List.getElem?_eq_none_iff.2 (Nat.le_trans (List.getElem?_eq_none_iff.1 hl) hij)
        exact Nat.le_of_eq ((start_of_none hl).trans (start_of_none hm).symm)
    | some l =>
        rw [start_of_some hl]
        exact Nat.le_trans (Nat.le_of_lt (in_of_some hl).nonEmpty) (stop_le_start hl hlt)

/-! ### Spans of several words

A span goes from the start of its first word to the end of its last. With no words it is empty, at
the start of the word that would be the first. -/

theorem spanOf_start_le (l : Layout) (first past : Nat) :
    (l.spanOf first past).start ≤ (l.spanOf first past).stop :=
  Nat.le_max_left _ _

/-- Words end where their last one does, unless they start behind it. -/
theorem spanOf_stop (hl : (Lexed.ofText text).lexemes[i]? = some l) :
    ((layoutOf text).spanOf first (i + 1)).stop = max ((layoutOf text).start first)
      l.span.stop := by
  show max _ (Option.getD (Option.map _ (layoutOf text).lexemes[i]?) _) = _
  rw [lexemes_layoutOf, hl]
  rfl

/-- Words past the last one cover nothing. -/
theorem spanOf_stop_of_none (hl : (Lexed.ofText text).lexemes[i]? = none) :
    ((layoutOf text).spanOf first (i + 1)).stop = (layoutOf text).start first := by
  show max _ (Option.getD (Option.map _ (layoutOf text).lexemes[i]?) _) = _
  rw [lexemes_layoutOf, hl]
  exact Nat.max_self _

/-- No span ends behind the text. -/
theorem spanOf_stop_le (text : List Char) (first past : Nat) :
    ((layoutOf text).spanOf first past).stop ≤ byteSize text := by
  have hstart := start_le_size text first
  cases past with
  | zero => exact Nat.max_le.2 ⟨hstart, hstart⟩
  | succ last =>
      cases hl : (Lexed.ofText text).lexemes[last]? with
      | none => rwa [spanOf_stop_of_none hl]
      | some l =>
          rw [spanOf_stop hl]
          exact Nat.max_le.2 ⟨hstart, (in_of_some hl).stop_le⟩

/-- Words that cover a byte have a last one, and end with it. -/
theorem exists_last (h : ((layoutOf text).spanOf first past).NonEmpty) :
    ∃ last l, past = last + 1 ∧ first ≤ last ∧ (Lexed.ofText text).lexemes[last]? = some l ∧
      ((layoutOf text).spanOf first past).stop = l.span.stop := by
  have hlt : (layoutOf text).start first < ((layoutOf text).spanOf first past).stop := h
  cases past with
  | zero => exact absurd hlt (Nat.not_lt.2 (Nat.le_of_eq (Nat.max_self _)))
  | succ last =>
      cases hl : (Lexed.ofText text).lexemes[last]? with
      | none =>
          rw [spanOf_stop_of_none hl] at hlt
          exact absurd hlt (Nat.lt_irrefl _)
      | some l =>
          rw [spanOf_stop hl] at hlt ⊢
          refine ⟨last, l, rfl, ?_, hl, by omega⟩
          -- a last word before the first one would end before the span starts
          by_contra hfirst
          have := stop_le_start hl (Nat.lt_of_not_le hfirst)
          omega

/-- Some of the words of a span are inside it. -/
theorem spanOf_inside {first' past' : Nat} (hfirst : first ≤ first') (hpast : past' ≤ past)
    (h : ((layoutOf text).spanOf first past).NonEmpty)
    (h' : ((layoutOf text).spanOf first' past').NonEmpty) :
    ((layoutOf text).spanOf first' past').Inside ((layoutOf text).spanOf first past) := by
  obtain ⟨last, l, rfl, -, hl, hstop⟩ := exists_last h
  obtain ⟨last', l', rfl, -, hl', hstop'⟩ := exists_last h'
  refine ⟨start_mono text hfirst, ?_⟩
  rw [hstop, hstop']
  rcases Nat.eq_or_lt_of_le (Nat.le_of_succ_le_succ hpast) with rfl | hlt
  · cases hl.symm.trans hl'
    exact Nat.le_refl _
  · have hle := stop_le_start hl' hlt
    rw [start_of_some hl] at hle
    exact Nat.le_trans hle (Nat.le_of_lt (in_of_some hl).nonEmpty)

/-- Words that come first end before the others start. -/
theorem spanOf_before {first' past' : Nat} (hpast : past ≤ first')
    (h : ((layoutOf text).spanOf first past).NonEmpty) :
    ((layoutOf text).spanOf first past).Before ((layoutOf text).spanOf first' past') := by
  obtain ⟨last, l, rfl, -, hl, hstop⟩ := exists_last h
  show ((layoutOf text).spanOf first (last + 1)).stop ≤ _
  rw [hstop]
  exact stop_le_start hl hpast

theorem span_of_some (hl : (Lexed.ofText text).lexemes[i]? = some l) :
    (layoutOf text).span i = l.span := by
  rw [span, lexemes_layoutOf, hl]
  rfl

/-- A word is inside the span of words among which it is. -/
theorem span_inside (hfirst : first ≤ i) (hpast : i < past)
    (hsize : past ≤ (Lexed.ofText text).lexemes.length) :
    ((layoutOf text).span i).Inside ((layoutOf text).spanOf first past) := by
  obtain ⟨last, rfl⟩ := Nat.exists_eq_add_one.2 (Nat.lt_of_le_of_lt (Nat.zero_le i) hpast)
  obtain ⟨l, hl⟩ : ∃ l, (Lexed.ofText text).lexemes[i]? = some l :=
    ⟨_, List.getElem?_eq_getElem (by omega)⟩
  obtain ⟨m, hm⟩ : ∃ m, (Lexed.ofText text).lexemes[last]? = some m :=
    ⟨_, List.getElem?_eq_getElem (by omega)⟩
  rw [span_of_some hl]
  constructor
  · rw [← start_of_some hl]
    exact start_mono text hfirst
  · rw [spanOf_stop hm]
    rcases Nat.eq_or_lt_of_le (Nat.le_of_lt_succ hpast) with rfl | hlt
    · cases hl.symm.trans hm
      exact Nat.le_max_right _ _
    · have hle := stop_le_start hl hlt
      rw [start_of_some hm] at hle
      have hm := (in_of_some hm).nonEmpty
      exact Nat.le_trans (Nat.le_trans hle (Nat.le_of_lt hm)) (Nat.le_max_right _ _)

/-- The position of a word is that of the offset at which it starts. -/
theorem position_eq (text : List Char) (i : Nat) :
    (layoutOf text).position i = (LineIndex.ofText text).position ((layoutOf text).start i) := by
  cases hl : (Lexed.ofText text).lexemes[i]? with
  | some l =>
      rw [start_of_some hl]
      exact position_ofLexemes (Lexed.placed text).1 hl
  | none =>
      rw [start_of_none hl, position, Array.getElem?_eq_none]
      · rfl
      · show (positions _ _).size ≤ i
        rw [positions_size, List.length_map]
        exact List.getElem?_eq_none_iff.1 hl

end Layout

/-! ## Spans of nodes

By recursion on trees that lie over words, as `Grammar.Placed` says. -/

/-- A node of a tree is laid out like its text. -/
structure LaidOut (text : List Char) (l : Layout) (label : Label) (below : List Node) : Prop where
  /-- It is in the text. -/
  inText : (l.nodeSpan label).start ≤ (l.nodeSpan label).stop ∧
    (l.nodeSpan label).stop ≤ byteSize text
  /-- What is below it is inside it. -/
  inside : ∀ t ∈ below, (l.nodeSpan label).NonEmpty → (l.nodeSpan t.label).NonEmpty →
    (l.nodeSpan t.label).Inside (l.nodeSpan label)
  /-- What is below it is in order and does not overlap. -/
  apart : below.Pairwise fun t u => (l.nodeSpan t.label).NonEmpty → (l.nodeSpan u.label).NonEmpty →
    (l.nodeSpan t.label).Before (l.nodeSpan u.label)
  /-- Its name is a part of the text inside it. -/
  present : ∀ {word s}, label.name = some (.present word s) →
    slice? text (l.nameSpan (.present word s)) = some s.toList ∧
      (l.nameSpan (.present word s)).Inside (l.nodeSpan label) ∧
      l.identifier (.present word s)
        = ⟨s, (LineIndex.ofText text).position (l.nameSpan (.present word s)).start, false⟩
  /-- A name that is missing has no text, and is missing before a lexeme or at the end. -/
  missing : ∀ {word}, label.name = some (.missing word) → ∃ offset, offset ≤ byteSize text ∧
    (offset = byteSize text ∨ ∃ lexeme ∈ (Lexed.ofText text).lexemes, offset = lexeme.span.start) ∧
    l.nameSpan (.missing word) = .point offset ∧
    l.identifier (.missing word) = ⟨"", (LineIndex.ofText text).position offset, true⟩

namespace Grammar.Placed

variable {text : List Char} {lo hi : Nat} {label : Label} {below : List Node}

/-- A node inside a text has the span of its words. -/
theorem nodeSpan_eq {t : Node} (h : Placed (wordsOfText text) lo hi [t]) :
    (layoutOf text).nodeSpan t.label = (layoutOf text).spanOf t.label.first t.label.past := by
  obtain ⟨label, below⟩ := t
  exact if_neg h.first.2.2.inner

/-- What lies over words one after another is laid out one after another. -/
theorem apart_nodeSpan (h : Placed (wordsOfText text) lo hi below) :
    below.Pairwise fun t u => ((layoutOf text).nodeSpan t.label).NonEmpty →
      ((layoutOf text).nodeSpan u.label).NonEmpty →
      ((layoutOf text).nodeSpan t.label).Before ((layoutOf text).nodeSpan u.label) := by
  refine h.apart.imp_of_mem fun ht hu hpast hnonempty _ => ?_
  rw [(h.of_mem ht).nodeSpan_eq] at hnonempty ⊢
  rw [(h.of_mem hu).nodeSpan_eq]
  exact Layout.spanOf_before hpast hnonempty

/-- A node over words is laid out like the text of the words. -/
theorem laidOut (h : Placed (wordsOfText text) lo hi [.node label below])
    (hhi : hi ≤ (wordsOfText text).size) :
    LaidOut text (layoutOf text) label below := by
  obtain ⟨hname, hbelow, -⟩ := h.first
  have hspan : (layoutOf text).nodeSpan label = (layoutOf text).spanOf label.first label.past :=
    h.nodeSpan_eq
  have hpast : label.past ≤ (Lexed.ofText text).lexemes.length := by
    rw [← wordsOfText_size]
    exact Nat.le_trans h.past_le hhi
  -- the bounds, what is below, what is side by side, and the name, which may be missing
  refine ⟨?_, fun t ht hnode hbelow' => ?_, hbelow.apart_nodeSpan, @fun word _ hpresent => ?_,
    @fun word hmissing => ?_⟩
  · rw [hspan]
    exact ⟨Layout.spanOf_start_le _ _ _, Layout.spanOf_stop_le text _ _⟩
  · obtain ⟨l, ts⟩ := t
    have hplaced := hbelow.of_mem ht
    rw [hspan] at hnode ⊢
    rw [hplaced.nodeSpan_eq] at hbelow' ⊢
    exact Layout.spanOf_inside hplaced.le_first hplaced.past_le hnode hbelow'
  · rw [hpresent] at hname
    cases hname with
    | present hfirst hlast hident =>
        obtain ⟨l, hl, -, htext⟩ := lexeme_of_word hident
        have hnameSpan : (layoutOf text).nameSpan
            (.present word ((wordsOfText text).text word)) = l.span :=
          Layout.span_of_some hl
        refine ⟨?_, ?_, ?_⟩
        · rw [hnameSpan, htext]
          exact (Layout.in_of_some hl).slice
        · rw [hspan]
          exact Layout.span_inside hfirst hlast hpast
        · rw [hnameSpan, ← Layout.start_of_some hl, ← Layout.position_eq]
          rfl
  · rw [hmissing] at hname
    cases hname with
    | missing _ _ =>
        refine ⟨(layoutOf text).start word, Layout.start_le_size text word, ?_, rfl, ?_⟩
        · cases hl : (Lexed.ofText text).lexemes[word]? with
          | none => exact Or.inl (Layout.start_of_none hl)
          | some l => exact Or.inr ⟨l, List.mem_of_getElem? hl, Layout.start_of_some hl⟩
        · rw [← Layout.position_eq]
          rfl

/-- So is all that is below it. -/
theorem everywhere_laidOut {t : Node} (h : Placed (wordsOfText text) lo hi [t])
    (hhi : hi ≤ (wordsOfText text).size) :
    t.Everywhere (LaidOut text (layoutOf text)) := by
  induction t using Tree.induct_below generalizing lo hi with
  | node label below ih =>
      have hpast := Nat.le_trans h.past_le hhi
      exact .node (h.laidOut hhi) fun t ht => ih t ht (h.first.2.1.of_mem ht) hpast

end Grammar.Placed

/-- The tree of a text lies over all of its words. -/
theorem Grammar.parse_placed_whole {words : Words} (limit : Nat)
    (few : words.size < Guard.unlimited) :
    ∃ below, (parse words limit).tree = .node ⟨.compilationUnit, 0, words.size, none, .none⟩ below ∧
      Placed words 0 words.size below := by
  obtain ⟨tree, more, hparse, hgives⟩ := @parse_whole _ limit few
  have hrun := hgives (.unfolded 0) _ (Nat.le_refl _) #[]
  rw [← Nonterminals.unfolded_eq] at hrun
  have hplaced := Nonterminals.compilationUnit_places
    (Nonterminals.unfolded_orderly ⟨words, limit⟩ (4 * (words.size + 1))) .initial rfl
  rw [show State.initial = ⟨0, ⟨0⟩, #[]⟩ from rfl, hrun] at hplaced
  rwa [hparse]

/-- **The tree of a text is laid out like the text**, under any limit. Spans that cover a byte are
nested as the nodes are and in their order, and each name is the part of the text at its span. -/
theorem ofText_laidOut (text : List Char) (limit : Nat) (hsize : byteSize text < Guard.unlimited) :
    (SourceFile.ofText text limit).tree.Everywhere
      (LaidOut text (SourceFile.ofText text limit).layout) := by
  have few := wordsOfText_few hsize
  obtain ⟨below, htree, hbelow⟩ := parse_placed_whole limit few
  show (parse (wordsOfText text) limit).tree.Everywhere (LaidOut text (layoutOf text))
  rw [htree]
  refine .node ⟨?_, fun t ht _ _ => ?_, hbelow.apart_nodeSpan, nofun, nofun⟩ fun t ht => ?_
  · exact ⟨Nat.zero_le _, Nat.le_refl _⟩
  · -- the root is the whole text
    rw [(hbelow.of_mem ht).nodeSpan_eq]
    exact ⟨Nat.zero_le _, Layout.spanOf_stop_le text _ _⟩
  · exact (hbelow.of_mem ht).everywhere_laidOut (Nat.le_refl _)

/-- A class without a name, a method without a type, and a comment that is not closed. -/
theorem ofText_laidOut_missing :
    byteSize "class \x7b é( /* \x7d".toList < Guard.unlimited ∧
      (SourceFile.ofText "class \x7b é( /* \x7d".toList 2).tree.Everywhere
        (LaidOut "class \x7b é( /* \x7d".toList (SourceFile.ofText "class \x7b é( /* \x7d".toList
          2).layout) :=
  ⟨by decide, ofText_laidOut _ 2 (by decide)⟩

end SharpTokens
