import SharpTokens.Engine
import SharpTokens.Proofs.Grammar.Units
import SharpTokens.Proofs.Lexeme.Tiling
import SharpTokens.Proofs.Token.Words

/-!
# The order of tokens

Every token of a C# text marks an identifier in it, no two of them the same one, and the tokens are
in the order of the identifiers (`foundTokens_mark`). Since lexemes do not overlap, neither do the
tokens, so the walk finds them in reading order already (`csharp_tokens_ordered`).

Words are lexemes without their places, and the layout puts them back. A token is then at the
position of a lexeme and as long as its text. Lexemes are apart in bytes, and hence in lines and
columns as long as these have numbers.
-/

namespace SharpTokens

open Text Grammar

/-! ## Words and lexemes

The word at an index is the lexeme at that index. -/

/-- Words have the kinds and texts of their lexemes. -/
theorem map_wordsOf (ls : List Lexeme) (found : Array Word) :
    (wordsOf ls found).toList.map (fun w => (w.kind, w.text))
      = found.toList.map (fun w => (w.kind, w.text)) ++ ls.map fun l => (l.kind, l.text) := by
  fun_induction wordsOf ls found with
  | case1 found => simp
  | case2 found l => simp
  | case3 found l m rest ih => simp [ih]

/-- A word of some kind is a lexeme of that kind, with its text. -/
theorem lexeme_of_word {ls : List Lexeme} {w : Nat} {k : Kind}
    (h : Words.is (wordsOf ls #[]) w k = true) :
    ∃ l, ls[w]? = some l ∧ l.kind = k ∧ Words.text (wordsOf ls #[]) w = l.text := by
  have hmap := congrArg (·[w]?) (map_wordsOf ls #[])
  simp only [List.map_nil, List.nil_append, List.getElem?_map, Array.getElem?_toList] at hmap
  rw [Words.is, Words.kind?, beq_iff_eq] at h
  obtain ⟨word, hword, rfl⟩ := Option.map_eq_some_iff.1 h
  rw [hword, Option.map_some] at hmap
  obtain ⟨l, hl, heq⟩ := Option.map_eq_some_iff.1 hmap.symm
  injection heq with hkind htext
  exact ⟨l, hl, hkind, by rw [Words.text, hword, htext]; rfl⟩

/-- The position of a word is that of its lexeme. -/
theorem Layout.position_ofLexemes {text : List Char} {ls : List Lexeme} {size w : Nat} {l : Lexeme}
    (hin : ∀ l ∈ ls, l.In text) (hl : ls[w]? = some l) :
    (Layout.ofLexemes (LineIndex.ofText text) size ls).position w
      = (LineIndex.ofText text).position l.span.start := by
  have hboundaries : AreBoundaries text (ls.map (·.span.start)) := by
    intro offset hoffset
    obtain ⟨m, hm, rfl⟩ := List.mem_map.1 hoffset
    exact (hin m hm).boundary
  show ((positions (LineIndex.ofText text) (ls.map (·.span.start)))[w]?).getD _ = _
  rw [← Array.getElem?_toList, positions_eq hboundaries, List.getElem?_map, List.getElem?_map, hl]
  rfl

/-! ## Tokens and lexemes

From the order of lexemes by bytes to that of tokens by lines and columns. -/

/-- A token marks an identifier of a text: it is where the identifier is, and as long. -/
structure Token.Marks (text : List Char) (t : Token) (l : Lexeme) : Prop where
  kind : l.kind = .ident
  position : t.position = (LineIndex.ofText text).position l.span.start
  length : t.length.toNat = width l.text.toList

def Token.Before (s t : Token) : Prop := s.line < t.line ∨ s.line = t.line ∧ s.start < t.start

/-- One token ends before another starts, if they are on one line. -/
def Token.Clear (s t : Token) : Prop :=
  s.line = t.line → s.start.toNat + s.length.toNat ≤ t.start.toNat

namespace Token

/-- What starts before is not later in reading order. -/
theorem Before.le {s t : Token} (h : s.Before t) : s.le t = true := by
  rw [Token.le, Position.le, Bool.or_eq_true, Bool.and_eq_true]
  rcases h with hline | ⟨hline, hstart⟩
  · exact Or.inl (decide_eq_true hline)
  · exact Or.inr ⟨beq_iff_eq.2 hline, decide_eq_true (UInt32.le_of_lt hstart)⟩

/-- Tokens are as far apart as the identifiers that they mark. -/
theorem Marks.before_clear {text : List Char} {s t : Token} {l m : Lexeme} (hs : s.Marks text l)
    (ht : t.Marks text m) (hl : l.In text) (hm : m.In text) (hlm : l.Before m)
    (hsize : byteSize text < UInt32.size) : s.Before t ∧ s.Clear t := by
  have hwidth := width_pos hl.1
  have hlength := hs.length
  have hapart : s.line.toNat < t.line.toNat ∨
      s.line = t.line ∧ s.start.toNat + s.length.toNat ≤ t.start.toNat := by
    have h := hl.position_lt hm hlm hsize
    rwa [← hs.position, ← ht.position, ← hs.length] at h
  rcases hapart with hline | ⟨hline, hstart⟩
  · refine ⟨Or.inl (UInt32.lt_iff_toNat_lt.2 hline), fun heq => ?_⟩
    rw [heq] at hline
    exact absurd hline (Nat.lt_irrefl _)
  · exact ⟨Or.inr ⟨hline, UInt32.lt_iff_toNat_lt.2 (by omega)⟩, fun _ => by omega⟩

end Token

/-- What is related in order to things that are in order is in order. -/
theorem pairwise_of_forall₂ {α β : Type} {R : α → β → Prop} {S : β → β → Prop} {T : α → α → Prop}
    {as : List α} {bs : List β} (h : List.Forall₂ R as bs) (hbs : bs.Pairwise S)
    (hT : ∀ a b x y, R a x → R b y → S x y → T a b) : as.Pairwise T := by
  refine List.pairwise_iff_getElem.2 fun i j hi hj hij => ?_
  have hlength := h.length_eq
  exact hT _ _ _ _ (h.get hi (hlength ▸ hi)) (h.get hj (hlength ▸ hj))
    (List.pairwise_iff_getElem.1 hbs i j _ _ hij)

/-! ## Texts

The sort at the end of the walk finds the tokens in order and leaves them so. -/

section

variable (text : List Char) (legend : Legend) (limit : Nat)

/-- The tokens that the walk through the tree of a text finds. -/
def foundTokens : List Token :=
  (((SourceFile.ofText text limit).layout.walk legend).collect
    [⟨(SourceFile.ofText text limit).tree, none, none⟩] #[]).toList

/-- **Tokens mark identifiers, each one of its own and in their order.** -/
theorem foundTokens_mark (hsize : byteSize text < UInt32.size) :
    ∃ places : List Nat, places.Pairwise (· < ·) ∧
      List.Forall₂ (fun t place => ∃ l, (Lexed.ofText text).lexemes[place]? = some l ∧ l.In text ∧
        t.Marks text l) (foundTokens text legend limit) places := by
  obtain ⟨hin, -⟩ := Lexed.placed text
  obtain ⟨hi, members, htree, hmembers⟩ :=
    parse_placed (wordsOf (Lexed.ofText text).lexemes #[]) limit
  obtain ⟨hascending, hident⟩ := hmembers.ascending
  obtain ⟨places, hplaces, hpoints⟩ : Follow (SourceFile.ofText text limit).layout _
      (((SourceFile.ofText text limit).layout.walk legend).tokensBelow none none
        (SourceFile.ofText text limit).tree) (nameWordsAll members) := by
    rw [show (SourceFile.ofText text limit).tree = _ from htree]
    exact Layout.tokensBelow_unit_follow hi hmembers
  refine ⟨places, hascending.sublist hplaces, ?_⟩
  rw [foundTokens, Walk.Context.collect_root]
  -- each place is a word that is an identifier, so it is a lexeme's
  have hboth := (List.forall₂_and_left _ _).2
    ⟨fun w hw => hident w (hplaces.mem hw),
      List.Forall₂.flip (R := flip (Token.PointsAt _ _)) hpoints⟩
  refine (List.Forall₂.flip hboth).imp ?_
  rintro t w ⟨⟨-, -, hw⟩, hposition, hlength⟩
  obtain ⟨l, hl, hkind, htext⟩ := lexeme_of_word hw
  have hlin := hin l (List.mem_of_getElem? hl)
  refine ⟨l, hl, hlin, hkind, ?_, ?_⟩
  · rw [hposition]
    exact Layout.position_ofLexemes hin hl
  · rw [hlength, htext, saturate_toNat (Nat.lt_of_le_of_lt hlin.width_le hsize)]

/-- The walk finds tokens one after another, and apart. -/
theorem foundTokens_apart (hsize : byteSize text < UInt32.size) :
    (foundTokens text legend limit).Pairwise fun s t => s.Before t ∧ s.Clear t := by
  obtain ⟨-, hbefore⟩ := Lexed.placed text
  obtain ⟨places, hplaces, hmarks⟩ := foundTokens_mark text legend limit hsize
  refine pairwise_of_forall₂ hmarks hplaces ?_
  rintro s t v w ⟨l, hl, hlin, hs⟩ ⟨m, hm, hmin, ht⟩ hvw
  refine hs.before_clear ht hlin hmin ?_ hsize
  obtain ⟨hv, rfl⟩ := List.getElem?_eq_some_iff.1 hl
  obtain ⟨hw, rfl⟩ := List.getElem?_eq_some_iff.1 hm
  exact List.pairwise_iff_getElem.1 hbefore v w hv hw hvw

/-- Tokens that are found in order are left so. -/
theorem tokens_eq_foundTokens (hsize : byteSize text < UInt32.size) :
    ((SourceFile.ofText text limit).layout.walk legend).tokens (SourceFile.ofText text limit).tree
      = foundTokens text legend limit := by
  refine List.mergeSort_of_pairwise ?_
  exact (foundTokens_apart text legend limit hsize).imp fun h => h.1.le

end

/-- A text that is taken always has tokens. -/
theorem csharp_tokenize (legend : Legend) {maxSource : Nat} (limit : Nat) {source : String}
    (hmax : source.utf8ByteSize ≤ maxSource) :
    (Engine.csharp legend maxSource limit).tokenize source
      = .ok ⟨((SourceFile.ofText source.toList limit).layout.walk legend).tokens
          (SourceFile.ofText source.toList limit).tree,
        (SourceFile.ofText source.toList limit).diagnostics.length⟩ := by
  have hnot : ¬ maxSource < source.utf8ByteSize := Nat.not_lt.2 hmax
  simp only [Engine.tokenize, Engine.csharp, Engine.tokensOf]
  exact if_neg hnot

/-- **The tokens of a C# text are in order and apart.** For every text that is taken and has less
than `2 ^ 32` bytes, each token starts after the one before it, and on one line not before its end.
The tokens mark lexemes that are identifiers, each one of its own and in the order of the lexemes;
and they come out of the walk in this order, so sorting changes nothing. -/
theorem csharp_tokens_ordered (legend : Legend) (maxSource limit : Nat) (source : String)
    (hsize : source.utf8ByteSize < UInt32.size) (hmax : source.utf8ByteSize ≤ maxSource) :
    ∃ r t, (Engine.csharp legend maxSource limit).read source = .ok r ∧
      (Engine.csharp legend maxSource limit).tokenize source = .ok t ∧
      t.tokens.Pairwise Token.Before ∧
      t.tokens.Pairwise Token.Clear ∧
      (∃ places : List Nat, places.Pairwise (· < ·) ∧
        List.Forall₂ (fun token place => ∃ l,
          (Lexed.ofText source.toList).lexemes[place]? = some l ∧
          l.In source.toList ∧ token.Marks source.toList l) t.tokens places) ∧
      t.tokens = ((Walk.Context.mk legend r.view).collect [⟨r.tree, none, none⟩] #[]).toList := by
  have hsize : byteSize source.toList < UInt32.size := byteSize_toList source ▸ hsize
  have hapart := foundTokens_apart source.toList legend limit hsize
  refine ⟨_, _, rfl, csharp_tokenize legend limit hmax, ?_⟩
  rw [tokens_eq_foundTokens source.toList legend limit hsize]
  have hmark := foundTokens_mark source.toList legend limit hsize
  refine ⟨?_, ?_, hmark, ?_⟩
  · exact hapart.imp fun h => h.1
  · exact hapart.imp fun h => h.2
  · rw [foundTokens]

/-- A dotted name with an escaped part, and parameters on two lines. -/
theorem csharp_tokens_ordered_delegate : ∃ r t,
    (Engine.csharp .standard Engine.defaultMaxSource 256).read
        "namespace A.@B;\ndelegate void D(int p,\n int q);" = .ok r ∧
      (Engine.csharp .standard Engine.defaultMaxSource 256).tokenize
        "namespace A.@B;\ndelegate void D(int p,\n int q);" = .ok t ∧
      t.tokens.Pairwise Token.Before ∧ t.tokens.Pairwise Token.Clear :=
  let ⟨r, t, hread, htokenize, hbefore, hclear, _⟩ :=
    csharp_tokens_ordered .standard Engine.defaultMaxSource 256 _ (by decide) (by decide)
  ⟨r, t, hread, htokenize, hbefore, hclear⟩

end SharpTokens
