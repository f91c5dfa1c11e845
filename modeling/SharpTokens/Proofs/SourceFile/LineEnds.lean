import SharpTokens.Proofs.Directive.LineEnds
import SharpTokens.Proofs.SourceFile.Words

/-!
# Line ends and tokens

The tokens of a text do not depend on how its lines end: with a carriage return before each line
feed they are the same (`tokenize_crlf`). The lexemes are read the same (`Lexeme.alike_crlf`), so
the tree is the same, and every word is where it was (`Layout.position_crlf`). The errors need not
be the same, but tokens do not depend on them.

A word is where it was because its place is: the bytes in front of it are those of the text before,
with carriage returns, and lines and columns do not count these.
-/

namespace SharpTokens

open Text Grammar

variable {text : List Char}

/-! ## Lexemes that are read the same

A lexeme that holds a line end is a string or a comment, and nothing is read of the text of a
string. -/

namespace Lexeme

variable {l l' m m' : Lexeme} {ls ls' : List Lexeme}

/-- What is read of a lexeme is what was read of it; of a string nothing is, so its line ends do not
matter. -/
theorem Kin.said_eq (h : l.Kin text l') : l.said = l'.said := by
  rw [said, said, h.kind_eq]
  rcases h.text_eq with htext | hstring
  · rw [htext]
  · rw [hstring]
    rfl

/-- Carriage returns do not come between lexemes that touch, nor do they bring others together. -/
theorem Kin.touches_eq (hl : l.Kin text l') (hm : m.Kin text m') :
    (l.span.stop == m.span.start) = (l'.span.stop == m'.span.start) := by
  obtain ⟨pre, post, htext, hspan, hspan'⟩ := hl.place
  obtain ⟨before, after, htext', hmspan, hmspan'⟩ := hm.place
  rw [hspan, hspan', hmspan, hmspan', Bool.eq_iff_iff, beq_iff_eq, beq_iff_eq]
  have hstop : pre ++ l.text.toList <+: text := ⟨post, by rw [htext, List.append_assoc]⟩
  have hstart : before <+: text := ⟨m.text.toList ++ after, htext'.symm⟩
  exact (byteSize_crlf_eq_iff hstop hstart).symm

/-- Kin lexemes are alike. -/
theorem alike_of_kin (h : List.Forall₂ (Kin text) ls ls') : Alike ls ls' := by
  induction h with
  | nil => exact ⟨rfl, rfl⟩
  | @cons l l' ls ls' hl hrest ih =>
      refine ⟨?_, ?_⟩
      · rw [List.map_cons, List.map_cons, hl.said_eq, ih.said]
      · cases hrest with
        | nil => rfl
        | cons hm hrest => exact congrArg₂ List.cons (hl.touches_eq hm) ih.touching

/-- **Lexemes are read the same with carriage returns.** -/
theorem alike_crlf (text : List Char) :
    Alike (Lexed.ofText text).lexemes (Lexed.ofText (crlf text)).lexemes :=
  alike_of_kin (Lexed.kin_crlf text)

end Lexeme

/-! ## Words that stay where they are

Offsets change, and positions do not. -/

namespace Layout

/-- Where a word starts, before the carriage returns and behind them. -/
theorem start_crlf (text : List Char) (word : Nat) : ∃ pre post, text = pre ++ post ∧
    (layoutOf text).start word = byteSize pre ∧
    (layoutOf (crlf text)).start word = byteSize (crlf pre) := by
  obtain ⟨hlength, hkin⟩ := List.forall₂_iff_get.1 (Lexed.kin_crlf text)
  by_cases hword : word < (Lexed.ofText text).lexemes.length
  · have hword' : word < (Lexed.ofText (crlf text)).lexemes.length := hlength ▸ hword
    obtain ⟨pre, post, htext, hspan, hspan'⟩ := (hkin word hword hword').place
    refine ⟨pre, _, htext, ?_, ?_⟩
    · rw [start_of_some (List.getElem?_eq_getElem hword)]
      exact congrArg Span.start hspan
    · rw [start_of_some (List.getElem?_eq_getElem hword')]
      exact congrArg Span.start hspan'
  · have hword' : (Lexed.ofText (crlf text)).lexemes.length ≤ word :=
      hlength ▸ Nat.le_of_not_lt hword
    refine ⟨text, [], (List.append_nil text).symm, ?_, ?_⟩
    · rw [start_of_none (List.getElem?_eq_none (Nat.le_of_not_lt hword))]
    · rw [start_of_none (List.getElem?_eq_none hword')]

/-- **Words stay on their lines and in their columns.** -/
theorem position_crlf (htext : '\r' ∉ text) (word : Nat) :
    (layoutOf (crlf text)).position word = (layoutOf text).position word := by
  obtain ⟨pre, post, rfl, hstart, hstart'⟩ := start_crlf text word
  rw [position_eq, position_eq, hstart, hstart']
  exact LineIndex.position_crlf post fun hmem => htext (List.mem_append_left post hmem)

/-- A node declares the same, in the same place. -/
theorem declared_crlf (htext : '\r' ∉ text) :
    (layoutOf (crlf text)).declared = (layoutOf text).declared := by
  have hidentifier : (layoutOf (crlf text)).identifier = (layoutOf text).identifier := by
    funext name
    cases name with
    | present word spelling => rw [identifier, identifier, position_crlf htext]
    | missing word => rw [identifier, identifier, position_crlf htext]
  funext label
  rw [declared, declared, hidentifier]

end Layout

/-! ## Tokens

The same tree and the same positions give the same tokens. -/

/-- A text has the same tree with carriage returns. -/
theorem SourceFile.tree_crlf (text : List Char) (limit : Nat) :
    (ofText (crlf text) limit).tree = (ofText text limit).tree :=
  congrArg Parsed.tree (parse_eq_of_alike (Lexeme.alike_crlf text) limit).symm

/-- The walk through it meets the same declarations. -/
theorem SourceFile.walk_crlf (htext : '\r' ∉ text) (legend : Legend) (limit : Nat) :
    (ofText (crlf text) limit).layout.walk legend = (ofText text limit).layout.walk legend :=
  congrArg (Walk.Context.mk legend) (Layout.declared_crlf htext)

/-- **Line ends do not change the tokens of a text.** If a text without carriage returns is still
taken when each of its line feeds gets one before it, then it has the same tokens with them as
without them. -/
theorem tokenize_crlf (legend : Legend) (maxSource limit : Nat) (source : String)
    (hreturn : '\r' ∉ source.toList)
    (hmax : (String.ofList (crlf source.toList)).utf8ByteSize ≤ maxSource) :
    ∃ t t', (Engine.csharp legend maxSource limit).tokenize source = .ok t ∧
      (Engine.csharp legend maxSource limit).tokenize
      (String.ofList (crlf source.toList)) = .ok t' ∧
      t'.tokens = t.tokens := by
  have hsource : source.utf8ByteSize ≤ maxSource := by
    rw [← byteSize_toList, String.toList_ofList] at hmax
    rw [← byteSize_toList]
    exact Nat.le_trans (byteSize_le_crlf _) hmax
  refine ⟨_, _, csharp_tokenize legend limit hsource, csharp_tokenize legend limit hmax, ?_⟩
  rw [String.toList_ofList, SourceFile.tree_crlf, SourceFile.walk_crlf hreturn]

/-- A comment, a directive, a string over two lines and one that is not closed, whose line ends with
a backslash. -/
theorem tokenize_crlf_lines :
    '\r' ∉ ("#if A // b\n#else\nclass C \x7b // c\n int x = @\"d\n\";\n" ++
        " string y = \"e\\\n;\x7d\n#endif\n").toList ∧
      ∃ t t', (Engine.csharp .standard Engine.defaultMaxSource 256).tokenize
          ("#if A // b\n#else\nclass C \x7b // c\n int x = @\"d\n\";\n" ++
            " string y = \"e\\\n;\x7d\n#endif\n") = .ok t ∧
        (Engine.csharp .standard Engine.defaultMaxSource 256).tokenize (String.ofList (crlf
          ("#if A // b\n#else\nclass C \x7b // c\n int x = @\"d\n\";\n" ++
            " string y = \"e\\\n;\x7d\n#endif\n").toList)) = .ok t' ∧
        t'.tokens = t.tokens :=
  ⟨by decide, tokenize_crlf .standard Engine.defaultMaxSource 256 _ (by decide) (by decide +kernel)⟩

end SharpTokens
