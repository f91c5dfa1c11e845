import SharpTokens.Engine
import SharpTokens.Proofs.Grammar.Gaps
import SharpTokens.Proofs.Grammar.Run.Progress

/-!
# Gaps in the tree of a text

A text whose tree has a gap, words that were passed over or a name that is missing, has a
diagnostic. The one exception is a parameter that is nothing but a default value, as in `M(= 5)`:
its name is missing, and nothing is said about it (`ofText_silent_gap`).

The grammar is unfolded as often as the words of a text can need, so it does not matter what is read
where it is not unfolded any more. This may as well be nothing (`Nonterminals.idle`), so that no gap
comes from there.

That reading in silence leaves no gap is proved parser by parser for any nonterminals that do so.
Here it is used for the grammar of a text, and turned around: where there is a gap, there is a
fault, and every fault is a diagnostic.
-/

namespace SharpTokens

open Text Grammar

namespace Grammar.Nonterminals

/-- Reads nothing and leaves no gap. -/
def idle : Nonterminals where
  expression := fun _ _ => pure []
  namespaceDeclaration := do Parser.plain .namespaceDeclaration (← Parser.here) []
  member := pure none
  statement := do Parser.plain .statement (← Parser.here) []

/-- Reading nothing leaves no gap. -/
theorem idle_candid (input : Input) : idle.Candid input where
  expression _ _ _ := .pure .nil
  namespaceDeclaration _ := .here (.node (.plain nofun .nil))
  member _ := .pure .nil
  statement _ := .here (.node (.plain nofun .nil))

/-- **What the grammar reads in silence is whole**, however often it is unfolded. -/
theorem unfoldedOver_candid {base : Nonterminals} {input : Input}
    (hbase : base.Candid input) (n : Nat) :
    (unfoldedOver base n).Candid input := by
  induction n with
  | zero => exact hbase
  | succ n ih =>
      exact ⟨expressionBody_whole ih, namespaceBody_whole ih, memberDeclaration_whole ih,
        statementBody_whole ih⟩

end Grammar.Nonterminals

/-- Words in which no fault is found have a tree without gaps. -/
theorem Grammar.whole_of_faults_eq_nil {words : Words} {limit : Nat}
    (few : words.size < Guard.unlimited) (hfaults : (parse words limit).faults = []) :
    Whole words (parse words limit).tree := by
  obtain ⟨tree, more, hparse, hgives⟩ := @parse_whole _ limit few
  rw [hparse] at hfaults ⊢
  have hidle := Nonterminals.unfoldedOver_candid (Nonterminals.idle_candid ⟨words, limit⟩)
    (4 * (words.size + 1))
  have hrun := hgives .idle _ (Nat.le_refl _) #[]
  have hquiet : #[] ++ more = #[] := by
    rw [Array.empty_append]
    exact Array.toList_eq_nil_iff.1 hfaults
  have hwhole :=
    (Nonterminals.compilationUnit_whole hidle 0 ⟨0, ⟨0⟩, #[]⟩ rfl (by rw [hrun]; exact hquiet)).2
  rwa [hrun] at hwhole

namespace SourceFile

/-- There are as many diagnostics as errors in the lexemes and faults in the words. -/
theorem length_diagnostics (text : List Char) (limit : Nat) : (ofText text limit).diagnostics.length
    = (Lexed.ofText text).errors.length + (parse (wordsOfText text) limit).faults.length := by
  have hdiagnose : ∀ ix errors, (diagnose ix errors).length = errors.length := by
    intro ix errors
    rw [← List.length_map (·.error), map_error_diagnose, List.length_map]
  simp [ofText, hdiagnose, inOrder]

end SourceFile

/-- **No gap is left without a report**, under any limit: if words were passed over or a name is
missing anywhere in the tree of a text, but for the names of parameters that are bare values, then
there is a diagnostic, and tokens of the text come with a count of errors above zero. -/
theorem ofText_reports_gaps (text : List Char) (limit : Nat)
    (hsize : byteSize text < Guard.unlimited) {depth : Nat} {label : Label}
    (hnode : (depth, label) ∈ (SourceFile.ofText text limit).tree.nodes) (hgap : label.IsGap)
    (hvalue : ¬ label.IsBareValue (wordsOfText text)) :
    (SourceFile.ofText text limit).diagnostics ≠ [] ∧
      ∀ legend maxSource tokenized,
        (Engine.csharp legend maxSource limit).tokenize (String.ofList text) = .ok tokenized →
          0 < tokenized.syntaxErrors := by
  have few := wordsOfText_few hsize
  have hreported : (SourceFile.ofText text limit).diagnostics ≠ [] := by
    intro hnone
    have hlength := SourceFile.length_diagnostics text limit
    rw [hnone, List.length_nil] at hlength
    have hfaults : (parse (wordsOfText text) limit).faults = [] :=
      List.eq_nil_of_length_eq_zero (by omega)
    obtain ⟨-, hlabel⟩ := (whole_of_faults_eq_nil few hfaults).of_mem_nodes hnode
    exact hvalue (hlabel hgap)
  refine ⟨hreported, fun legend maxSource tokenized htokenize => ?_⟩
  simp only [Engine.tokenize, Engine.csharp, String.toList_ofList] at htokenize
  split at htokenize
  · cases htokenize
  · cases htokenize
    exact List.length_pos_iff.2 hreported

/-- A class without a name: the name is missing, which is reported. -/
theorem ofText_reports_gaps_class :
    byteSize "class \x7b \x7d".toList < Guard.unlimited ∧
      (1, ⟨.classDeclaration, 0, 3, some (.missing 1), .none⟩)
        ∈ (SourceFile.ofText "class \x7b \x7d".toList 2).tree.nodes ∧
      (SourceFile.ofText "class \x7b \x7d".toList 2).diagnostics ≠ [] := by
  have hnode : (1, ⟨.classDeclaration, 0, 3, some (.missing 1), .none⟩)
      ∈ (SourceFile.ofText "class \x7b \x7d".toList 2).tree.nodes := by decide +kernel
  exact ⟨by decide, hnode, (ofText_reports_gaps _ 2 (by decide) hnode (.inr ⟨1, rfl⟩) (fun h =>
    nomatch h.1)).1⟩

/-- The name of a parameter that is only a default value is missing, and nothing is reported. -/
theorem ofText_silent_gap :
    (SourceFile.ofText "class C \x7b void M(= 5) \x7b \x7d \x7d".toList 128).diagnostics = [] ∧
      ∃ label, (4, label) ∈ (SourceFile.ofText "class C \x7b void M(= 5) \x7b \x7d \x7d".toList
        128).tree.nodes ∧
        label.IsGap := by
  have hnode : (4, ⟨.parameter, 6, 8, some (.missing 6), .none⟩)
      ∈ (SourceFile.ofText "class C \x7b void M(= 5) \x7b \x7d \x7d".toList 128).tree.nodes := by
        decide +kernel
  exact ⟨by decide +kernel, _, hnode, .inr ⟨6, rfl⟩⟩

end SharpTokens
