import SharpTokens.Proofs.Grammar.Blind
import SharpTokens.Proofs.SourceFile.Spans

/-!
# What a tree depends on

Between two lexemes there may be anything that is none: blanks, comments, text that is not read. The
tree of a text and the faults found in it depend on the lexemes alone, and of these on their kinds,
on which of them touch, and on the texts of those that are no literals (`Lexeme.Alike`).

The places in a tree are numbers of words. Words start one after another, so to compare such numbers
is to compare the offsets at which they start (`Layout.start_lt_iff`).

The parsers are blind to the texts of literals, and they never look at the places of words. So two
texts with lexemes that are alike have the same tree and the same faults, up to where these are.
-/

namespace SharpTokens

open Text Grammar

namespace Lexeme

/-- What is read of a lexeme: its kind, and its text unless it is a literal. -/
def said (l : Lexeme) : Kind × String := (l.kind, if l.kind.isLiteral then "" else l.text)

/-- Whether each lexeme but the last touches the next one. -/
def touching (ls : List Lexeme) : List Bool :=
  List.zipWith (fun l m => l.span.stop == m.span.start) ls ls.tail

/-- Lexemes that are read the same, one by one. -/
structure Alike (ls ms : List Lexeme) : Prop where
  said : ls.map said = ms.map said
  touching : touching ls = touching ms

instance (ls ms : List Lexeme) : Decidable (Alike ls ms) :=
  decidable_of_iff (ls.map said = ms.map said ∧ Lexeme.touching ls = Lexeme.touching ms)
    ⟨fun h => ⟨h.1, h.2⟩, fun h => ⟨h.1, h.2⟩⟩

end Lexeme

/-- Words of lexemes that say the same are the same without the texts of literals. -/
theorem Grammar.Word.bare_eq_of_said {l m : Lexeme} (h : l.said = m.said) (touches : Bool) :
    Word.bare ⟨l.kind, l.text, touches⟩ = Word.bare ⟨m.kind, m.text, touches⟩ := by
  obtain ⟨hkind, htext⟩ := Prod.mk.inj h
  simp only [Word.bare]
  rw [hkind] at htext ⊢
  split
  · rfl
  · rename_i hliteral
    rw [if_neg hliteral, if_neg hliteral] at htext
    rw [htext]

theorem Grammar.Words.bare_push {found found' : Words} (hfound : found.bare = found'.bare)
    {v w : Word} (h : v.bare = w.bare) :
    Words.bare (found.push v) = Words.bare (found'.push w) := by
  show (found.push v).map Word.bare = (found'.push w).map Word.bare
  rw [Array.map_push, Array.map_push, h]
  exact congrArg (·.push w.bare) hfound

/-- Lexemes that are read the same have the same words, apart from what literals say. -/
theorem bare_wordsOf {ls ms : List Lexeme} (h : Lexeme.Alike ls ms) {found found' : Words}
    (hfound : found.bare = found'.bare) :
    Words.bare (wordsOf ls found) = Words.bare (wordsOf ms found') := by
  induction ls generalizing ms found found' with
  | nil =>
      obtain rfl : ms = [] := List.map_eq_nil_iff.1 h.said.symm
      exact hfound
  | cons l ls ih =>
      cases ms with
      | nil => exact absurd h.said (List.cons_ne_nil _ _)
      | cons m ms =>
          obtain ⟨hsaid, hrest⟩ := List.cons.inj h.said
          match ls, ms, hrest with
          | [], [], _ => exact Words.bare_push hfound (Word.bare_eq_of_said hsaid false)
          | l' :: ls, m' :: ms, hrest =>
              obtain ⟨htouch, htouching⟩ := List.cons.inj h.touching
              refine ih ⟨hrest, htouching⟩ (Words.bare_push hfound ?_)
              rw [show (l.span.stop == l'.span.start) = (m.span.stop == m'.span.start) from htouch]
              exact Word.bare_eq_of_said hsaid _

/-- Lexemes that are alike are read the same. -/
theorem parse_eq_of_alike {ls ms : List Lexeme} (h : Lexeme.Alike ls ms) (limit : Nat) :
    parse (wordsOf ls #[]) limit = parse (wordsOf ms #[]) limit := by
  rw [← parse_bare, bare_wordsOf h rfl, parse_bare]

/-- Words start one after another, the last one before the end of the text. -/
theorem Layout.start_lt_iff (text : List Char) {i j : Nat} (hj : j ≤ (wordsOfText text).size) :
    (layoutOf text).start i < (layoutOf text).start j ↔ i < j := by
  constructor
  · intro hlt
    by_contra hji
    exact absurd (start_mono text (Nat.le_of_not_lt hji)) (Nat.not_le.2 hlt)
  · intro hij
    rw [wordsOfText_size] at hj
    have hl := List.getElem?_eq_getElem (Nat.lt_of_lt_of_le hij hj)
    rw [start_of_some hl]
    exact Nat.lt_of_lt_of_le (in_of_some hl).nonEmpty (stop_le_start hl hij)

/-- What reading a text gives: its tree, and its errors, of which the grammar found some at
words. -/
structure SourceFile.Gives (text : List Char) (limit : Nat) (tree : Node)
    (faults : List Fault) : Prop where
  tree_eq : (ofText text limit).tree = tree
  faults_eq : (parse (wordsOfText text) limit).faults = faults
  diagnostics_eq : (ofText text limit).diagnostics = diagnose (LineIndex.ofText text)
    (inOrder ((Lexed.ofText text).errors ++ faults.map fun f =>
      (f.cause, (ofText text limit).layout.span f.word)))
  /-- The numbers of words are in the order of the offsets at which the words start. -/
  places : ∀ {i j}, j ≤ (wordsOfText text).size →
    ((ofText text limit).layout.start i < (ofText text limit).layout.start j ↔ i < j)

/-- **A tree depends on lexemes alone.** Two texts whose lexemes have one by one the same kind and,
unless they are literals, the same text, and which touch in the same places, have the same tree and
the same faults, whatever else stands between their lexemes and wherever they are. -/
theorem ofText_depends_on_lexemes (text text' : List Char) (limit : Nat)
    (h : Lexeme.Alike (Lexed.ofText text).lexemes (Lexed.ofText text').lexemes) :
    ∃ tree faults, SourceFile.Gives text limit tree faults ∧
      SourceFile.Gives text' limit tree faults := by
  have hparse : parse (wordsOfText text') limit = parse (wordsOfText text) limit :=
    (parse_eq_of_alike h limit).symm
  refine ⟨(parse (wordsOfText text) limit).tree, (parse (wordsOfText text) limit).faults, ?_, ?_⟩
  · exact ⟨rfl, rfl, rfl, Layout.start_lt_iff text⟩
  · rw [← hparse]
    exact ⟨rfl, rfl, rfl, Layout.start_lt_iff text'⟩

/-- Text that is not read, a comment, blanks and another number. -/
theorem ofText_depends_on_lexemes_trivia :
    Lexeme.Alike (Lexed.ofText "int x = 1;".toList).lexemes
        (Lexed.ofText "#if A\n1\n#endif\nint/**/x = 27;".toList).lexemes ∧
      ∃ tree faults, SourceFile.Gives "int x = 1;".toList 4 tree faults ∧
        SourceFile.Gives "#if A\n1\n#endif\nint/**/x = 27;".toList 4 tree faults :=
  have h : Lexeme.Alike (Lexed.ofText "int x = 1;".toList).lexemes
      (Lexed.ofText "#if A\n1\n#endif\nint/**/x = 27;".toList).lexemes := by decide +kernel
  ⟨h, ofText_depends_on_lexemes _ _ 4 h⟩

end SharpTokens
