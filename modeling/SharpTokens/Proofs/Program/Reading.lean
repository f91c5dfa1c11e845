import SharpTokens.Proofs.Grammar.Run.Limits
import SharpTokens.Proofs.Program.Declarations
import SharpTokens.Proofs.Program.Tokens
import SharpTokens.Proofs.Token.Declarations

/-!
# Plain programs are read as they are meant

Whatever text spells a plain program, and with whatever blanks and comments, it is read without a
diagnostic, its syntax tree is the program's, and its tokens are the names that the program declares
(`csharp_reads_program`).

The limit has to allow for the braces and types of the program. The text may be as long as the
engine takes. Only that tokens come in the order of the text needs lines and columns that fit their
numbers, so this is said for texts of less than `2 ^ 32` bytes.
-/

namespace SharpTokens

open Text Grammar Grammar.Parser

namespace Program

/-! ## Words of a text

A text that spells a program has its words, in their order and with their texts. -/

/-- A text spells a program: its lexemes are the words of the program, and there is no error in
it. -/
structure IsTextOf (text : List Char) (p : Program) : Prop where
  lexemes : (Lexed.ofText text).lexemes.map (fun l => (l.kind, l.text)) = p.spell.map fun w =>
    (w.kind, w.text)
  errors : (Lexed.ofText text).errors = []

/-- The token of a word that stands at a lexeme, if it declares a name. -/
def Spelled.token? (text : List Char) (l : Lexeme) (w : Spelled) : Option Token :=
  w.declares.map fun d =>
    let start := (LineIndex.ofText text).position l.span.start
    ⟨start.line, start.character, saturate (width l.text.toList), d.1.tokenType.index, d.2.mask⟩

/-- The tokens of a program in a text that spells it: one for each lexeme that declares a name. -/
def tokens (p : Program) (text : List Char) : List Token :=
  ((Lexed.ofText text).lexemes.zip p.spell).filterMap fun x => x.2.token? text x.1

variable {ws : Words} {text : List Char} {p : Program} {limit : Nat}

/-- A list from `lo` on that is like one with a first element has one too. -/
theorem drop_of_map_eq_cons {α β : Type} {f : α → β} {xs : List α} {lo : Nat} {y : β} {ys : List β}
    (h : (xs.drop lo).map f = y :: ys) :
    ∃ x, xs[lo]? = some x ∧ f x = y ∧ xs.drop lo = x :: xs.drop (lo + 1) ∧
      (xs.drop (lo + 1)).map f = ys := by
  obtain ⟨x, rest, hdrop, hx, hrest⟩ := List.map_eq_cons_iff.1 h
  have hnext : xs.drop (lo + 1) = rest := by
    rw [← List.drop_drop, hdrop]
    rfl
  refine ⟨x, ?_, hx, hnext ▸ hdrop, hnext ▸ hrest⟩
  rw [← List.head?_drop, hdrop]
  rfl

/-- Words with the kinds and texts of spelled words. -/
theorem spells_of_map {l : List Spelled}
    (h : ws.toList.map (fun w => (w.kind, w.text)) = l.map fun w => (w.kind, w.text)) :
    Spells ws 0 l ws.size := by
  -- by induction on the spelled words, of which those from `lo` on are left
  suffices hdrop : ∀ (l : List Spelled) (lo : Nat),
      (ws.toList.drop lo).map (fun w => (w.kind, w.text)) = l.map (fun w => (w.kind, w.text)) →
      lo ≤ ws.size →
      Spells ws lo l ws.size from hdrop l 0 h (Nat.zero_le _)
  intro l
  induction l with
  | nil =>
      intro lo h hlo
      have hlength := congrArg List.length h
      simp only [List.map_nil, List.length_map, List.length_drop, Array.length_toList,
        List.length_nil] at hlength
      show lo = ws.size
      omega
  | cons w l ih =>
      intro lo h hlo
      obtain ⟨word, hword, hsame, -, hrest⟩ := drop_of_map_eq_cons h
      injection hsame with hkind htext
      rw [Array.getElem?_toList] at hword
      have hlt : lo < ws.size := (Array.getElem?_eq_some_iff.1 hword).1
      refine ⟨⟨?_, ?_⟩, ih (lo + 1) hrest hlt⟩
      · rw [Words.kind?, hword, Option.map_some, hkind]
      · rw [Words.text, hword, Option.map_some, htext]
        rfl

theorem IsTextOf.spells (h : IsTextOf text p) :
    Spells (wordsOfText text) 0 p.spell (wordsOfText text).size :=
  spells_of_map ((map_wordsOf (Lexed.ofText text).lexemes #[]).trans h.lexemes)

/-- A text that spells plain words has no others. -/
theorem IsTextOf.plain (h : IsTextOf text p)
    (hnames : ∀ w ∈ p.spell, w.kind = .ident → w.text ∉ contextualWords) :
    Plain (wordsOfText text) := by
  intro i hi
  obtain ⟨l, hl, hkind, htext⟩ := lexeme_of_word hi
  have hmem : (l.kind, l.text) ∈ p.spell.map fun w => (w.kind, w.text) := by
    rw [← h.lexemes]
    exact List.mem_map_of_mem (List.mem_of_getElem? hl)
  obtain ⟨w, hw, heq⟩ := List.mem_map.1 hmem
  injection heq with hwkind hwtext
  rw [htext, ← hwtext]
  exact hnames w hw (hwkind.trans hkind)

/-- No word is empty. -/
theorem IsTextOf.worded (h : IsTextOf text p) : Worded p.spell := by
  intro w hw
  have hmem : (w.kind, w.text) ∈ (Lexed.ofText text).lexemes.map fun l => (l.kind, l.text) := by
    rw [h.lexemes]
    exact List.mem_map_of_mem hw
  obtain ⟨l, hl, heq⟩ := List.mem_map.1 hmem
  injection heq with _ htext
  have hne := ((Lexed.placed text).1 l hl).1
  rw [← htext]
  rintro hempty
  rw [hempty] at hne
  exact hne rfl

/-! ## Trees

The loop at the top of a text reads the declarations and then finds the end. -/

theorem unitStep_end_gives {g : Nonterminals} (found : Array Node) :
    Gives (g.unitStep found) ⟨ws, limit⟩ 0 ws.size (.done found) ws.size #[] := by
  have hend : Gives peek ⟨ws, limit⟩ 0 ws.size none ws.size #[] :=
    Words.kind?_eq_none (Nat.le_refl ws.size) ▸ Gives.look _
  exact hend.andThen Gives.pure

/-- **Words that spell a program are read as its tree.** -/
theorem parse_eq_tree (hplain : Plain ws) (h : Spells ws 0 p.spell ws.size)
    (hbraces : p.braces ≤ limit) (hlimit : limit ≤ Guard.unlimited)
    (htypes : p.typeNesting ≤ limit) : parse ws limit = ⟨p.tree, []⟩ := by
  have hlength : p.spell.length = ws.size := by
    rw [← h.eq_add, Nat.zero_add]
  have hfits : Fits limit 0 p := ⟨by omega, htypes⟩
  have hends : Ends ws ws.size := by
    rw [Ends, Words.isAny, Words.kind?_eq_none (Nat.le_refl _)]
    rfl
  -- nothing follows the last declaration, so the unit ends there
  have hunit : Repeats (Nonterminals.unfolded (4 * (ws.size + 1))).unitStep ⟨ws, limit⟩ 0 #[] 0
      ((#[] : Array Node) ++ p.trees 0) ws.size #[] :=
    p.reads hplain (by omega) hfits h hends (fun h hlt found => h.unitStep hlt found)
      (.done (unitStep_end_gives _))
  have hgives : Gives (Nonterminals.unfolded (4 * (ws.size + 1))).compilationUnit ⟨ws, limit⟩ 0 0
      p.tree ws.size #[] := by
    apply (hunit.loop (Nat.zero_le _)).andThen
    rw [Array.toList_appendList, tree, hlength]
    exact Gives.node _ _ _ _ _
  exact parse_eq hgives

/-! ## Tokens

The token of a word is where its lexeme is. -/

/-- Tokens that are told by words are those that are told by lexemes. -/
theorem tokensFrom_ofLexemes {ls : List Lexeme} (hin : ∀ l ∈ ls, l.In text) (size : Nat)
    {vs : List Spelled} {lo : Nat}
    (h : (ls.drop lo).map (fun l => (l.kind, l.text)) = vs.map fun w => (w.kind, w.text)) :
    tokensFrom (Layout.ofLexemes (LineIndex.ofText text) size ls) lo vs
      = ((ls.drop lo).zip vs).filterMap fun x => x.2.token? text x.1 := by
  induction vs generalizing lo with
  | nil => simp [tokensFrom]
  | cons w vs ih =>
      obtain ⟨l, hl, hsame, hdrop, hrest⟩ := drop_of_map_eq_cons h
      injection hsame with _ htext
      have hposition : (Layout.ofLexemes (LineIndex.ofText text) size ls).position lo
          = (LineIndex.ofText text).position l.span.start := Layout.position_ofLexemes hin hl
      have hword : (w.declares.map fun d =>
          nameToken (Layout.ofLexemes (LineIndex.ofText text) size ls) lo w.text
          d.1 d.2) = w.token? text l := by
        rw [Spelled.token?, htext]
        simp only [nameToken, hposition]
      rw [tokensFrom, hword, ih hrest, hdrop, List.zip_cons_cons, List.filterMap_cons]
      cases w.token? text l <;> rfl

/-- The walk through the tree of a program finds the names that it declares. -/
theorem IsTextOf.foundTokens (h : IsTextOf text p)
    (htree : (SourceFile.ofText text limit).tree = p.tree) :
    foundTokens text .standard limit = p.tokens text := by
  rw [SharpTokens.foundTokens, Walk.Context.collect_root, htree, tree,
    tokensBelow_unnamed _ _ rfl rfl, p.tokensBelowAll_trees _ _ h.worded]
  have hlexemes : ((Lexed.ofText text).lexemes.drop 0).map (fun l => (l.kind, l.text))
      = p.spell.map fun w => (w.kind, w.text) := h.lexemes
  exact tokensFrom_ofLexemes (Lexed.placed text).1 _ hlexemes

end Program

/-- **Plain programs are read as they are meant.** Take a program whose names the grammar takes for
nothing else and whose braces and type arguments nest within the limit. A text that spells it is
read without a diagnostic, and its tree is the program's; so its tokens are those of the names that
the program declares. They are in the order of the names if the text has less than `2 ^ 32` bytes.
In a longer one lines and columns may be past the last number for them, and then the same tokens are
sorted by what numbers they have. -/
theorem csharp_reads_program (p : Program) (source : String) (limit : Nat)
    (hlimit : limit ≤ Guard.unlimited) (htext : Program.IsTextOf source.toList p)
    (hnames : ∀ w ∈ p.spell, w.kind = .ident → w.text ∉ Program.contextualWords)
    (hbraces : p.braces ≤ limit) (htypes : p.typeNesting ≤ limit) :
    (SourceFile.ofText source.toList limit).diagnostics = [] ∧
      (SourceFile.ofText source.toList limit).tree = p.tree ∧
      ∀ maxSource, source.utf8ByteSize ≤ maxSource →
        ∃ tokens, (Engine.csharp .standard maxSource limit).tokenize source = .ok ⟨tokens, 0⟩ ∧
          Token.IsStableSort (p.tokens source.toList) tokens ∧
          (source.utf8ByteSize < UInt32.size → tokens = p.tokens source.toList) := by
  have hparse : parse (wordsOfText source.toList) limit = ⟨p.tree, []⟩ :=
    Program.parse_eq_tree (htext.plain hnames) htext.spells hbraces hlimit htypes
  have htree : (SourceFile.ofText source.toList limit).tree = p.tree := by
    rw [SourceFile.ofText, hparse]
  have hdiagnostics : (SourceFile.ofText source.toList limit).diagnostics = [] := by
    rw [SourceFile.ofText, htext.errors, hparse]
    simp [SourceFile.inOrder, SourceFile.diagnose]
  refine ⟨hdiagnostics, htree, ?_⟩
  intro maxSource hmax
  refine ⟨_, ?_, Token.isStableSort_mergeSort _, fun hsize => ?_⟩
  · rw [csharp_tokenize .standard limit hmax, hdiagnostics, ← htext.foundTokens htree]
    rfl
  · have hsize : byteSize source.toList < UInt32.size := byteSize_toList source ▸ hsize
    rw [← htext.foundTokens htree]
    exact tokens_eq_foundTokens _ _ _ hsize

/-- An enumeration in a dotted namespace, and a type in a type with a member of each kind. -/
def Program.shapes : Program :=
  let t : Program.TypeTerm .type :=
    .applied "D" (.argument (.builtin (.predefined "int") [.array 1])
      (.lastArgument
        (.applied "L" (.lastArgument (.named "M" (.segment "N" .noSegment) [.nullable]))
          .noSegment [])))
      .noSegment [.nullable]
  .cons (.space "A" ["B"] (.cons (.enum [] "E" ["F", "G"])
    (.cons (.type [.new, .abstract, .new] .classType "C"
    (.cons (.type [] .structType "S"
      (.cons (.field [.static, .readonly] t "a" ["b"])
        (.cons (.method [] (.builtin .void []) "P" [⟨.named "T" .noSegment [], "q"⟩] true)
          (.cons (.property [.access "public"] (.named "T" .noSegment []) "R") .nil)))) .nil))
          .nil))) .nil

def Program.shapesText : String :=
  "namespace A.B\x7benum E\x7bF,G\x7dnew abstract new class C\x7bstruct S\x7b" ++
  "static readonly D<int[,],L<M.N?>>?a,b;void P(T q)\x7b\x7dpublic T R\x7bget;set;\x7d\x7d\x7d\x7d"

/-- A text with a declaration of each kind. -/
theorem csharp_reads_program_shapes :
    (SourceFile.ofText Program.shapesText.toList 4).diagnostics = [] ∧
      (SourceFile.ofText Program.shapesText.toList 4).tree = Program.shapes.tree ∧
      (Engine.csharp .standard Engine.defaultMaxSource 4).tokenize Program.shapesText
        = .ok ⟨Program.shapes.tokens Program.shapesText.toList, 0⟩ := by
  obtain ⟨hlexemes, herrors⟩ :
      (Lexed.ofText Program.shapesText.toList).lexemes.map (fun l => (l.kind, l.text))
          = Program.shapes.spell.map (fun w => (w.kind, w.text)) ∧
        (Lexed.ofText Program.shapesText.toList).errors = [] := by
    decide +kernel
  obtain ⟨hdiagnostics, htree, htokens⟩ :=
    csharp_reads_program Program.shapes Program.shapesText 4 (by decide)
    ⟨hlexemes, herrors⟩ (by decide +kernel) (by decide +kernel) (by decide +kernel)
  obtain ⟨tokens, htokenize, -, hsame⟩ := htokens Engine.defaultMaxSource (by decide +kernel)
  rw [hsame (by decide +kernel)] at htokenize
  exact ⟨hdiagnostics, htree, htokenize⟩

end SharpTokens
