import SharpTokens.SourceFile
import SharpTokens.Proofs.Grammar.Run.Units
import SharpTokens.Proofs.Lexeme.Tiling
import SharpTokens.Proofs.Token.Order

/-!
# What the limit on nesting does

A tree is at most sixteen nodes high for each level that the limit allows, apart from chains of the
two constructs that nest without regard to it (`ofText_height_le`).

A limit that nothing was too deep for is as good as any looser one, as long as types nest within it
wherever what is read depends on them (`ofText_looser`). Of types that nest deeper nothing is
reported (`deep_type_lost`).
-/

namespace SharpTokens

open Text Grammar

/-! ## Words and diagnostics of a text

A text has at most as many words as bytes, and each fault becomes a diagnostic. -/

abbrev wordsOfText (text : List Char) : Words := wordsOf (Lexed.ofText text).lexemes #[]

/-- No piece is empty. -/
theorem Raw.Tiled.length_le {offset : Nat} {rs : List Raw} {text : List Char}
    (h : Raw.Tiled offset rs text) :
    rs.length ≤ byteSize text := by
  induction h with
  | nil => exact Nat.zero_le _
  | @cons offset r rs rest hne _ _ ih =>
      have hpos := byteSize_pos hne
      rw [byteSize_append, List.length_cons]
      omega

/-- A text has as many words as lexemes. -/
theorem wordsOfText_size (text : List Char) :
    (wordsOfText text).size = (Lexed.ofText text).lexemes.length := by
  have hsize := congrArg List.length (map_wordsOf (Lexed.ofText text).lexemes #[])
  simpa only [List.map_nil, List.nil_append, List.length_map, Array.length_toList] using hsize

/-- A text has no more words than bytes. -/
theorem wordsOfText_size_le (text : List Char) : (wordsOfText text).size ≤ byteSize text := by
  rw [wordsOfText_size]
  calc (Lexed.ofText text).lexemes.length
      ≤ ((Raw.ofText text).filterMap Lexeme.ofRaw?).length := (Lexed.lexemes_sublist text).length_le
    _ ≤ (Raw.ofText text).length := List.length_filterMap_le _ _
    _ ≤ byteSize text := (Raw.tiled_ofText text).length_le

/-- A text whose bytes can be counted has few enough words for the guard. -/
theorem wordsOfText_few {text : List Char} (hsize : byteSize text < Guard.unlimited) :
    (wordsOfText text).size < Guard.unlimited :=
  Nat.lt_of_le_of_lt (wordsOfText_size_le text) hsize

theorem positions_size (ix : LineIndex) (offsets : List Nat) :
    (positions ix offsets).size = offsets.length := by
  -- each step adds one, whatever it adds
  suffices h : ∀ step : Array Position × Cursor → Nat → Array Position × Cursor,
      (∀ acc offset, (step acc offset).1.size = acc.1.size + 1) →
      ∀ acc, (offsets.foldl step acc).1.size = acc.1.size + offsets.length by
    exact (h _ (fun acc offset => Array.size_push _) (#[], Cursor.start ix)).trans (Nat.zero_add _)
  intro step hstep
  induction offsets with
  | nil => intro acc; rfl
  | cons offset offsets ih =>
      intro acc
      rw [List.foldl_cons, ih, hstep, List.length_cons]
      omega

def SyntaxError.isTooDeep : SyntaxError → Bool
  | .tooDeep _ => true
  | _ => false

namespace SourceFile

def exceedsLimit (f : SourceFile) : Bool := f.diagnostics.any (·.error.isTooDeep)

/-- Finding positions loses no error and changes none. -/
theorem map_error_diagnose (ix : LineIndex) (errors : List (SyntaxError × Span)) :
    (diagnose ix errors).map (·.error) = errors.map (·.1) := by
  have hlength : (positions ix (errors.map (·.2.start))).toList.length = errors.length := by
    rw [Array.length_toList, positions_size, List.length_map]
  rw [diagnose, List.map_zipWith]
  generalize (positions ix (errors.map (·.2.start))).toList = places at hlength
  induction errors generalizing places with
  | nil => rfl
  | cons e errors ih =>
      cases places with
      | nil => cases hlength
      | cons place places => simp [ih places (Nat.succ.inj hlength)]

/-- Every fault is reported. -/
theorem exceedsLimit_ofText (text : List Char) (limit : Nat) : (ofText text limit).exceedsLimit =
    ((Lexed.ofText text).errors.any (·.1.isTooDeep)
      || (parse (wordsOfText text) limit).faults.any (·.cause.isTooDeep)) := by
  let errors := (Lexed.ofText text).errors
    ++ (parse (wordsOfText text) limit).faults.map fun f =>
      (f.cause, (ofText text limit).layout.span f.word)
  calc (ofText text limit).exceedsLimit
      = ((diagnose (LineIndex.ofText text) (inOrder errors)).map (·.error)).any (·.isTooDeep) := by
        rw [List.any_map]
        rfl
    _ = (inOrder errors).any (·.1.isTooDeep) := by
        rw [map_error_diagnose, List.any_map]
        rfl
    _ = errors.any (·.1.isTooDeep) := (List.mergeSort_perm errors _).any_eq
    _ = _ := by
        rw [List.any_append, List.any_map]
        rfl

end SourceFile

/-! ## Heights

What was followed word by word is now said of whole texts. -/

namespace Grammar

/-- The tree of some words, and whether a looser limit gives the same. -/
theorem parse_tracks (c : Loosened) :
    Low (16 * c.limit + 10) (parse c.words c.input.limit).tree ∧
      ((∀ f ∈ (parse c.words c.input.limit).faults, ∀ limit, f.cause ≠ .tooDeep limit) →
        parse c.words c.looserInput.limit = parse c.words c.input.limit) := by
  obtain ⟨t, hi, more, hp, -, ⟨rfl, ht⟩, hq⟩ :=
    Nonterminals.compilationUnit_unfolding_tracks (c := c) (.unfolded 0) (.unfolded 0)
      (Nat.le_refl _) (Nat.le_refl _)
  rw [← Nonterminals.unfolded_eq] at hp hq
  have heq : parse c.words c.input.limit = _ := parse_eq hp
  refine ⟨?_, fun hcalm => ?_⟩
  · rw [heq]
    simpa [Loosened.room] using ht
  · rw [heq] at hcalm ⊢
    exact parse_eq (hq (.inr fun f hf => hcalm f (Array.mem_toList_iff.2 hf)))

end Grammar

/-- Chains of dotted names, of namespaces without braces and of anonymous methods that are default
values of one another count as one node each; everything else is at most sixteen nodes high for each
level of nesting. -/
theorem ofText_height_le (text : List Char) (limit : Nat)
    (hsize : byteSize text < Guard.unlimited) :
    height Above.chained .none (SourceFile.ofText text limit).tree ≤ 16 * (limit + 1) := by
  have hlow := (parse_tracks (.same (wordsOfText text) limit (wordsOfText_few hsize))).1 .none
  exact Nat.le_trans hlow (by simp only [Loosened.same]; omega)

/-! ## Looser limits

Types are looked for with a limit of their own, so the limit on constructs and the limits on types
are loosened one after the other. First the limits on types are raised at those words where less is
found than under the looser limit. That is done word by word, and changes nothing where it does not
matter. Then all else is loosened at once, since the same types are found under both limits. -/

namespace Grammar.Words

variable {ws : Words} {limit looser i : Nat}

/-- What is looked for at a word with regard to types is the same under two limits. -/
def TypesFitAt (ws : Words) (limit looser i : Nat) : Prop :=
  ws.typeEnd? looser i = ws.typeEnd? limit i ∧
    ws.typeArgumentsEnd? looser i = ws.typeArgumentsEnd? limit i ∧
    ws.usingIsStatement looser i = ws.usingIsStatement limit i

instance : Decidable (ws.TypesFitAt limit looser i) := inferInstanceAs (Decidable (_ ∧ _))

/-- What is read depends on which of two limits there is on types at a word, with one or the other
at each further word. Where no type is tried, it does not. -/
def TypesMatterAt (ws : Words) (limit looser i : Nat) : Prop :=
  ∃ types : Nat → Nat, (∀ j, types j = limit ∨ types j = looser) ∧
    parse ws ⟨limit, Function.update types i looser⟩ ≠
    parse ws ⟨limit, Function.update types i limit⟩

/-- Wherever it matters, the types that a looser limit allows nest within a limit. -/
def TypesFit (ws : Words) (limit looser : Nat) : Prop :=
  ∀ i < ws.size, ws.TypesMatterAt limit looser i → ws.TypesFitAt limit looser i

theorem TypeAt.lt_size {b i j : Nat} (h : TypeAt ws .type b i j) : i < ws.size := by
  cases h with
  | builtin hkind _ => exact lt_size_of_isAny hkind
  | named hident _ _ _ _ => exact lt_size_of_is hident
  | applied hident _ _ _ _ _ => exact lt_size_of_is hident
  | tuple hopen _ _ => exact lt_size_of_is hopen

/-- There is no type behind the last word. -/
theorem typeEnd?_of_size_le (h : ws.size ≤ i) : ws.typeEnd? limit i = none := by
  refine Option.eq_none_iff_forall_ne_some.2 fun j hj => ?_
  exact Nat.not_lt.2 h (typeEnd?_eq_some.1 hj).lt_size

theorem typeArgumentsEnd?_of_size_le (h : ws.size ≤ i) : ws.typeArgumentsEnd? limit i = none := by
  refine Option.eq_none_iff_forall_ne_some.2 fun j hj => ?_
  have hlt : i + 1 < ws.size := by
    cases typeArgumentsEnd?_eq_some.1 hj with
    | argument htype _ _ => exact htype.lt_size
    | lastArgument htype _ _ => exact htype.lt_size
  omega

/-- Behind the last word nothing is found under either limit. -/
theorem typesFitAt_of_size_le (h : ws.size ≤ i) : ws.TypesFitAt limit looser i := by
  refine ⟨?_, ?_, ?_⟩
  · rw [typeEnd?_of_size_le h, typeEnd?_of_size_le h]
  · rw [typeArgumentsEnd?_of_size_le h, typeArgumentsEnd?_of_size_le h]
  · unfold usingIsStatement
    rw [typeEnd?_of_size_le (Nat.le_succ_of_le h), typeEnd?_of_size_le (Nat.le_succ_of_le h)]

/-- The looser limit on types at the words from the one at `k` on where the limit finds less. -/
def raised (ws : Words) (limit looser k i : Nat) : Nat :=
  if k ≤ i ∧ ¬ws.TypesFitAt limit looser i then looser else limit

theorem raised_eq_or (k : Nat) : ws.raised limit looser k i = limit ∨
    ws.raised limit looser k i = looser := by
  unfold raised
  split
  · exact .inr rfl
  · exact .inl rfl

/-- Raised at all words, the limits on types are as good as the looser limit. -/
theorem typesFitAt_raised : ws.TypesFitAt (ws.raised limit looser 0 i) looser i := by
  by_cases hfit : ws.TypesFitAt limit looser i
  · rwa [raised, if_neg fun h => h.2 hfit]
  · rw [raised, if_pos ⟨Nat.zero_le i, hfit⟩]
    exact ⟨rfl, rfl, rfl⟩

/-- Behind the last word nothing is raised. -/
theorem raised_size : ws.raised limit looser ws.size = fun _ => limit := by
  funext i
  exact if_neg fun h => h.2 (typesFitAt_of_size_le h.1)

/-- One word after the other goes back to the limit. -/
theorem update_raised_succ (k : Nat) :
    Function.update (ws.raised limit looser k) k limit = ws.raised limit looser (k + 1) := by
  funext i
  by_cases hi : i = k
  · subst hi
    rw [Function.update_self, raised, if_neg fun h => Nat.not_succ_le_self i h.1]
  · simp only [Function.update_of_ne hi, raised]
    congr 1
    simp only [eq_iff_iff, and_congr_left_iff]
    omega

/-- A raised limit goes back to the limit, one word after the other, and the same is read. -/
theorem TypesFit.parse_raised (h : ws.TypesFit limit looser) :
    ∀ k ≤ ws.size, parse ws ⟨limit, ws.raised limit looser 0⟩ =
      parse ws ⟨limit, ws.raised limit looser k⟩
  | 0, _ => rfl
  | k + 1, hk => by
      rw [h.parse_raised k (Nat.le_of_succ_le hk), ← update_raised_succ]
      by_cases hfit : ws.TypesFitAt limit looser k
      · have hlimit : ws.raised limit looser k k = limit := if_neg fun h => h.2 hfit
        rw [Function.update_eq_self_iff.2 hlimit.symm]
      · have hlooser : ws.raised limit looser k k = looser := if_pos ⟨Nat.le_refl k, hfit⟩
        by_contra hne
        refine hfit (h k hk ⟨ws.raised limit looser k, fun j => raised_eq_or k, ?_⟩)
        rwa [Function.update_eq_self_iff.2 hlooser.symm]

end Grammar.Words

/-- **A limit that nothing was too deep for is as good as a looser one**, if types nest within it.
The limits on types are raised first, where that makes no difference, and then the limit on
everything else. -/
theorem ofText_looser (text : List Char) (limit looser : Nat) (hle : limit ≤ looser)
    (hsize : byteSize text < Guard.unlimited) (htypes : (wordsOfText text).TypesFit limit looser)
    (hdeep : (SourceFile.ofText text limit).exceedsLimit = false) :
    SourceFile.ofText text looser = SourceFile.ofText text limit := by
  let ws := wordsOfText text
  have hraised : parse ws ⟨limit, ws.raised limit looser 0⟩ = parse ws limit := by
    rw [htypes.parse_raised ws.size (Nat.le_refl _), Words.raised_size]
  let c : Loosened := {
    words := ws
    limit := limit
    looser := looser
    le := hle
    few := wordsOfText_few hsize
    reach := ws.raised limit looser 0
    looserReach := fun _ => looser
    types := fun i => Words.typesFitAt_raised.1
    arguments := fun i => Words.typesFitAt_raised.2.1
    used := fun i => Words.typesFitAt_raised.2.2 }
  have hparse : parse ws looser = parse ws limit := by
    rw [SourceFile.exceedsLimit_ofText, Bool.or_eq_false_iff] at hdeep
    refine ((parse_tracks c).2 fun f hf l hcause => ?_).trans hraised
    have hshallow := List.any_eq_false.1 hdeep.2 f (hraised ▸ hf)
    rw [hcause] at hshallow
    exact hshallow rfl
  simp only [SourceFile.ofText, hparse, ws]

/-- In a base list no type is tried. -/
theorem parse_base_list (types : Nat → Nat) :
    parse (wordsOfText "class C : D<L<E>> \x7b \x7d".toList) ⟨1, types⟩ =
      parse (wordsOfText "class C : D<L<E>> \x7b \x7d".toList) 1 := by
  have hwords : wordsOfText "class C : D<L<E>> \x7b \x7d".toList =
      #[⟨.classKw, "class", false⟩, ⟨.ident, "C", false⟩, ⟨.colon, ":", false⟩, ⟨.ident, "D", true⟩,
        ⟨.lt, "<", true⟩, ⟨.ident, "L", true⟩, ⟨.lt, "<", true⟩, ⟨.ident, "E", true⟩,
        ⟨.gt, ">", true⟩, ⟨.gt, ">", false⟩,
        ⟨.lbrace, "\x7b", false⟩, ⟨.rbrace, "\x7d", false⟩] := by
    decide +kernel
  rw [hwords]
  -- what is read is made of one run, and in that the table is not asked
  refine congrArg (fun run : Node × State => (⟨run.1, run.2.faults.toList⟩ : Parsed)) ?_
  cbv

/-- The type of a field is within the limit two, so the limit three gives the same file. The same
type as a base is not within the limit one, but is not tried there, and the limit two gives the same
file. -/
theorem ofText_looser_field_base :
    SourceFile.ofText "class C \x7b D<L<E>> m; \x7d".toList 3
        = SourceFile.ofText "class C \x7b D<L<E>> m; \x7d".toList 2 ∧
      SourceFile.ofText "class C : D<L<E>> \x7b \x7d".toList 2
        = SourceFile.ofText "class C : D<L<E>> \x7b \x7d".toList 1 := by
  have hfield : ∀ i < (wordsOfText "class C \x7b D<L<E>> m; \x7d".toList).size,
      (wordsOfText "class C \x7b D<L<E>> m; \x7d".toList).TypesFitAt 2 3 i := by
    decide +kernel
  have hbase : (wordsOfText "class C : D<L<E>> \x7b \x7d".toList).TypesFit 1 2 := by
    intro i _ ⟨types, _, hne⟩
    rw [parse_base_list, parse_base_list] at hne
    exact absurd rfl hne
  exact ⟨ofText_looser _ 2 3 (by decide) (by decide) (fun i hi _ => hfield i hi)
    (by decide +kernel),
    ofText_looser _ 1 2 (by decide) (by decide) hbase (by decide +kernel)⟩

/-- Types that nest deeper than a limit are not recognised, and nothing says so: the field is lost,
without a report that it is too deep. -/
theorem deep_type_lost :
    (SourceFile.ofText "class C \x7b D<L<E>> m; \x7d".toList 1).exceedsLimit = false ∧
      (SourceFile.ofText "class C \x7b D<L<E>> m; \x7d".toList 1).named =
      [(.classDeclaration, "C")] ∧
      (SourceFile.ofText "class C \x7b D<L<E>> m; \x7d".toList 2).named =
        [(.classDeclaration, "C"), (.variableDeclarator, "m")] := by
  rw [SourceFile.exceedsLimit_ofText]
  decide +kernel

end SharpTokens
