import SharpTokens.Proofs.Grammar.Lookahead

/-!
# Looking ahead stays among the words

The places that looking ahead leads to are words or the end of the text. Each look goes forward word
by word, so the bound on its steps is never what ends it: any larger bound gives the same
(`closing?_stable` and those below).

For a look that goes forward by one word at each call, stability follows from one step of it
(`Words.stable_of_step`). Types are looked for by functions that call each other, and there the
bound has to cover several calls at the same word. Their result is described by a relation first,
and the bound is compared with the length of a derivation.
-/

namespace SharpTokens.Grammar.Words

variable {ws : Words} {i n m depth : Nat}

/-! ## Words and their kinds

Past the end of the text there is no word, so whatever asks for one asks for a place before the end.
-/

theorem lt_size_of_kind? {k : Kind} (h : ws.kind? i = some k) : i < ws.size := by
  obtain ⟨w, hw, -⟩ := Option.map_eq_some_iff.1 h
  exact (Array.getElem?_eq_some_iff.1 hw).1

theorem kind?_eq_none (h : ws.size ≤ i) : ws.kind? i = none := by
  simp [kind?, h]

theorem exists_kind? (h : i < ws.size) : ∃ k, ws.kind? i = some k := by
  simp [kind?, h]

theorem is_eq_true {k : Kind} : ws.is i k = true ↔ ws.kind? i = some k := by
  simp [is]

theorem is_eq_false {k : Kind} : ws.is i k = false ↔ ws.kind? i ≠ some k := by
  simp [is]

theorem lt_size_of_is {k : Kind} (h : ws.is i k = true) : i < ws.size :=
  lt_size_of_kind? (is_eq_true.1 h)

theorem isAny_eq_true {ks : List Kind} : ws.isAny i ks = true ↔ ∃ k ∈ ks, ws.kind? i = some k := by
  simp [isAny, Option.any_eq_true, and_comm]

theorem lt_size_of_isAny {ks : List Kind} (h : ws.isAny i ks = true) : i < ws.size := by
  obtain ⟨k, -, hk⟩ := isAny_eq_true.1 h
  exact lt_size_of_kind? hk

theorem is_of_kind? {k : Kind} (h : ws.kind? i = some k) (k' : Kind) : ws.is i k' = (k == k') := by
  simp [is, h]

theorem isAny_of_kind? {k : Kind} (h : ws.kind? i = some k) (ks : List Kind) :
    ws.isAny i ks = ks.contains k := by
  simp [isAny, h]

/-- A word of one of some kinds is of no other kind. -/
theorem is_eq_false_of_isAny {k : Kind} {ks : List Kind} (h : ws.isAny i ks = true) (hk : k ∉ ks) :
    ws.is i k = false := by
  obtain ⟨k', hk', hkind⟩ := isAny_eq_true.1 h
  rw [is_of_kind? hkind, beq_eq_false_iff_ne]
  rintro rfl
  exact hk hk'

/-- A word is of one kind only. -/
theorem isAny_eq_false_of_isAny {ks ks' : List Kind} (h : ws.isAny i ks = true)
    (hk : ∀ k ∈ ks, k ∉ ks') :
    ws.isAny i ks' = false := by
  obtain ⟨k, hmem, hkind⟩ := isAny_eq_true.1 h
  rw [isAny_of_kind? hkind, List.contains_eq_mem]
  exact decide_eq_false (hk k hmem)

theorem isAny_mono {ks ks' : List Kind} (h : ws.isAny i ks = true) (hk : ∀ k ∈ ks, k ∈ ks') :
    ws.isAny i ks' = true := by
  obtain ⟨k, hmem, hkind⟩ := isAny_eq_true.1 h
  exact isAny_eq_true.2 ⟨k, hk k hmem, hkind⟩

theorem lt_size_of_isContextual {text : String} (h : ws.isContextual i text = true) :
    i < ws.size := by
  rw [isContextual, Bool.and_eq_true] at h
  exact lt_size_of_is h.1

/-! ## Bounds that do not matter

A function with a bound is stable if it says the same for all bounds from the number of words left
on. It is enough that its next call is at the next word. -/

/-- A look that gives the same under every bound at the end, and otherwise goes on to later words,
gives the same under every bound that is not smaller than the number of words ahead. -/
theorem stable_of_step {σ β : Type} {f : Nat → σ → Nat → β}
    (hend : ∀ n x i, ws.size ≤ i → f n x i = f 0 x i)
    (hstep : ∀ n m x i, (∀ x j, i < j → f n x j = f m x j) → f (n + 1) x i = f (m + 1) x i)
    {x : σ} (hn : ws.size - i ≤ n) (hm : ws.size - i ≤ m) : f n x i = f m x i := by
  induction n generalizing m x i with
  | zero => rw [hend m x i (by omega)]
  | succ n ih =>
      cases m with
      | zero => rw [hend (n + 1) x i (by omega)]
      | succ m =>
          apply hstep
          intro x j hj
          apply ih <;> omega

/-! ## Groups

Brackets are counted up to the end of the text at most. -/

/-- More words than there are ahead are never looked at. -/
theorem closing?_stable (hn : ws.size - i ≤ n) (hm : ws.size - i ≤ m) :
    ws.closing? n depth i = ws.closing? m depth i := by
  apply stable_of_step _ _ hn hm
  · intro n depth i h
    cases n <;> simp [closing?, kind?_eq_none h]
  · intro n m depth i h
    simp only [closing?, h _ _ (Nat.lt_succ_self i)]

theorem pastClosing_stable (hn : ws.size - i ≤ n) (hm : ws.size - i ≤ m) :
    ws.pastClosing n depth i = ws.pastClosing m depth i := by
  apply stable_of_step _ _ hn hm
  · intro n depth i h
    cases n <;> simp [pastClosing, kind?_eq_none h]
  · intro n m depth i h
    simp only [pastClosing, h _ _ (Nat.lt_succ_self i)]

/-- The end of a group is behind its start. -/
theorem lt_of_closing? {j : Nat} (h : ws.closing? n depth i = some j) : i < j := by
  induction n generalizing depth i with
  | zero => cases h
  | succ n ih =>
      simp only [closing?] at h
      split at h
      · cases h
      · split at h
        · have := ih h
          omega
        · split at h
          · split at h
            · cases h
              exact Nat.lt_succ_self i
            · have := ih h
              omega
          · have := ih h
            omega

/-- A group that is not closed ends with the text. -/
theorem pastClosing_le_size (h : i ≤ ws.size) : ws.pastClosing n depth i ≤ ws.size := by
  induction n generalizing depth i with
  | zero => exact h
  | succ n ih =>
      cases hk : ws.kind? i with
      | none => simpa [pastClosing, hk] using h
      | some k =>
          have hlt := lt_size_of_kind? hk
          rw [ws.pastClosing_succ n depth hk]
          split
          · exact hlt
          · exact ih hlt

theorem pastGroup_le_size (h : i ≤ ws.size) : ws.pastGroup i ≤ ws.size := pastClosing_le_size h

/-- A word that is there is passed over. -/
theorem lt_pastGroup (h : i < ws.size) : i < ws.pastGroup i := by
  obtain ⟨k, hk⟩ := exists_kind? h
  obtain ⟨n, hn⟩ := Nat.exists_eq_add_of_lt h
  rw [pastGroup, show ws.size - i = n + 1 by omega, ws.pastClosing_succ n 0 hk]
  split
  · exact Nat.lt_succ_self i
  · exact ws.le_pastClosing _ _ _

/-! ## Types

`TypeAt` says what a type is without a bound on the calls: a part of a type stands from one word to
before another, with its arguments and elements nested within a budget. -/

theorem pastCommas_stable (hn : ws.size - i ≤ n) (hm : ws.size - i ≤ m) :
    ws.pastCommas n i = ws.pastCommas m i := by
  apply stable_of_step (f := fun n (_ : Unit) i => ws.pastCommas n i) _ _ (x := ()) hn hm
  · intro n _ i h
    cases n <;> simp [pastCommas, is, kind?_eq_none h]
  · intro n m _ i h
    simp only [pastCommas, h () _ (Nat.lt_succ_self i)]

/-- Marks that may follow a type stand from `i` to before `j`, where no more follow. -/
inductive SuffixesAt (ws : Words) : (i j : Nat) → Prop
  | stop {i : Nat} : ws.isAny i [.question, .star] = false →
      (ws.is i .lbracket && ws.isAny (i + 1) [.rbracket, .comma]) = false → SuffixesAt ws i i
  | mark {i j : Nat} : ws.isAny i [.question, .star] = true → SuffixesAt ws (i + 1) j →
      SuffixesAt ws i j
  | rank {i j : Nat} : ws.isAny i [.question, .star] = false →
      (ws.is i .lbracket && ws.isAny (i + 1) [.rbracket, .comma]) = true →
      ws.is (ws.pastCommas (ws.size - i) (i + 1)) .rbracket = true →
      SuffixesAt ws (ws.pastCommas (ws.size - i) (i + 1) + 1) j → SuffixesAt ws i j

/-- What is found are marks that may follow a type. -/
theorem SuffixesAt.of_typeSuffixes? {j : Nat} (h : ws.typeSuffixes? n i = some j) :
    SuffixesAt ws i j := by
  induction n generalizing i with
  | zero => cases h
  | succ n ih =>
      unfold typeSuffixes? at h
      split at h
      · exact .mark ‹_› (ih h)
      · rename_i hmark
        dsimp only at h
        split at h
        · split at h
          · exact .rank (by simpa using hmark) ‹_› ‹_› (ih h)
          · cases h
        · rename_i hrank
          cases h
          exact .stop (by simpa using hmark) (by simpa using hrank)

/-- Such marks are found, if the bound allows for the words ahead. -/
theorem SuffixesAt.typeSuffixes? {j : Nat} (h : SuffixesAt ws i j) (hn : ws.size - i < n) :
    ws.typeSuffixes? n i = some j := by
  induction h generalizing n with
  | stop hmark hrank =>
      obtain ⟨n, rfl⟩ := Nat.exists_eq_add_of_lt hn
      simp [Words.typeSuffixes?, hmark, hrank]
  | mark hmark _ ih =>
      obtain ⟨n, rfl⟩ := Nat.exists_eq_add_of_lt hn
      have := lt_size_of_isAny hmark
      simp only [Words.typeSuffixes?, hmark, if_true]
      exact ih (by omega)
  | @rank i j hmark hrank hclose _ ih =>
      obtain ⟨n, rfl⟩ := Nat.exists_eq_add_of_lt hn
      have := lt_size_of_is hclose
      have := ws.le_pastCommas (ws.size - i) (i + 1)
      simp only [Words.typeSuffixes?, hmark, hrank, hclose, if_true]
      exact ih (by omega)

theorem SuffixesAt.le_size {j : Nat} (h : SuffixesAt ws i j) (hi : i ≤ ws.size) : j ≤ ws.size := by
  induction h with
  | stop _ _ => exact hi
  | mark hmark _ ih => exact ih (lt_size_of_isAny hmark)
  | rank _ _ hclose _ ih => exact ih (lt_size_of_is hclose)

/-- The name that a type starts with at `i` ends before `m`: it may be qualified by an alias. -/
def PastName (ws : Words) (i m : Nat) : Prop :=
  if ws.is (i + 1) .colonColon then ws.is (i + 2) .ident = true ∧ m = i + 3 else m = i + 1

/-- A part of a type stands from `i` to before `j`. -/
inductive TypeAt (ws : Words) : (part : TypePart) → (budget i j : Nat) → Prop
  | builtin {b i j : Nat} : ws.isAny i [.predefinedType, .voidKw] = true → SuffixesAt ws (i + 1) j →
      TypeAt ws .type (b + 1) i j
  | named {b i m k j : Nat} : ws.is i .ident = true → PastName ws i m → ws.is m .lt = false →
      TypeAt ws .segments b m k → SuffixesAt ws k j → TypeAt ws .type (b + 1) i j
  | applied {b i m k l j : Nat} : ws.is i .ident = true → PastName ws i m → ws.is m .lt = true →
      TypeAt ws .arguments b (m + 1) k → TypeAt ws .segments b k l → SuffixesAt ws l j →
      TypeAt ws .type (b + 1) i j
  | tuple {b i k j : Nat} : ws.is i .lparen = true → TypeAt ws (.elements 0) b (i + 1) k →
      SuffixesAt ws k j → TypeAt ws .type (b + 1) i j
  | argument {b i k j : Nat} : TypeAt ws .type b i k → ws.is k .comma = true →
      TypeAt ws .arguments b (k + 1) j → TypeAt ws .arguments b i j
  | lastArgument {b i k : Nat} : TypeAt ws .type b i k → ws.is k .comma = false →
      ws.is k .gt = true →
      TypeAt ws .arguments b i (k + 1)
  | segment {b i j : Nat} : (ws.is i .dot && ws.is (i + 1) .ident) = true →
      ws.is (i + 2) .lt = false →
      TypeAt ws .segments b (i + 2) j → TypeAt ws .segments b i j
  | appliedSegment {b i k j : Nat} : (ws.is i .dot && ws.is (i + 1) .ident) = true →
      ws.is (i + 2) .lt = true → TypeAt ws .arguments b (i + 3) k → TypeAt ws .segments b k j →
      TypeAt ws .segments b i j
  | noSegment {b i : Nat} : (ws.is i .dot && ws.is (i + 1) .ident) = false →
      TypeAt ws .segments b i i
  | element {before b i k m j : Nat} : TypeAt ws .type b i k →
      m = (if ws.is k .ident then k + 1 else k) → ws.is m .comma = true →
      TypeAt ws (.elements (before + 1)) b (m + 1) j → TypeAt ws (.elements before) b i j
  | lastElement {before b i k m : Nat} : TypeAt ws .type b i k →
      m = (if ws.is k .ident then k + 1 else k) → ws.is m .comma = false →
      (ws.is m .rparen && before != 0) = true → TypeAt ws (.elements before) b i (m + 1)

/-- What is found is a part of a type. By the recursion of the functions, where each call is a rule
of the relation. -/
theorem TypeAt.of_typePart? {part : TypePart} {b j : Nat} (h : ws.typePart? n part b i = some j) :
    TypeAt ws part b i j := by
  induction n generalizing part b i j with
  | zero => cases h
  | succ n ih =>
      cases part with
      | type =>
          cases b with
          | zero => cases h
          | succ b =>
              simp only [typePart?] at h
              obtain ⟨k, hk, hsuffixes⟩ := Option.bind_eq_some_iff.1 h
              have hsuffixes := SuffixesAt.of_typeSuffixes? hsuffixes
              -- by the word ahead: a built-in type, `void`, a name or a parenthesis
              split at hk
              · rename_i hkind
                cases hk
                exact .builtin (isAny_eq_true.2 ⟨_, by simp, hkind⟩) hsuffixes
              · rename_i hkind
                cases hk
                exact .builtin (isAny_eq_true.2 ⟨_, by simp, hkind⟩) hsuffixes
              · rename_i hkind
                obtain ⟨m, hm, hk⟩ := Option.bind_eq_some_iff.1 hk
                obtain ⟨l, hl, hk⟩ := Option.bind_eq_some_iff.1 hk
                have hname : PastName ws i m := by
                  unfold PastName
                  split at hm
                  · rename_i hcolons
                    rw [if_pos hcolons]
                    split at hm
                    · cases hm
                      exact ⟨‹_›, rfl⟩
                    · cases hm
                  · rename_i hcolons
                    cases hm
                    rw [if_neg hcolons]
                split at hl
                · exact .applied (is_eq_true.2 hkind) hname ‹_› (ih hl) (ih hk) hsuffixes
                · rename_i hlt
                  cases hl
                  exact .named (is_eq_true.2 hkind) hname (by simpa using hlt) (ih hk) hsuffixes
              · rename_i hkind
                exact .tuple (is_eq_true.2 hkind) (ih hk) hsuffixes
              · cases hk
      | arguments =>
          simp only [typePart?] at h
          obtain ⟨k, hk, h⟩ := Option.bind_eq_some_iff.1 h
          split at h
          · exact .argument (ih hk) ‹_› (ih h)
          · rename_i hcomma
            split at h
            · cases h
              exact .lastArgument (ih hk) (by simpa using hcomma) ‹_›
            · cases h
      | segments =>
          simp only [typePart?] at h
          split at h
          · rename_i hdot
            obtain ⟨k, hk, h⟩ := Option.bind_eq_some_iff.1 h
            split at hk
            · exact .appliedSegment hdot ‹_› (ih hk) (ih h)
            · rename_i hlt
              cases hk
              exact .segment hdot (by simpa using hlt) (ih h)
          · rename_i hdot
            cases h
            exact .noSegment (by simpa using hdot)
      | elements before =>
          simp only [typePart?] at h
          obtain ⟨k, hk, h⟩ := Option.bind_eq_some_iff.1 h
          generalize hm : (if ws.is k .ident then k + 1 else k) = m at h
          split at h
          · exact .element (ih hk) hm.symm ‹_› (ih h)
          · rename_i hcomma
            split at h
            · cases h
              exact .lastElement (ih hk) hm.symm (by simpa using hcomma) ‹_›
            · cases h

theorem SuffixesAt.le {j : Nat} (h : SuffixesAt ws i j) : i ≤ j :=
  ws.le_of_typeSuffixes? (h.typeSuffixes? (Nat.lt_succ_self _))

theorem typeSuffixes?_stable (hn : ws.size - i < n) (hm : ws.size - i < m) :
    ws.typeSuffixes? n i = ws.typeSuffixes? m i := by
  apply Option.ext
  intro j
  constructor
  · intro h
    exact (SuffixesAt.of_typeSuffixes? h).typeSuffixes? hm
  · intro h
    exact (SuffixesAt.of_typeSuffixes? h).typeSuffixes? hn

theorem PastName.lt {m : Nat} (h : PastName ws i m) : i < m := by
  unfold PastName at h
  split at h <;> omega

/-! ### The bound on calls

By induction on a derivation of `TypeAt`. A part of a type is gone on from by one or two calls at
the same word (`TypePart.rank`), and what these lead to is further on. So three calls for each word
that is left are enough. -/

/-- A part of a type takes as many words as its kind says, at least. -/
theorem TypeAt.least_le {part : TypePart} {b j : Nat} (h : TypeAt ws part b i j) :
    i + part.least ≤ j := by
  induction h with
  | builtin _ hsuffixes => exact hsuffixes.le
  | named _ hname _ _ hsuffixes ih =>
      have := hname.lt
      have := hsuffixes.le
      simp only [TypePart.least] at ih ⊢
      omega
  | applied _ hname _ _ _ hsuffixes iharguments ihsegments =>
      have := hname.lt
      have := hsuffixes.le
      simp only [TypePart.least] at iharguments ihsegments ⊢
      omega
  | tuple _ _ hsuffixes ih =>
      have := hsuffixes.le
      simp only [TypePart.least] at ih ⊢
      omega
  | argument _ _ _ ihtype ihrest =>
      simp only [TypePart.least] at ihtype ihrest ⊢
      omega
  | lastArgument _ _ _ ih =>
      simp only [TypePart.least] at ih ⊢
      omega
  | segment _ _ _ ih =>
      simp only [TypePart.least] at ih ⊢
      omega
  | appliedSegment _ _ _ _ iharguments ihsegments =>
      simp only [TypePart.least] at iharguments ihsegments ⊢
      omega
  | noSegment _ => exact Nat.le_refl _
  | element _ hm _ _ ihtype ihrest =>
      simp only [TypePart.least] at ihtype ihrest ⊢
      split at hm <;> omega
  | lastElement _ hm _ _ ih =>
      simp only [TypePart.least] at ih ⊢
      split at hm <;> omega

/-- The calls in a row that a part takes before it goes on to another word. -/
def TypePart.rank : TypePart → Nat
  | .type => 1
  | .segments => 1
  | .arguments => 2
  | .elements _ => 2

theorem PastName.le_size {m : Nat} (h : PastName ws i m) (hi : i < ws.size) : m ≤ ws.size := by
  unfold PastName at h
  split at h
  · obtain ⟨hident, rfl⟩ := h
    exact lt_size_of_is hident
  · subst h
    exact hi

/-- The name that a type starts with, as it is looked for. -/
theorem PastName.eq_some {m : Nat} (h : PastName ws i m) :
    (if ws.is (i + 1) .colonColon = true then if ws.is (i + 2) .ident =
      true then some (i + 3) else none
      else some (i + 1)) = some m := by
  unfold PastName at h
  split at h <;> simp_all

theorem TypePart.exists_succ {part : TypePart} {k : Nat} (h : k + part.rank ≤ n) :
    ∃ n', n = n' + 1 := by
  cases part <;> exact ⟨n - 1, by simp only [rank] at h; omega⟩

/-- Calls in a row that suffice for a part from `i` on: three for each word, since each of them
looks at a word of its own. -/
theorem TypeAt.typePart? {part : TypePart} {b j : Nat} (h : TypeAt ws part b i j)
    (hn : 3 * (ws.size - i) + part.rank ≤ n) : ws.typePart? n part b i = some j := by
  have hsuffix : ∀ {k j}, SuffixesAt ws k j → ws.typeSuffixes? (ws.size + 1) k = some j := by
    intro k j h
    exact h.typeSuffixes? (by omega)
  -- each rule makes one call, and its premises are at words further on or of lower rank
  induction h generalizing n with
  | builtin hkind hsuffixes =>
      obtain ⟨n, rfl⟩ := TypePart.exists_succ hn
      obtain ⟨k, hk, hkind⟩ := isAny_eq_true.1 hkind
      simp only [List.mem_cons, List.not_mem_nil, or_false] at hk
      rcases hk with rfl | rfl <;> simp [Words.typePart?, hkind, hsuffix hsuffixes]
  | named hident hname hlt _ hsuffixes ih =>
      obtain ⟨n, rfl⟩ := TypePart.exists_succ hn
      have := lt_size_of_is hident
      have := hname.lt
      simp only [TypePart.rank] at hn ih
      have hsegments := ih (n := n) (by omega)
      simp [Words.typePart?, is_eq_true.1 hident, hname.eq_some, hlt, hsegments, hsuffix hsuffixes]
  | applied hident hname hlt harguments _ hsuffixes iharguments ihsegments =>
      obtain ⟨n, rfl⟩ := TypePart.exists_succ hn
      have := lt_size_of_is hlt
      have := hname.lt
      -- arguments take a word at least, so segments start further on
      have := harguments.least_le
      simp only [TypePart.rank, TypePart.least] at *
      have harguments := iharguments (n := n) (by omega)
      have hsegments := ihsegments (n := n) (by omega)
      simp [Words.typePart?, is_eq_true.1 hident, hname.eq_some, hlt, harguments, hsegments,
        hsuffix hsuffixes]
  | tuple hparen _ hsuffixes ih =>
      obtain ⟨n, rfl⟩ := TypePart.exists_succ hn
      have := lt_size_of_is hparen
      simp only [TypePart.rank] at hn ih
      have helements := ih (n := n) (by omega)
      simp [Words.typePart?, is_eq_true.1 hparen, helements, hsuffix hsuffixes]
  | argument htype hcomma _ ihtype ihrest =>
      obtain ⟨n, rfl⟩ := TypePart.exists_succ hn
      have := lt_size_of_is hcomma
      have := htype.least_le
      simp only [TypePart.rank, TypePart.least] at *
      have htype := ihtype (n := n) (by omega)
      have hrest := ihrest (n := n) (by omega)
      simp [Words.typePart?, htype, hcomma, hrest]
  | lastArgument htype hcomma hgt ih =>
      obtain ⟨n, rfl⟩ := TypePart.exists_succ hn
      simp only [TypePart.rank] at hn ih
      have htype := ih (n := n) (by omega)
      simp [Words.typePart?, htype, hcomma, hgt]
  | segment hdot hlt _ ih =>
      obtain ⟨n, rfl⟩ := TypePart.exists_succ hn
      have := lt_size_of_is (Bool.and_eq_true_iff.1 hdot).1
      simp only [TypePart.rank] at hn ih
      have hrest := ih (n := n) (by omega)
      simp only [Words.typePart?, hdot, hlt, if_true, Bool.false_eq_true, if_false,
        Option.bind_some, hrest]
  | appliedSegment hdot hlt harguments _ iharguments ihsegments =>
      obtain ⟨n, rfl⟩ := TypePart.exists_succ hn
      have := lt_size_of_is (Bool.and_eq_true_iff.1 hdot).1
      have := harguments.least_le
      simp only [TypePart.rank, TypePart.least] at *
      have harguments := iharguments (n := n) (by omega)
      have hrest := ihsegments (n := n) (by omega)
      simp only [Words.typePart?, hdot, hlt, if_true, harguments, Option.bind_some, hrest]
  | noSegment hdot =>
      obtain ⟨n, rfl⟩ := TypePart.exists_succ hn
      simp only [Words.typePart?, hdot, Bool.false_eq_true, if_false]
  | element htype hm hcomma _ ihtype ihrest =>
      obtain ⟨n, rfl⟩ := TypePart.exists_succ hn
      have := lt_size_of_is hcomma
      have := htype.least_le
      simp only [TypePart.rank, TypePart.least] at *
      have htype := ihtype (n := n) (by omega)
      have hrest := ihrest (n := n) (by split at hm <;> omega)
      simp only [Words.typePart?, htype, Option.bind_some, ← hm, hcomma, if_true, hrest]
  | lastElement htype hm hcomma hclose ih =>
      obtain ⟨n, rfl⟩ := TypePart.exists_succ hn
      simp only [TypePart.rank] at hn ih
      have htype := ih (n := n) (by omega)
      simp only [Words.typePart?, htype, Option.bind_some, ← hm, hcomma, Bool.false_eq_true,
        if_false, hclose, if_true]

/-! ### Bounded and unbounded

What the functions find under their bound is what the relation says. From here on nothing mentions
the bound. -/

/-- With a bound of three for each word ahead, a part of a type is found exactly if it stands there.
-/
theorem typePart?_eq_some {part : TypePart} {b j : Nat} (hn : 3 * (ws.size - i) + part.rank ≤ n) :
    ws.typePart? n part b i = some j ↔ TypeAt ws part b i j :=
  ⟨.of_typePart?, fun h => h.typePart? hn⟩

/-- So a larger bound changes nothing. -/
theorem typePart?_stable {part : TypePart} {b : Nat} (hn : 3 * (ws.size - i) + part.rank ≤ n)
    (hm : 3 * (ws.size - i) + part.rank ≤ m) :
    ws.typePart? n part b i = ws.typePart? m part b i := by
  apply Option.ext
  intro j
  rw [typePart?_eq_some hn, typePart?_eq_some hm]

/-- A type is found exactly if it stands there and nests within the limit. -/
theorem typeEnd?_eq_some {limit j : Nat} :
    ws.typeEnd? limit i = some j ↔ TypeAt ws .type (limit + 1) i j := by
  apply typePart?_eq_some
  simp only [typeFuel, TypePart.rank]
  omega

/-- So are type arguments. -/
theorem typeArgumentsEnd?_eq_some {limit j : Nat} :
    ws.typeArgumentsEnd? limit i = some j ↔ TypeAt ws .arguments limit (i + 1) j := by
  apply typePart?_eq_some
  simp only [typeFuel, TypePart.rank]
  omega

/-- A type ends among the words. -/
theorem TypeAt.le_size {part : TypePart} {b j : Nat} (h : TypeAt ws part b i j) (hi : i ≤ ws.size) :
    j ≤ ws.size := by
  induction h with
  | builtin hkind hsuffixes => exact hsuffixes.le_size (lt_size_of_isAny hkind)
  | named hident hname _ _ hsuffixes ih =>
      exact hsuffixes.le_size (ih (hname.le_size (lt_size_of_is hident)))
  | applied _ _ hlt _ _ hsuffixes iharguments ihsegments =>
      exact hsuffixes.le_size (ihsegments (iharguments (lt_size_of_is hlt)))
  | tuple hparen _ hsuffixes ih => exact hsuffixes.le_size (ih (lt_size_of_is hparen))
  | argument _ hcomma _ _ ih => exact ih (lt_size_of_is hcomma)
  | lastArgument _ _ hgt _ => exact lt_size_of_is hgt
  | segment hdot _ _ ih => exact ih (lt_size_of_is (Bool.and_eq_true_iff.1 hdot).2)
  | appliedSegment _ hlt _ _ iharguments ihsegments =>
      exact ihsegments (iharguments (lt_size_of_is hlt))
  | noSegment _ => exact hi
  | element _ _ hcomma _ _ ih => exact ih (lt_size_of_is hcomma)
  | lastElement _ _ _ hclose _ => exact lt_size_of_is (Bool.and_eq_true_iff.1 hclose).1

theorem le_size_of_typeEnd? {limit j : Nat} (h : ws.typeEnd? limit i = some j) (hi : i ≤ ws.size) :
    j ≤ ws.size :=
  (typeEnd?_eq_some.1 h).le_size hi

theorem le_size_of_typeBeforeName? {limit j : Nat} (h : ws.typeBeforeName? limit i = some j)
    (hi : i ≤ ws.size) :
    j ≤ ws.size :=
  le_size_of_typeEnd? (Option.filter_eq_some_iff.1 h).1 hi

theorem le_size_of_typeArgumentsEnd? {limit j : Nat} (h : ws.typeArgumentsEnd? limit i = some j)
    (hi : i < ws.size) : j ≤ ws.size :=
  (typeArgumentsEnd?_eq_some.1 h).le_size hi

/-- What nests within a budget nests within a larger one. -/
theorem TypeAt.mono {part : TypePart} {b b' j : Nat} (h : TypeAt ws part b i j) (hb : b ≤ b') :
    TypeAt ws part b' i j := by
  induction h generalizing b' with
  | builtin hkind hsuffixes =>
      obtain ⟨b', rfl⟩ := Nat.exists_eq_add_of_lt hb
      exact .builtin hkind hsuffixes
  | named hident hname hlt _ hsuffixes ih =>
      obtain ⟨b', rfl⟩ := Nat.exists_eq_add_of_lt hb
      exact .named hident hname hlt (ih (Nat.le_add_right _ _)) hsuffixes
  | applied hident hname hlt _ _ hsuffixes iharguments ihsegments =>
      obtain ⟨b', rfl⟩ := Nat.exists_eq_add_of_lt hb
      exact .applied hident hname hlt (iharguments (Nat.le_add_right _ _))
        (ihsegments (Nat.le_add_right _ _))
        hsuffixes
  | tuple hparen _ hsuffixes ih =>
      obtain ⟨b', rfl⟩ := Nat.exists_eq_add_of_lt hb
      exact .tuple hparen (ih (Nat.le_add_right _ _)) hsuffixes
  | argument _ hcomma _ ihtype ihrest => exact .argument (ihtype hb) hcomma (ihrest hb)
  | lastArgument _ hcomma hgt ih => exact .lastArgument (ih hb) hcomma hgt
  | segment hdot hlt _ ih => exact .segment hdot hlt (ih hb)
  | appliedSegment hdot hlt _ _ iharguments ihsegments =>
      exact .appliedSegment hdot hlt (iharguments hb) (ihsegments hb)
  | noSegment hdot => exact .noSegment hdot
  | element _ hm hcomma _ ihtype ihrest => exact .element (ihtype hb) hm hcomma (ihrest hb)
  | lastElement _ hm hcomma hclose ih => exact .lastElement (ih hb) hm hcomma hclose

/-! ## Declarations and lambdas

These look past modifiers and attributes, a word or a group at a time. -/

/-- Without a bracket ahead there is nothing to pass over. -/
theorem pastAttributes?_eq_self (h : ws.is i .lbracket = false) (n : Nat) :
    ws.pastAttributes? n i = some i := by
  cases n with
  | zero => rfl
  | succ n => simp [pastAttributes?, h]

theorem pastAttributes?_stable (hn : ws.size - i ≤ n) (hm : ws.size - i ≤ m) :
    ws.pastAttributes? n i = ws.pastAttributes? m i := by
  apply stable_of_step (f := fun n (_ : Unit) i => ws.pastAttributes? n i) _ _ (x := ()) hn hm
  · intro n _ i h
    cases n <;> simp [pastAttributes?, is, kind?_eq_none h]
  · intro n m _ i h
    simp only [pastAttributes?]
    congr 1
    apply Option.bind_congr
    intro j hj
    exact h () j (lt_of_closing? hj)

theorem leadsToMember_stable (hn : ws.size - i ≤ n) (hm : ws.size - i ≤ m) :
    ws.leadsToMember n i = ws.leadsToMember m i := by
  apply stable_of_step (f := fun n (_ : Unit) i => ws.leadsToMember n i) _ _ (x := ()) hn hm
  · intro n _ i h
    cases n <;> simp [leadsToMember, kind?_eq_none h]
  · intro n m _ i h
    simp only [leadsToMember, h () _ (Nat.lt_succ_self i)]

theorem closesBeforeArrow_stable (hn : ws.size - i ≤ n) (hm : ws.size - i ≤ m) :
    ws.closesBeforeArrow n depth i = ws.closesBeforeArrow m depth i := by
  apply stable_of_step _ _ hn hm
  · intro n depth i h
    cases n <;> simp [closesBeforeArrow, kind?_eq_none h]
  · intro n m depth i h
    simp only [closesBeforeArrow, h _ _ (Nat.lt_succ_self i)]

theorem leadsToLambda_stable (hn : ws.size - i ≤ n) (hm : ws.size - i ≤ m) :
    ws.leadsToLambda n i = ws.leadsToLambda m i := by
  apply stable_of_step (f := fun n (_ : Unit) i => ws.leadsToLambda n i) _ _ (x := ()) hn hm
  · intro n _ i h
    cases n <;> simp [leadsToLambda, kind?_eq_none h]
  · intro n m _ i h
    simp only [leadsToLambda, h () _ (Nat.lt_succ_self i)]

end SharpTokens.Grammar.Words
