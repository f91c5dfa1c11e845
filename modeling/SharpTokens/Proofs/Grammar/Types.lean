import SharpTokens.Grammar.Nonterminal
import SharpTokens.Proofs.Grammar.Run.Lookahead

/-!
# The language of types

What types look like, by the kinds of their words alone (`Forms`), and that looking ahead for a type
recognises just this (`skipType_recognises_types`): what it passes over is a type
(`Words.TypeAt.made`), and a type that nests within the limit is passed over (`Forms.found`).

A grammar says nothing about what follows, while looking ahead takes as much as it can. So a form of
the grammar is found only where the word behind it could not go on with it (`Words.Found`). Behind a
whole type that is asked for, and behind its parts the grammar itself puts such a word.
-/

namespace SharpTokens.Grammar

/-! ## The grammar

The forms of types over the kinds of words, with how deep arguments and elements nest. Marks may
follow one another in any order, as the look takes them. -/

/-- Marks that may follow a type, one after another: `?`, `*` and array ranks. -/
inductive Suffixes : List Kind → Prop
  | none : Suffixes []
  | nullable {ks : List Kind} : Suffixes ks → Suffixes (.question :: ks)
  | pointer {ks : List Kind} : Suffixes ks → Suffixes (.star :: ks)
  | array (n : Nat) {ks : List Kind} :
      Suffixes ks → Suffixes (.lbracket :: (List.replicate n .comma ++ .rbracket :: ks))

inductive TypeForm where
  /-- a type -/
  | type
  /-- a part of a dotted name, with or without type arguments -/
  | segment
  /-- parts of a dotted name -/
  | segments
  /-- what stands between `<` and `>` -/
  | arguments
  /-- a type in a tuple, with or without a name -/
  | element
  /-- what stands between the parentheses of a tuple -/
  | elements

/-- The kinds of the words of a type, whose arguments and elements nest as deep as the number
says. -/
inductive Forms : TypeForm → Nat → List Kind → Prop
  /-- a built-in type -/
  | builtin {k : Kind} {ss : List Kind} :
      k ∈ [.predefinedType, .voidKw] → Suffixes ss → Forms .type 0 (k :: ss)
  /-- a name -/
  | named {n : Nat} {ks ss : List Kind} :
      Forms .segments n ks → Suffixes ss → Forms .type n (ks ++ ss)
  /-- a name that is qualified by an alias -/
  | aliased {n : Nat} {ks ss : List Kind} : Forms .segments n ks → Suffixes ss →
      Forms .type n (.ident :: .colonColon :: (ks ++ ss))
  /-- a tuple -/
  | tuple {n : Nat} {ks ss : List Kind} : Forms .elements n ks → Suffixes ss →
      Forms .type n (.lparen :: (ks ++ .rparen :: ss))
  | plain : Forms .segment 0 [.ident]
  | applied {n : Nat} {ks : List Kind} :
      Forms .arguments n ks → Forms .segment n (.ident :: .lt :: (ks ++ [.gt]))
  | lastSegment {n : Nat} {ks : List Kind} : Forms .segment n ks → Forms .segments n ks
  | dotted {m n : Nat} {ks ls : List Kind} : Forms .segment m ks → Forms .segments n ls →
      Forms .segments (max m n) (ks ++ .dot :: ls)
  | lastArgument {n : Nat} {ks : List Kind} : Forms .type n ks → Forms .arguments (n + 1) ks
  | argument {m n : Nat} {ks ls : List Kind} : Forms .type m ks → Forms .arguments n ls →
      Forms .arguments (max (m + 1) n) (ks ++ .comma :: ls)
  | unnamedElement {n : Nat} {ks : List Kind} : Forms .type n ks → Forms .element (n + 1) ks
  | namedElement {n : Nat} {ks : List Kind} : Forms .type n ks → Forms .element (n + 1)
      (ks ++ [.ident])
  /-- a tuple has two elements or more -/
  | lastElements {m n : Nat} {ks ls : List Kind} : Forms .element m ks → Forms .element n ls →
      Forms .elements (max m n) (ks ++ .comma :: ls)
  | moreElements {m n : Nat} {ks ls : List Kind} : Forms .element m ks → Forms .elements n ls →
      Forms .elements (max m n) (ks ++ .comma :: ls)

namespace Words

variable {ws : Words} {b i j lo hi mid : Nat} {k : Kind} {ks ls : List Kind}

/-! ## Words of some kinds

A run of words with given kinds, and its place among the words of a text. -/

/-- The words from `lo` to before `hi` are of these kinds. -/
def Runs (ws : Words) (lo : Nat) : List Kind → (hi : Nat) → Prop
  | [], hi => lo = hi
  | k :: ks, hi => ws.kind? lo = some k ∧ Runs ws (lo + 1) ks hi

@[simp] theorem runs_nil : Runs ws lo [] hi ↔ lo = hi := Iff.rfl

@[simp] theorem runs_cons : Runs ws lo (k :: ks) hi ↔ ws.kind? lo = some k ∧
    Runs ws (lo + 1) ks hi := Iff.rfl

/-- Two runs, one after the other. -/
@[simp] theorem runs_append : Runs ws lo (ks ++ ls) hi ↔ ∃ mid, Runs ws lo ks mid ∧
    Runs ws mid ls hi := by
  induction ks generalizing lo with
  | nil => simp
  | cons k ks ih => simp [ih, and_assoc]

theorem Runs.append (h : Runs ws lo ks mid) (h' : Runs ws mid ls hi) : Runs ws lo (ks ++ ls) hi :=
  runs_append.2 ⟨mid, h, h'⟩

theorem Runs.eq_add (h : Runs ws lo ks hi) : hi = lo + ks.length := by
  induction ks generalizing lo with
  | nil => exact h.symm
  | cons k ks ih =>
      rw [ih h.2, List.length_cons]
      omega

def kindsFrom (ws : Words) (lo : Nat) : List Kind := (ws.toList.drop lo).map (·.kind)

theorem head?_kindsFrom : (ws.kindsFrom lo).head? = ws.kind? lo := by
  simp [kindsFrom, kind?, List.head?_drop]

theorem kindsFrom_eq_nil (h : ws.size ≤ lo) : ws.kindsFrom lo = [] :=
  List.head?_eq_none_iff.1 (head?_kindsFrom.trans (kind?_eq_none h))

theorem kindsFrom_eq_cons : ws.kindsFrom lo = k :: ks ↔ ws.kind? lo = some k ∧
    ws.kindsFrom (lo + 1) = ks := by
  rw [← head?_kindsFrom, kindsFrom, kindsFrom, ← List.drop_drop]
  cases ws.toList.drop lo <;> simp

/-- What stands from a word on starts with some kinds exactly if these run there. -/
theorem kindsFrom_eq_append :
    ws.kindsFrom lo = ks ++ ls ↔ Runs ws lo ks (lo + ks.length) ∧
      ws.kindsFrom (lo + ks.length) = ls := by
  induction ks generalizing lo with
  | nil => simp
  | cons k ks ih =>
      rw [List.cons_append, kindsFrom_eq_cons, ih, runs_cons, List.length_cons, Nat.add_right_comm,
        Nat.add_assoc, and_assoc]

/-! ## What is passed over is a type

By induction on how the look came to its end. It goes through a type in parts that are not types by
themselves, which is why what the parts make is said with what comes before them. -/

/-- Commas are passed over. -/
theorem runs_pastCommas (ws : Words) (n i : Nat) : ∃ m, Runs ws i (List.replicate m .comma)
    (ws.pastCommas n i) := by
  induction n generalizing i with
  | zero => exact ⟨0, rfl⟩
  | succ n ih =>
      rw [pastCommas]
      split
      · rename_i hcomma
        obtain ⟨m, hm⟩ := ih (i + 1)
        exact ⟨m + 1, is_eq_true.1 hcomma, hm⟩
      · exact ⟨0, rfl⟩

/-- The marks that are passed over are such as may follow a type. -/
theorem SuffixesAt.suffixes (h : SuffixesAt ws i j) : ∃ ss, Suffixes ss ∧ Runs ws i ss j := by
  induction h with
  | stop _ _ => exact ⟨[], .none, rfl⟩
  | mark hmark _ ih =>
      obtain ⟨ss, hss, hruns⟩ := ih
      obtain ⟨k, hk, hkind⟩ := isAny_eq_true.1 hmark
      rcases List.mem_cons.1 hk with rfl | hk
      · exact ⟨_, .nullable hss, hkind, hruns⟩
      · cases List.mem_singleton.1 hk
        exact ⟨_, .pointer hss, hkind, hruns⟩
  | @rank i j _ hopen hclose _ ih =>
      obtain ⟨ss, hss, hruns⟩ := ih
      obtain ⟨n, hcommas⟩ := ws.runs_pastCommas (ws.size - i) (i + 1)
      refine ⟨_, .array n hss, ?_, hcommas.append ⟨is_eq_true.1 hclose, hruns⟩⟩
      exact is_eq_true.1 (Bool.and_eq_true_iff.1 hopen).1

/-- A part of a type as it is looked for is made of forms of the grammar. What is looked for after a
segment makes a name with that segment, and the elements after the first make a tuple with it, be it
only one. -/
def Made (ws : Words) (b i j : Nat) : TypePart → Prop
  | .type => ∃ n ks, n < b ∧ Forms .type n ks ∧ Runs ws i ks j
  | .arguments => ∃ n ks, n ≤ b ∧ Forms .arguments n ks ∧ Runs ws i (ks ++ [.gt]) j
  | .segments => ∀ {m ks lo}, m ≤ b → Forms .segment m ks → Runs ws lo ks i →
      ∃ n ls, n ≤ b ∧ Forms .segments n ls ∧ Runs ws lo ls j
  | .elements before => ∃ n ks, n ≤ b ∧ (Forms .elements n ks ∨ before ≠ 0 ∧ Forms .element n ks) ∧
      Runs ws i (ks ++ [.rparen]) j

/-- A type in a tuple may have a name. -/
theorem Made.element (h : Made ws b i mid .type)
    (hj : j = if ws.is mid .ident then mid + 1 else mid) :
    ∃ n ks, n ≤ b ∧ Forms .element n ks ∧ Runs ws i ks j := by
  obtain ⟨n, ks, hn, hforms, hruns⟩ := h
  split at hj
  · rename_i hname
    exact ⟨n + 1, ks ++ [.ident], hn, .namedElement hforms,
      hruns.append ⟨is_eq_true.1 hname, hj.symm⟩⟩
  · exact ⟨n + 1, ks, hn, .unnamedElement hforms, hj ▸ hruns⟩

/-- A name and the marks behind it make a type, whether it is qualified by an alias or not. -/
theorem Made.named {m : Nat} (hident : ws.is i .ident = true) (hname : PastName ws i m)
    (h : ∀ lo, Runs ws lo [.ident] m → ∃ n ks, n ≤ b ∧ Forms .segments n ks ∧ Runs ws lo ks mid)
    (hsuffixes : SuffixesAt ws mid j) : Made ws (b + 1) i j .type := by
  obtain ⟨ss, hss, hmarks⟩ := hsuffixes.suffixes
  have hident := is_eq_true.1 hident
  rw [PastName] at hname
  split at hname
  · rename_i hcolons
    obtain ⟨hlast, rfl⟩ := hname
    obtain ⟨n, ks, hn, hforms, hruns⟩ := h (i + 2) ⟨is_eq_true.1 hlast, rfl⟩
    exact ⟨n, _, Nat.lt_succ_of_le hn, .aliased hforms hss, hident, is_eq_true.1 hcolons,
      hruns.append hmarks⟩
  · subst hname
    obtain ⟨n, ks, hn, hforms, hruns⟩ := h i ⟨hident, rfl⟩
    exact ⟨n, _, Nat.lt_succ_of_le hn, .named hforms hss, hruns.append hmarks⟩

/-- **What is passed over as a type is one.** -/
theorem TypeAt.made {part : TypePart} (h : TypeAt ws part b i j) : Made ws b i j part := by
  induction h with
  | builtin hbuiltin hsuffixes =>
      obtain ⟨k, hk, hkind⟩ := isAny_eq_true.1 hbuiltin
      obtain ⟨ss, hss, hruns⟩ := hsuffixes.suffixes
      exact ⟨0, _, Nat.succ_pos _, .builtin hk hss, hkind, hruns⟩
  | named hident hname _ _ hsuffixes ih =>
      exact Made.named hident hname (fun _ hruns => ih (Nat.zero_le _) .plain hruns) hsuffixes
  | applied hident hname hopen _ _ hsuffixes iharguments ih =>
      obtain ⟨n, ks, hn, hforms, hruns⟩ := iharguments
      refine Made.named hident hname (fun _ hfirst => ih hn (.applied hforms) ?_) hsuffixes
      exact hfirst.append (show Runs ws _ (.lt :: (ks ++ [.gt])) _ from ⟨is_eq_true.1 hopen, hruns⟩)
  | tuple hopen _ hsuffixes ih =>
      obtain ⟨n, ks, hn, hforms, hruns⟩ := ih
      obtain ⟨ss, hss, hmarks⟩ := hsuffixes.suffixes
      -- a tuple has more than its first element
      have hforms : Forms .elements n ks := hforms.resolve_right fun h => h.1 rfl
      refine ⟨n, _, Nat.lt_succ_of_le hn, .tuple hforms hss, is_eq_true.1 hopen, ?_⟩
      rw [List.append_cons]
      exact hruns.append hmarks
  | argument _ hcomma _ ihtype ih =>
      obtain ⟨m, ks, hm, hforms, hruns⟩ := ihtype
      obtain ⟨n, ls, hn, hforms', hruns'⟩ := ih
      refine ⟨max (m + 1) n, _, Nat.max_le.2 ⟨hm, hn⟩, .argument hforms hforms', ?_⟩
      rw [List.append_assoc]
      exact hruns.append ⟨is_eq_true.1 hcomma, hruns'⟩
  | lastArgument _ _ hclose ih =>
      obtain ⟨n, ks, hn, hforms, hruns⟩ := ih
      exact ⟨n + 1, ks, hn, .lastArgument hforms, hruns.append ⟨is_eq_true.1 hclose, rfl⟩⟩
  | segment hdot _ _ ih =>
      intro m ks lo hm hforms hruns
      rw [Bool.and_eq_true, is_eq_true, is_eq_true] at hdot
      obtain ⟨n, ls, hn, hforms', hruns'⟩ := ih (Nat.zero_le _) .plain ⟨hdot.2, rfl⟩
      exact ⟨max m n, _, Nat.max_le.2 ⟨hm, hn⟩, .dotted hforms hforms',
        hruns.append ⟨hdot.1, hruns'⟩⟩
  | appliedSegment hdot hopen _ _ iharguments ih =>
      intro m ks lo hm hforms hruns
      rw [Bool.and_eq_true, is_eq_true, is_eq_true] at hdot
      obtain ⟨n', ks', hn', hforms', hruns'⟩ := iharguments
      obtain ⟨n, ls, hn, hforms', hruns'⟩ :=
        ih hn' (.applied hforms') ⟨hdot.2, is_eq_true.1 hopen, hruns'⟩
      exact ⟨max m n, _, Nat.max_le.2 ⟨hm, hn⟩, .dotted hforms hforms',
        hruns.append ⟨hdot.1, hruns'⟩⟩
  | noSegment _ =>
      intro m ks lo hm hforms hruns
      exact ⟨m, ks, hm, .lastSegment hforms, hruns⟩
  | element _ hpast hcomma _ ihtype ih =>
      obtain ⟨m, ks, hm, hforms, hruns⟩ := Made.element ihtype hpast
      obtain ⟨n, ls, hn, hforms', hruns'⟩ := ih
      refine ⟨max m n, ks ++ .comma :: ls, Nat.max_le.2 ⟨hm, hn⟩, .inl ?_, ?_⟩
      · rcases hforms' with hforms' | ⟨-, hforms'⟩
        · exact .moreElements hforms hforms'
        · exact .lastElements hforms hforms'
      · rw [List.append_assoc]
        exact hruns.append ⟨is_eq_true.1 hcomma, hruns'⟩
  | lastElement _ hpast _ hclose ih =>
      obtain ⟨n, ks, hn, hforms, hruns⟩ := Made.element ih hpast
      rw [Bool.and_eq_true, bne_iff_ne] at hclose
      exact ⟨n, ks, hn, .inr ⟨hclose.2, hforms⟩, hruns.append ⟨is_eq_true.1 hclose.1, rfl⟩⟩

/-! ## A type is passed over

By induction on the form of the type. The look is greedy, so what follows the type must not go on
with it. -/

theorem isAny_eq_false : ws.isAny i ks = false ↔ ∀ k, ws.kind? i = some k → k ∉ ks := by
  simp only [isAny, Option.any_eq_false, List.contains_eq_mem, decide_eq_false_iff_not]

theorem is_eq_false_of_isAny_eq_false (h : ws.isAny i ks = false) (hk : k ∈ ks) :
    ws.is i k = false :=
  is_eq_false.2 fun hkind => isAny_eq_false.1 h k hkind hk

theorem isAny_eq_false_mono (h : ws.isAny i ks = false) (hks : ∀ k ∈ ls, k ∈ ks) :
    ws.isAny i ls = false :=
  isAny_eq_false.2 fun k hkind hk => isAny_eq_false.1 h k hkind (hks k hk)

/-- All commas of a rank are passed over. -/
theorem pastCommas_eq_of_runs {n fuel : Nat} (h : Runs ws i (List.replicate n .comma) j)
    (hj : ws.is j .comma = false) (hfuel : n ≤ fuel) : ws.pastCommas fuel i = j := by
  induction n generalizing fuel i with
  | zero =>
      obtain rfl : i = j := h
      cases fuel with
      | zero => rfl
      | succ fuel => simp [pastCommas, hj]
  | succ n ih =>
      obtain ⟨fuel, rfl⟩ := Nat.exists_eq_add_of_le' hfuel
      rw [← Nat.add_assoc, pastCommas, if_pos (is_eq_true.2 h.1)]
      exact ih h.2 (by omega)

theorem SuffixesAt.of_rank {n : Nat} (hopen : ws.kind? i = some .lbracket)
    (hcommas : Runs ws (i + 1) (List.replicate n .comma) mid)
    (hclose : ws.kind? mid = some .rbracket) (h : SuffixesAt ws (mid + 1) j) :
    SuffixesAt ws i j := by
  have hnext : ws.isAny (i + 1) [.rbracket, .comma] = true := by
    cases n with
    | zero =>
        obtain rfl : i + 1 = mid := hcommas
        exact isAny_eq_true.2 ⟨_, by decide, hclose⟩
    | succ n => exact isAny_eq_true.2 ⟨_, by decide, hcommas.1⟩
  have hpast : ws.pastCommas (ws.size - i) (i + 1) = mid := by
    apply pastCommas_eq_of_runs hcommas
    · rw [is_of_kind? hclose]
      rfl
    · have hlength := hcommas.eq_add
      have hsize := lt_size_of_kind? hclose
      rw [List.length_replicate] at hlength
      omega
  refine .rank ?_ ?_ ?_ (hpast.symm ▸ h)
  · rw [isAny_of_kind? hopen]
    rfl
  · rw [is_of_kind? hopen, hnext]
    rfl
  · rw [hpast]
    exact is_eq_true.2 hclose

/-- Marks are passed over up to where none follows. -/
theorem suffixesAt_of_runs (h : Suffixes ks) (hruns : Runs ws i ks j)
    (hj : ws.isAny j [.question, .star, .lbracket] = false) : SuffixesAt ws i j := by
  induction h generalizing i with
  | none =>
      obtain rfl : i = j := hruns
      refine .stop (isAny_eq_false_mono hj (by decide)) ?_
      rw [is_eq_false_of_isAny_eq_false hj (by decide)]
      rfl
  | nullable _ ih => exact .mark (isAny_eq_true.2 ⟨_, by decide, hruns.1⟩) (ih hruns.2)
  | pointer _ ih => exact .mark (isAny_eq_true.2 ⟨_, by decide, hruns.1⟩) (ih hruns.2)
  | array n _ ih =>
      obtain ⟨hopen, h⟩ := hruns
      obtain ⟨mid, hcommas, hclose, hrest⟩ := runs_append.1 h
      exact .of_rank hopen hcommas hclose (ih hrest)

/-- The words that could go on with a name: neither marks nor what may follow a type are among
them. -/
def nameGoesOn : List Kind := [.lt, .colonColon, .dot]

/-- The words that could go on with a type. -/
def typeGoesOn : List Kind := [.lt, .colonColon, .dot, .question, .star, .lbracket]

/-- Behind a name there are marks or the end of the type. -/
theorem isAny_nameGoesOn_of_suffixes (h : Suffixes ks) (hruns : Runs ws i ks j)
    (hj : ws.isAny j typeGoesOn = false) :
    ws.isAny i nameGoesOn = false := by
  cases h with
  | none =>
      obtain rfl : i = j := hruns
      exact isAny_eq_false_mono hj (by decide)
  | nullable _ | pointer _ | array _ _ =>
      rw [isAny_of_kind? hruns.1]
      rfl

/-- A part of a dotted name stands from `i` to before `j`. -/
def SegmentAt (ws : Words) (b i j : Nat) : Prop :=
  ws.is i .ident = true ∧ (j = i + 1 ∨ ws.is (i + 1) .lt = true ∧ TypeAt ws .arguments b (i + 2) j)

/-- A dotted name stands from `i` to before `j`: its first part, which nothing goes on with but a
dot, and the others. -/
def DottedAt (ws : Words) (b i j : Nat) : Prop :=
  ∃ mid, SegmentAt ws b i mid ∧ ws.isAny mid [.lt, .colonColon] = false ∧
    TypeAt ws .segments b mid j

theorem DottedAt.segments (hdot : ws.kind? i = some .dot) (h : DottedAt ws b (i + 1) j) :
    TypeAt ws .segments b i j := by
  obtain ⟨mid, ⟨hident, hsegment⟩, hmid, hrest⟩ := h
  have hnext : (ws.is i .dot && ws.is (i + 1) .ident) = true := by
    rw [is_eq_true.2 hdot, hident]
    rfl
  rcases hsegment with rfl | ⟨hopen, harguments⟩
  · exact .segment hnext (is_eq_false_of_isAny_eq_false hmid (by decide)) hrest
  · exact .appliedSegment hnext hopen harguments hrest

/-- A dotted name that stands where the name of a type is to be, with marks behind it, is a type. -/
theorem DottedAt.type (hident : ws.is i .ident = true) (hname : PastName ws i (lo + 1))
    (h : DottedAt ws b lo mid) (hsuffixes : SuffixesAt ws mid j) : TypeAt ws .type (b + 1) i j := by
  obtain ⟨past, ⟨-, hsegment⟩, hpast, hrest⟩ := h
  rcases hsegment with rfl | ⟨hopen, harguments⟩
  · exact .named hident hname (is_eq_false_of_isAny_eq_false hpast (by decide)) hrest hsuffixes
  · exact .applied hident hname hopen harguments hrest hsuffixes

theorem DottedAt.is_ident (h : DottedAt ws b i j) : ws.is i .ident = true := by
  obtain ⟨_, ⟨hident, -⟩, -⟩ := h
  exact hident

theorem DottedAt.pastName (h : DottedAt ws b i j) : PastName ws i (i + 1) := by
  obtain ⟨mid, ⟨-, hsegment⟩, hmid, -⟩ := h
  have hcolons : ws.is (i + 1) .colonColon = false := by
    rcases hsegment with rfl | ⟨hopen, -⟩
    · exact is_eq_false_of_isAny_eq_false hmid (by decide)
    · rw [is_of_kind? (is_eq_true.1 hopen)]
      rfl
  rw [PastName, if_neg (ne_true_of_eq_false hcolons)]

/-- A form of the grammar is found where nothing could go on with it. -/
def Found (ws : Words) (b i j : Nat) : TypeForm → Prop
  | .type => ws.isAny j typeGoesOn = false → TypeAt ws .type (b + 1) i j
  | .segment => SegmentAt ws b i j
  | .segments => ws.isAny j nameGoesOn = false → DottedAt ws b i j
  | .arguments => ws.kind? j = some .gt → TypeAt ws .arguments b i (j + 1)
  | .element => ws.isAny j [.comma, .rparen] = true →
      ∃ k, TypeAt ws .type b i k ∧ j = if ws.is k .ident then k + 1 else k
  | .elements => ws.kind? j = some .rparen → ∀ before, TypeAt ws (.elements before) b i (j + 1)

/-- A name with marks behind it is found, since no mark goes on with a name. -/
theorem Found.marked (h : Found ws b i mid .segments) (hks : Suffixes ks) (hruns : Runs ws mid ks j)
    (hj : ws.isAny j typeGoesOn = false) : DottedAt ws b i mid ∧ SuffixesAt ws mid j := by
  refine ⟨h ?_, suffixesAt_of_runs hks hruns (isAny_eq_false_mono hj (by decide))⟩
  exact isAny_nameGoesOn_of_suffixes hks hruns hj

theorem Found.type_of_kind? (h : Found ws b i j .type) (hk : ws.kind? j = some k)
    (hstops : k ∉ typeGoesOn) :
    TypeAt ws .type (b + 1) i j := by
  apply h
  rw [isAny_of_kind? hk, List.contains_eq_mem]
  exact decide_eq_false hstops

theorem Found.element (h : Found ws b i mid .element) (hcomma : ws.kind? mid = some .comma)
    {before : Nat} (hrest : TypeAt ws (.elements (before + 1)) b (mid + 1) j) :
    TypeAt ws (.elements before) b i j := by
  obtain ⟨past, htype, hpast⟩ := h (isAny_eq_true.2 ⟨_, by decide, hcomma⟩)
  exact .element htype hpast (is_eq_true.2 hcomma) hrest

/-- The last element of a tuple stands before the closing parenthesis. -/
theorem Found.lastElement (h : Found ws b i j .element) (hclose : ws.kind? j = some .rparen)
    (before : Nat) :
    TypeAt ws (.elements (before + 1)) b i (j + 1) := by
  obtain ⟨past, htype, hpast⟩ := h (isAny_eq_true.2 ⟨_, by decide, hclose⟩)
  refine .lastElement htype hpast ?_ ?_
  · rw [is_of_kind? hclose]
    rfl
  · rw [is_of_kind? hclose]
    rfl

end Words

open Words

variable {ws : Words} {b i j : Nat}

/-! ### Every form is found

By induction on the form. What follows a part inside a type is put there by the grammar, and what
follows the whole type is a premise. -/

/-- **A type is passed over.** -/
theorem Forms.found {form : TypeForm} {n : Nat} {ks : List Kind} (h : Forms form n ks) (hb : n ≤ b)
    (hruns : Runs ws i ks j) : Found ws b i j form := by
  induction h generalizing b i j with
  | builtin hk hss =>
      intro hj
      have hsuffixes := suffixesAt_of_runs hss hruns.2 (isAny_eq_false_mono hj (by decide))
      exact .builtin (isAny_eq_true.2 ⟨_, hk, hruns.1⟩) hsuffixes
  | named _ hss ih =>
      intro hj
      obtain ⟨mid, hname, hmarks⟩ := runs_append.1 hruns
      obtain ⟨hdotted, hsuffixes⟩ := (ih hb hname).marked hss hmarks hj
      exact hdotted.type hdotted.is_ident hdotted.pastName hsuffixes
  | aliased _ hss ih =>
      intro hj
      obtain ⟨hident, hcolons, hrest⟩ := hruns
      obtain ⟨mid, hname, hmarks⟩ := runs_append.1 hrest
      obtain ⟨hdotted, hsuffixes⟩ := (ih hb hname).marked hss hmarks hj
      refine hdotted.type (is_eq_true.2 hident) ?_ hsuffixes
      rw [PastName, if_pos (is_eq_true.2 hcolons)]
      exact ⟨hdotted.is_ident, rfl⟩
  | tuple _ hss ih =>
      intro hj
      obtain ⟨hopen, hrest⟩ := hruns
      obtain ⟨mid, helements, hclose, hmarks⟩ := runs_append.1 hrest
      have hsuffixes := suffixesAt_of_runs hss hmarks (isAny_eq_false_mono hj (by decide))
      exact .tuple (is_eq_true.2 hopen) (ih hb helements hclose 0) hsuffixes
  -- a segment is found whatever follows it
  | plain => exact ⟨is_eq_true.2 hruns.1, .inl hruns.2.symm⟩
  | applied _ ih =>
      obtain ⟨hident, hopen, hrest⟩ := hruns
      obtain ⟨mid, harguments, hclose, rfl⟩ := runs_append.1 hrest
      exact ⟨is_eq_true.2 hident, .inr ⟨is_eq_true.2 hopen, ih hb harguments hclose⟩⟩
  | lastSegment _ ih =>
      intro hj
      refine ⟨j, ih hb hruns, isAny_eq_false_mono hj (by decide), .noSegment ?_⟩
      rw [is_eq_false_of_isAny_eq_false hj (by decide)]
      rfl
  | dotted _ _ ihfirst ih =>
      intro hj
      obtain ⟨mid, hfirst, hdot, hrest⟩ := runs_append.1 hruns
      obtain ⟨hm, hn⟩ := Nat.max_le.1 hb
      refine ⟨mid, ihfirst hm hfirst, ?_, DottedAt.segments hdot (ih hn hrest hj)⟩
      rw [isAny_of_kind? hdot]
      rfl
  | lastArgument _ ih =>
      intro hclose
      -- arguments are a level deeper, and the budget has room for that
      obtain ⟨b, rfl⟩ := Nat.exists_eq_add_of_le' hb
      have htype := (ih (Nat.le_add_left _ b) hruns).type_of_kind? hclose (by decide)
      refine .lastArgument htype ?_ (is_eq_true.2 hclose)
      rw [is_of_kind? hclose]
      rfl
  | argument _ _ ihfirst ih =>
      intro hclose
      obtain ⟨hm, hn⟩ := Nat.max_le.1 hb
      obtain ⟨b, rfl⟩ := Nat.exists_eq_add_of_le' hm
      obtain ⟨mid, hfirst, hcomma, hrest⟩ := runs_append.1 hruns
      have htype := (ihfirst (Nat.le_add_left _ b) hfirst).type_of_kind? hcomma (by decide)
      exact .argument htype (is_eq_true.2 hcomma) (ih hn hrest hclose)
  | unnamedElement _ ih =>
      intro hj
      obtain ⟨b, rfl⟩ := Nat.exists_eq_add_of_le' hb
      refine ⟨j, ih (Nat.le_add_left _ _) hruns (isAny_eq_false_of_isAny hj (by decide)), ?_⟩
      rw [is_eq_false_of_isAny hj (by decide)]
      rfl
  | namedElement _ ih =>
      intro hj
      obtain ⟨b, rfl⟩ := Nat.exists_eq_add_of_le' hb
      obtain ⟨mid, htype, hname, rfl⟩ := runs_append.1 hruns
      refine ⟨mid, (ih (Nat.le_add_left _ _) htype).type_of_kind? hname (by decide), ?_⟩
      rw [is_eq_true.2 hname]
      rfl
  | lastElements _ _ ihfirst ih =>
      intro hclose before
      obtain ⟨hm, hn⟩ := Nat.max_le.1 hb
      obtain ⟨mid, hfirst, hcomma, hrest⟩ := runs_append.1 hruns
      exact (ihfirst hm hfirst).element hcomma ((ih hn hrest).lastElement hclose before)
  | moreElements _ _ ihfirst ih =>
      intro hclose before
      obtain ⟨hm, hn⟩ := Nat.max_le.1 hb
      obtain ⟨mid, hfirst, hcomma, hrest⟩ := runs_append.1 hruns
      exact (ihfirst hm hfirst).element hcomma (ih hn hrest hclose (before + 1))

/-! ## Recognition

What was shown of the look is said of the parser that passes over types. -/

/-- The parser goes where the look says. -/
theorem skipType_eq (input : Input) (s : State) :
    skipType input s = match input.words.typeEnd? (input.limit.types s.pos) s.pos with
      | some past => (true, { s with pos := past })
      | none => (false, s) := by
  unfold skipType
  simp only [bind, Parser.lookWithin]
  cases input.words.typeEnd? (input.limit.types s.pos) s.pos <;> rfl

/-- **A type is recognised exactly.** What is passed over is a type, and a type within the limit is
passed over, all of it and nothing behind it, unless the word behind it could go on with it. If no
type is recognised, nothing is passed over; and whatever is recognised, the constructs that are open
and the faults stay as they are. -/
theorem skipType_recognises_types (input : Input) (s : State) :
    (∀ s', skipType input s = (true, s') →
      ∃ n ks rest, Forms .type n ks ∧ n ≤ input.limit.types s.pos ∧
      input.words.kindsFrom s.pos = ks ++ rest ∧
        s' = { s with pos := s.pos + ks.length }) ∧
    (∀ n ks rest, Forms .type n ks → n ≤ input.limit.types s.pos →
      input.words.kindsFrom s.pos = ks ++ rest →
      (∀ k ∈ rest.head?, k ∉ typeGoesOn) →
      skipType input s = (true, { s with pos := s.pos + ks.length })) ∧
    (∀ s', skipType input s = (false, s') → s' = s) ∧
    (skipType input s).2.guard = s.guard ∧ (skipType input s).2.faults = s.faults := by
  rw [skipType_eq]
  refine ⟨?_, ?_, ?_, ?_⟩
  · intro s' h
    split at h
    · rename_i past hpast
      obtain ⟨n, ks, hn, hforms, hruns⟩ := (typeEnd?_eq_some.1 hpast).made
      obtain rfl := hruns.eq_add
      cases h
      exact ⟨n, ks, _, hforms, Nat.le_of_lt_succ hn, kindsFrom_eq_append.2 ⟨hruns, rfl⟩, rfl⟩
    · cases h
  · intro n ks rest hforms hn hkinds hrest
    obtain ⟨hruns, rfl⟩ := kindsFrom_eq_append.1 hkinds
    -- the look is greedy, so what follows has to be checked
    have hnext : input.words.isAny (s.pos + ks.length) typeGoesOn = false := by
      rw [isAny_eq_false]
      intro k hk
      exact hrest k (head?_kindsFrom.trans hk)
    rw [typeEnd?_eq_some.2 (hforms.found hn hruns hnext)]
  · intro s' h
    split at h <;> cases h
    rfl
  · split <;> exact ⟨rfl, rfl⟩

/-- The type in `global::Map<int[,], (A, B b)>.Entry? x`, where the limit just allows for its
arguments. -/
theorem skipType_recognises_types_entry :
    let type : List Kind :=
  [.ident, .colonColon, .ident, .lt, .predefinedType, .lbracket, .comma, .rbracket, .comma,
      .lparen, .ident, .comma, .ident, .ident, .rparen, .gt, .dot, .ident, .question]
    let input : Input := ⟨((type ++ [Kind.ident]).map fun k => (⟨k, "", false⟩ : Word)).toArray, 2⟩
    Forms .type 2 type ∧ skipType input .initial = (true, { State.initial with pos := 19 }) := by
  intro type input
  have hname : Forms .type 0 [.ident] := .named (.lastSegment .plain) .none
  have htuple : Forms .type 1 [.lparen, .ident, .comma, .ident, .ident, .rparen] :=
    .tuple (.lastElements (.unnamedElement hname) (.namedElement hname)) .none
  have harguments : Forms .arguments 2 [.predefinedType, .lbracket, .comma, .rbracket, .comma,
      .lparen, .ident, .comma, .ident, .ident, .rparen] :=
    .argument (.builtin (by decide) (.array 1 .none)) (.lastArgument htuple)
  have htype : Forms .type 2 type :=
    .aliased (.dotted (.applied harguments) (.lastSegment .plain)) (.nullable .none)
  exact ⟨htype, (skipType_recognises_types input .initial).2.1 2 type [.ident] htype (Nat.le_refl 2)
    rfl (by decide)⟩

end SharpTokens.Grammar
