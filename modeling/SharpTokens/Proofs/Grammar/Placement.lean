import SharpTokens.Grammar.Nonterminal
import SharpTokens.Proofs.Grammar.Lookahead
import SharpTokens.Proofs.Grammar.Reading

/-!
# How trees lie over words

`Placed ws lo hi ts` says that trees lie one after another over the words from `lo` to before `hi`:
each covers the words that its label says, its own name stands among them, and what is below it lies
there too. Only attributes stand before the name of their node, and they hold no names. So the names
of placed trees, a node's before those below it, are in the order of their words
(`Placed.ascending`).

The relation is closed under what parsers do with trees: putting them one after another, and putting
a node over them that covers their words. Attributes are kept apart, as they are the only trees that
may stand before the name of a node.
-/

namespace SharpTokens.Grammar

/-! ## Names

The words that are names, in the order in which a walk comes upon them. -/

def Name.word? : Name → Option Nat
  | .present word _ => some word
  | .missing _ => none

mutual

/-- The words that are names in a tree, a node's before those below it. -/
def nameWords : Node → List Nat
  | .node l ts => (l.name.bind Name.word?).toList ++ nameWordsAll ts

def nameWordsAll : List Node → List Nat
  | [] => []
  | t :: ts => nameWords t ++ nameWordsAll ts

end

@[simp] theorem nameWordsAll_nil : nameWordsAll [] = [] := rfl

theorem nameWordsAll_cons (t : Node) (ts : List Node) :
    nameWordsAll (t :: ts) = nameWords t ++ nameWordsAll ts := rfl

@[simp] theorem nameWordsAll_append (ts us : List Node) :
    nameWordsAll (ts ++ us) = nameWordsAll ts ++ nameWordsAll us := by
  induction ts with
  | nil => rfl
  | cons t ts ih => simp only [List.cons_append, nameWordsAll_cons, ih, List.append_assoc]

/-- Words from `lo` to before `hi` that are identifiers, one after another. -/
structure Ascending (ws : Words) (lo hi : Nat) (vs : List Nat) : Prop where
  order : vs.Pairwise (· < ·)
  inside : ∀ w ∈ vs, lo ≤ w ∧ w < hi ∧ ws.is w .ident = true

namespace Ascending

variable {ws : Words} {lo mid hi : Nat} {us vs : List Nat}

theorem nil : Ascending ws lo hi [] := ⟨.nil, by simp⟩

/-- More room on either side does no harm. -/
theorem mono {lo' hi' : Nat} (h : Ascending ws lo hi vs) (hlo : lo' ≤ lo) (hhi : hi ≤ hi') :
    Ascending ws lo' hi' vs := by
  refine ⟨h.order, fun w hw => ?_⟩
  obtain ⟨h₁, h₂, h₃⟩ := h.inside w hw
  exact ⟨by omega, by omega, h₃⟩

/-- Names of one part, and then of the next. -/
theorem append (h : Ascending ws lo mid us) (h' : Ascending ws mid hi vs) (hlo : lo ≤ mid)
    (hhi : mid ≤ hi) :
    Ascending ws lo hi (us ++ vs) := by
  refine ⟨List.pairwise_append.2 ⟨h.order, h'.order, fun v hv w hw => ?_⟩, ?_⟩
  · exact Nat.lt_of_lt_of_le (h.inside v hv).2.1 (h'.inside w hw).1
  · exact List.forall_mem_append.2 ⟨(h.mono (Nat.le_refl lo) hhi).inside,
      (h'.mono hlo (Nat.le_refl hi)).inside⟩

end Ascending

/-- A name stands from `lo` to before `hi`, if there is one. -/
inductive NameIn (ws : Words) (lo hi : Nat) : Option Name → Prop
  | none : lo ≤ hi → NameIn ws lo hi none
  | present {w} : lo ≤ w → w < hi → ws.is w .ident = true →
      NameIn ws lo hi (some (.present w (ws.text w)))
  | missing {w} : lo ≤ w → w ≤ hi → NameIn ws lo hi (some (.missing w))

namespace NameIn

variable {ws : Words} {lo hi : Nat} {name : Option Name}

theorem le (h : NameIn ws lo hi name) : lo ≤ hi := by
  cases h with
  | none h => exact h
  | present h₁ h₂ _ => exact Nat.le_of_lt (Nat.lt_of_le_of_lt h₁ h₂)
  | missing h₁ h₂ => exact Nat.le_trans h₁ h₂

theorem mono {lo' hi' : Nat} (h : NameIn ws lo hi name) (hlo : lo' ≤ lo) (hhi : hi ≤ hi') :
    NameIn ws lo' hi' name := by
  cases h with
  | none h => exact .none (by omega)
  | present h₁ h₂ h₃ => exact .present (by omega) (by omega) h₃
  | missing h₁ h₂ => exact .missing (by omega) (by omega)

theorem le_word {n : Name} (h : NameIn ws lo hi (some n)) : lo ≤ n.word := by
  cases h with
  | present h _ _ => exact h
  | missing h _ => exact h

/-- A name stands from its own word on. -/
theorem fromWord {n : Name} (h : NameIn ws lo hi (some n)) : NameIn ws n.word hi (some n) := by
  cases h with
  | present _ h₂ h₃ => exact .present (Nat.le_refl _) h₂ h₃
  | missing _ h₂ => exact .missing (Nat.le_refl _) h₂

/-- The words of a name are an identifier's, or there are none. -/
theorem ascending (h : NameIn ws lo hi name) :
    Ascending ws lo hi (name.bind Name.word?).toList := by
  cases h with
  | none _ => exact .nil
  | present h₁ h₂ h₃ =>
      exact ⟨List.pairwise_singleton _ _, List.forall_mem_singleton.2 ⟨h₁, h₂, h₃⟩⟩
  | missing _ _ => exact .nil

end NameIn

/-- The name of a namespace: parts, nested to the left. -/
inductive IsDottedName : Node → Prop
  | part {l} : l.kind = .identifierName → IsDottedName (.node l [])
  | dot {l left right} : l.kind = .qualifiedName → l.name = none → IsDottedName left →
      IsDottedName right →
      IsDottedName (.node l [left, right])

/-- Trees of which the first is a name. -/
def StartWithName (ts : List Node) : Prop := ∃ name rest, ts = name :: rest ∧ IsDottedName name

/-- What its kind asks of a node inside a text: it is not itself a whole text, and a namespace
starts with its name. -/
structure Suits (kind : NodeKind) (below : List Node) : Prop where
  inner : kind ≠ .compilationUnit
  named : kind.isNamespace = true → StartWithName below

/-- A kind that asks nothing of what is below the node. -/
def isFree (kind : NodeKind) : Bool := !kind.isNamespace && kind != .compilationUnit

/-- Most kinds ask for nothing. -/
theorem Suits.of_isFree {kind : NodeKind} (h : isFree kind = true) (below : List Node) :
    Suits kind below := by
  rw [isFree, Bool.and_eq_true, Bool.not_eq_true', bne_iff_ne] at h
  exact ⟨h.2, fun hspace => absurd (h.1.symm.trans hspace) Bool.false_ne_true⟩

/-! ## Trees

Trees lie side by side, and each over what is below it. -/

/-- Trees lie one after another over the words from `lo` to before `hi`. -/
inductive Placed (ws : Words) : (lo hi : Nat) → List Node → Prop
  | nil {lo hi} : lo ≤ hi → Placed ws lo hi []
  | cons {lo hi n m : Nat} {l : Label} {front back rest : List Node} :
      lo ≤ l.first → Placed ws l.first n front → nameWordsAll front = [] → NameIn ws n m l.name →
      Placed ws m l.past back → Suits l.kind (front ++ back) →
      Placed ws l.past hi rest → Placed ws lo hi (.node l (front ++ back) :: rest)

namespace Placed

variable {ws : Words} {lo mid hi : Nat} {ts us : List Node}

theorem le (h : Placed ws lo hi ts) : lo ≤ hi := by
  induction h with
  | nil h => exact h
  | cons hlo _ _ hname _ _ _ ihfront ihback ihrest =>
      have := hname.le
      omega

theorem mono {lo' hi' : Nat} (h : Placed ws lo hi ts) (hlo : lo' ≤ lo) (hhi : hi ≤ hi') :
    Placed ws lo' hi' ts := by
  induction h generalizing lo' hi' with
  | nil h => exact .nil (by omega)
  | cons hfirst hfront hunnamed hname hback hkind _ _ _ ihrest =>
      exact .cons (Nat.le_trans hlo hfirst) hfront hunnamed hname hback hkind
        (ihrest (Nat.le_refl _) hhi)

/-- Trees of one part, and then of the next. -/
theorem append (h : Placed ws lo mid ts) (h' : Placed ws mid hi us) :
    Placed ws lo hi (ts ++ us) := by
  induction h generalizing us hi with
  | nil h => exact h'.mono h (Nat.le_refl hi)
  | cons hfirst hfront hunnamed hname hback hkind _ _ _ ihrest =>
      exact .cons hfirst hfront hunnamed hname hback hkind (ihrest h')

/-- A node with a name, after attributes and before what else is below it. -/
theorem node {kind : NodeKind} {first n m : Nat} {name : Option Name} {modifiers : Modifiers}
    {front back : List Node} (hfront : Placed ws first n front) (hunnamed : nameWordsAll front = [])
    (hname : NameIn ws n m name) (hback : Placed ws m hi back) (hkind : isFree kind = true) :
    Placed ws first hi [.node ⟨kind, first, hi, name, modifiers⟩ (front ++ back)] :=
  .cons (Nat.le_refl first) hfront hunnamed hname hback (.of_isFree hkind _) (.nil (Nat.le_refl hi))

/-- A node with a name and without attributes. -/
theorem named {kind : NodeKind} {first m : Nat} {name : Option Name} {modifiers : Modifiers}
    (hname : NameIn ws first m name) (hts : Placed ws m hi ts) (hkind : isFree kind = true) :
    Placed ws first hi [.node ⟨kind, first, hi, name, modifiers⟩ ts] :=
  node (.nil (Nat.le_refl first)) rfl hname hts hkind

/-- A node without a name, over the words of what is below it. -/
theorem plain {kind : NodeKind} {first : Nat} {modifiers : Modifiers} (hts : Placed ws first hi ts)
    (hkind : isFree kind = true) :
    Placed ws first hi [.node ⟨kind, first, hi, none, modifiers⟩ ts] :=
  named (.none (Nat.le_refl first)) hts hkind

/-- What a first tree says of itself: its name stands among its words, what is below it lies over
them, and it is as its kind asks. -/
theorem first {l : Label} {below : List Node} (h : Placed ws lo hi (.node l below :: ts)) :
    NameIn ws l.first l.past l.name ∧ Placed ws l.first l.past below ∧ Suits l.kind below := by
  cases h with
  | @cons _ _ n m _ front back _ _ hfront _ hname hback hkind _ =>
      exact ⟨hname.mono hfront.le hback.le,
        (hfront.mono (Nat.le_refl _) hname.le).append hback, hkind⟩

/-- The first tree lies before the others. -/
theorem split {t : Node} (h : Placed ws lo hi (t :: ts)) :
    ∃ mid, Placed ws lo mid [t] ∧ Placed ws mid hi ts := by
  cases h with
  | @cons _ _ n m l _ _ _ hfirst hfront hunnamed hname hback hkind hrest =>
      exact ⟨l.past, .cons hfirst hfront hunnamed hname hback hkind (.nil (Nat.le_refl _)), hrest⟩

/-- Each of several trees lies where all of them do. -/
theorem of_mem {t : Node} (h : Placed ws lo hi ts) (ht : t ∈ ts) : Placed ws lo hi [t] := by
  induction h with
  | nil _ => cases ht
  | @cons lo hi n m l front back rest hfirst hfront hunnamed hname hback hkind hrest _ _ ihrest =>
      rcases List.mem_cons.1 ht with rfl | ht
      · exact .cons hfirst hfront hunnamed hname hback hkind (.nil hrest.le)
      · have hpast : l.first ≤ l.past := Nat.le_trans hfront.le (Nat.le_trans hname.le hback.le)
        exact (ihrest ht).mono (Nat.le_trans hfirst hpast) (Nat.le_refl _)

theorem le_first {l : Label} {below : List Node} (h : Placed ws lo hi (.node l below :: ts)) :
    lo ≤ l.first := by
  cases h with
  | cons hfirst _ _ _ _ _ _ => exact hfirst

theorem past_le {l : Label} {below : List Node} (h : Placed ws lo hi (.node l below :: ts)) :
    l.past ≤ hi := by
  cases h with
  | cons _ _ _ _ _ _ hrest => exact hrest.le

/-- Each of several trees ends before the next ones start. -/
theorem apart (h : Placed ws lo hi ts) : ts.Pairwise fun t u => t.label.past ≤ u.label.first := by
  induction h with
  | nil _ => exact .nil
  | @cons lo hi n m l front back rest _ _ _ _ _ _ hrest _ _ ihrest =>
      refine .cons (fun u hu => ?_) ihrest
      obtain ⟨label, below⟩ := u
      exact (hrest.of_mem hu).le_first

/-- **Names are in the order of their words.** -/
theorem ascending (h : Placed ws lo hi ts) : Ascending ws lo hi (nameWordsAll ts) := by
  induction h with
  | nil _ => exact .nil
  | @cons lo hi n m l front back rest hfirst hfront hunnamed hname hback _ hrest _ ihback ihrest =>
      have hn := hfront.le
      -- there is nothing before the name, so it is the first of the node's words
      simp only [nameWordsAll_cons, nameWords, nameWordsAll_append, hunnamed, List.nil_append]
      have hnode := hname.ascending.append ihback hname.le hback.le
      refine (hnode.mono ?_ (Nat.le_refl _)).append ihrest ?_ hrest.le
      · exact Nat.le_trans hfirst hn
      · exact Nat.le_trans (Nat.le_trans hfirst hn) (Nat.le_trans hname.le hback.le)

end Placed

/-! ## Parsers that place what they read

One predicate for parsers that give a node, several nodes, or perhaps one. The parsers below are not
of the grammar yet. -/

/-- The nodes that a parser reads lie over the words that it takes. -/
def PlacesAll (p : Parser (List Node)) (input : Input) : Prop :=
  ∀ lo, Reads p input lo fun ts hi => Placed input.words lo hi ts

def Places (p : Parser Node) (input : Input) : Prop :=
  ∀ lo, Reads p input lo fun t hi => Placed input.words lo hi [t]

def PlacesAny (p : Parser (Option Node)) (input : Input) : Prop :=
  ∀ lo, Reads p input lo fun t hi => Placed input.words lo hi t.toList

/-- A node as the only one of a list. -/
theorem Places.one {p : Parser Node} {input : Input} (h : Places p input) :
    PlacesAll (p >>= fun t => pure [t]) input :=
  fun lo => (h lo).bind fun _ _ ht => .pure ht

/-- A node that is there. -/
theorem Places.some {p : Parser Node} {input : Input} (h : Places p input) :
    PlacesAny (p >>= fun t => pure (some t)) input :=
  fun lo => (h lo).bind fun _ _ ht => .pure ht

namespace Parser

variable {input : Input} {lo : Nat}

theorem skipGroup_advances : Advances skipGroup input := by
  intro lo
  refine Reads.look ?_
  exact fun s _ => input.words.le_pastGroup lo

theorem skipWhile_advances (holds : Words → Nat → Kind → Bool) :
    Advances (skipWhile holds) input := by
  refine Advances.loop fun _ lo => Reads.look ?_
  split
  · exact .bump (.pure (Nat.le_succ lo))
  · exact .pure (Nat.le_refl lo)

theorem skipGroupsWhile_advances (holds : Words → Nat → Kind → Bool) :
    Advances (skipGroupsWhile holds) input := by
  refine Advances.loop fun _ lo => Reads.look ?_
  split
  · exact skipGroup_advances.andThen fun _ _ h => .pure h
  · exact .pure (Nat.le_refl lo)

theorem unexpected_advances : Advances unexpected input := by
  refine fun lo => Reads.peek ?_
  split
  · refine Reads.fault ?_
    rintro s rfl
    exact Nat.le_succ s.pos
  · exact .pure (Nat.le_refl lo)

theorem expected_advances (what : Expectation) : Advances (expected what) input := by
  refine fun lo => .peek ?_
  split
  · exact fun s hs => Nat.le_of_eq hs.symm
  · exact fun s hs => Nat.le_of_eq hs.symm

theorem eat_advances (k : Kind) : Advances (eat k) input := by
  refine fun lo => .isAt (.ite (fun _ => .bump (.pure (Nat.le_succ lo))) fun _ =>
    .pure (Nat.le_refl lo))

theorem expect_advances (k : Kind) : Advances (expect k) input := by
  refine fun lo => (eat_advances k).andThen fun found mid hmid =>
    .ite (fun _ => .pure hmid) fun _ => ?_
  exact .expected (.pure hmid)

theorem missingName_reads {lo : Nat} :
    Reads missingName input lo fun n hi => hi = lo ∧ n = .missing lo :=
  .here (.pure ⟨rfl, rfl⟩)

/-- A name is the word ahead, or it is missing there. -/
theorem name_reads {lo : Nat} :
    Reads name input lo fun n hi => NameIn input.words lo hi (some n) := by
  refine .here (.isAt (.ite (fun hident => ?_) fun _ => ?_))
  · exact .bump (.look (.pure (.present (Nat.le_refl lo) (Nat.lt_succ_self lo) hident)))
  · refine .expected (missingName_reads.mono ?_)
    rintro _ _ ⟨rfl, rfl⟩
    exact .missing (Nat.le_refl _) (Nat.le_refl _)

theorem tooDeep_places : Places tooDeep input := by
  intro lo
  refine .here (.limit (.fault ?_))
  refine skipGroup_advances.andThen fun _ mid hmid => ?_
  exact .node (Placed.plain (.nil hmid) rfl)

/-- What is passed over is a node over the words passed over. -/
theorem deeper_places {p : Parser (List Node)} (h : PlacesAll p input) :
    PlacesAll (deeper p) input := by
  intro lo
  refine (Reads.nested (h lo)).bind ?_
  intro r hi hr
  cases r with
  | some nodes => exact .pure hr
  | none =>
      cases hr
      exact (tooDeep_places lo).bind fun _ _ h => .pure h

theorem deeperNode_places {p : Parser Node} (h : Places p input) : Places (deeperNode p) input := by
  intro lo
  refine (Reads.nested (h lo)).bind ?_
  intro r hi hr
  cases r with
  | some node => exact .pure hr
  | none =>
      cases hr
      exact tooDeep_places lo

/-- Nodes that are collected one after another lie one after another. -/
theorem collect_places {step : Array Node → Parser (Step (Array Node))} {found : Array Node}
    (first : Nat) (hfound : Placed input.words first lo found.toList)
    (hstep : ∀ (found : Array Node) mid, Placed input.words first mid found.toList →
      Reads (step found) input mid fun r hi => Placed input.words first hi r.found.toList) :
    Reads (loop step found) input lo fun found hi => Placed input.words first hi found.toList :=
  Reads.loop (fun (found : Array Node) hi => Placed input.words first hi found.toList) hfound hstep

/-- Nodes are added to those found before. -/
theorem more_places {first mid hi : Nat} {found : Array Node} {ts : List Node}
    (hfound : Placed input.words first mid found.toList) (hts : Placed input.words mid hi ts) :
    Placed input.words first hi (Step.more (found ++ ts)).found.toList := by
  show Placed input.words first hi (found ++ ts).toList
  rw [Array.toList_appendList]
  exact hfound.append hts

/-- Items between braces lie between them. -/
theorem braced_places {item : Kind → Parser (List Node)} (h : ∀ k, PlacesAll (item k) input) :
    PlacesAll (braced item) input := by
  intro lo
  refine .bump ((collect_places lo (.nil (Nat.le_succ lo)) ?_).bind fun _ _ h => .pure h)
  intro found mid hfound
  refine .peek ?_
  split
  · exact .expected (.pure hfound)
  · exact .bump (.pure (hfound.mono (Nat.le_refl _) (Nat.le_succ mid)))
  · rename_i k _ _
    exact (h k mid).bind fun ts hi hts => .pure (more_places hfound hts)

theorem orUnexpected_places {p : Parser Node} (h : Places p input) :
    PlacesAll (orUnexpected p) input := by
  intro lo
  refine .here ((h lo).bind fun t mid ht => .here (.ite (fun heq => ?_) fun _ => ?_))
  · refine unexpected_advances.andThen fun _ hi hhi => .pure (.nil ?_)
    omega
  · exact .pure ht

end Parser

end SharpTokens.Grammar
