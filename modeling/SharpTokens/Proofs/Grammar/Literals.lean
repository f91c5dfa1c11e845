import SharpTokens.Grammar.Unit

/-!
# Texts of literals

The grammar tells words apart by their kinds, by what touches what, and by the texts of identifiers,
keywords and marks. What a number, a string or a character says is never looked at: no function that
looks ahead changes when these texts are taken away (`Words.bare`), and parsers made of such
functions are blind to them (`Blind`).

A word without its text stands for all words with any text, so it is enough to show that removing
texts of literals changes nothing. For functions on words this is an equation each, which `simp`
uses for the next; for parsers it is a predicate that is closed under putting parsers together.
-/

namespace SharpTokens

/-- Numbers, strings and characters. -/
def Kind.isLiteral : Kind → Bool
  | .number | .string | .char => true
  | _ => false

namespace Grammar

/-- A word without its text, if it is a literal. -/
def Word.bare (w : Word) : Word := if w.kind.isLiteral then { w with text := "" } else w

@[simp] theorem Word.kind_bare (w : Word) : w.bare.kind = w.kind := by
  unfold bare
  split <;> rfl

@[simp] theorem Word.touches_bare (w : Word) : w.bare.touches = w.touches := by
  unfold bare
  split <;> rfl

theorem Word.text_bare {w : Word} (h : w.kind.isLiteral = false) : w.bare.text = w.text := by
  rw [bare, h]
  rfl

namespace Words

def bare (ws : Words) : Words := ws.map Word.bare

variable (ws : Words)

@[simp] theorem size_bare : Array.size ws.bare = ws.size := Array.size_map ..

theorem getElem?_bare (i : Nat) : ws.bare[i]? = (ws[i]?).map Word.bare := Array.getElem?_map ..

@[simp] theorem kind?_bare (i : Nat) : ws.bare.kind? i = ws.kind? i := by
  rw [kind?, kind?, getElem?_bare, Option.map_map]
  congr 1
  funext w
  exact w.kind_bare

@[simp] theorem is_bare (i : Nat) (k : Kind) :
    ws.bare.is i k = ws.is i k := by rw [is, is, kind?_bare]

@[simp] theorem isAny_bare (i : Nat) (ks : List Kind) : ws.bare.isAny i ks = ws.isAny i ks := by
  rw [isAny, isAny, kind?_bare]

@[simp] theorem touchesNext_bare (i : Nat) : ws.bare.touchesNext i = ws.touchesNext i := by
  rw [touchesNext, touchesNext, getElem?_bare]
  cases ws[i]? with
  | none => rfl
  | some w => exact w.touches_bare

variable {ws} in
/-- A word that is no literal keeps its text. -/
theorem text_bare {i : Nat} {k : Kind} (h : ws.kind? i = some k) (hk : k.isLiteral = false) :
    ws.bare.text i = ws.text i := by
  obtain ⟨w, hw, rfl⟩ := Option.map_eq_some_iff.1 h
  rw [text, text, getElem?_bare, hw]
  exact Word.text_bare hk

@[simp] theorem isContextual_bare (i : Nat) (t : String) :
    ws.bare.isContextual i t = ws.isContextual i t := by
  rw [isContextual, isContextual, is_bare]
  cases h : ws.is i .ident with
  | false => rfl
  | true => rw [text_bare (beq_iff_eq.1 h) rfl]

/-! ### Groups and types

By induction on the bound, or by unfolding. -/

@[simp] theorem closing?_bare (n depth i : Nat) :
    ws.bare.closing? n depth i = ws.closing? n depth i := by
  induction n generalizing depth i with
  | zero => rfl
  | succ n ih => simp only [closing?, kind?_bare, ih]

@[simp] theorem groupEnd?_bare (i : Nat) : ws.bare.groupEnd? i = ws.groupEnd? i := by
  rw [groupEnd?, groupEnd?, closing?_bare, size_bare]

@[simp] theorem pastClosing_bare (n depth i : Nat) :
    ws.bare.pastClosing n depth i = ws.pastClosing n depth i := by
  induction n generalizing depth i with
  | zero => rfl
  | succ n ih => simp only [pastClosing, kind?_bare, ih]

@[simp] theorem pastGroup_bare (i : Nat) : ws.bare.pastGroup i = ws.pastGroup i := by
  rw [pastGroup, pastGroup, pastClosing_bare, size_bare]

@[simp] theorem pastCommas_bare (n i : Nat) : ws.bare.pastCommas n i = ws.pastCommas n i := by
  induction n generalizing i with
  | zero => rfl
  | succ n ih => simp only [pastCommas, is_bare, ih]

@[simp] theorem typeSuffixes?_bare (n i : Nat) :
    ws.bare.typeSuffixes? n i = ws.typeSuffixes? n i := by
  induction n generalizing i with
  | zero => rfl
  | succ n ih => simp only [typeSuffixes?, is_bare, isAny_bare, pastCommas_bare, size_bare, ih]

@[simp] theorem typePart?_bare (n : Nat) (part : TypePart) (budget i : Nat) :
    ws.bare.typePart? n part budget i = ws.typePart? n part budget i := by
  have hsuffixes : ws.bare.typeSuffixes? (ws.size + 1) = ws.typeSuffixes? (ws.size + 1) :=
    funext (ws.typeSuffixes?_bare _)
  induction n generalizing part budget i with
  | zero => rfl
  | succ n ih => cases part <;> simp only [typePart?, kind?_bare, is_bare, size_bare, hsuffixes, ih]

@[simp] theorem typeEnd?_bare (limit i : Nat) : ws.bare.typeEnd? limit i = ws.typeEnd? limit i := by
  simp only [typeEnd?, typeFuel, size_bare, typePart?_bare]

@[simp] theorem typeArgumentsEnd?_bare (limit i : Nat) :
    ws.bare.typeArgumentsEnd? limit i = ws.typeArgumentsEnd? limit i := by
  simp only [typeArgumentsEnd?, typeFuel, size_bare, typePart?_bare]

variable {ws} in
/-- What a type starts with is no literal, so its text stays. -/
theorem text_bare_of_typeEnd? {limit i j : Nat} (h : ws.typeEnd? limit i = some j) :
    ws.bare.text i = ws.text i := by
  rw [typeEnd?, typeFuel, typePart?] at h
  obtain ⟨mid, hmid, -⟩ := Option.bind_eq_some_iff.1 h
  split at hmid
  all_goals first | exact text_bare ‹_› rfl | cases hmid

/-! ### Looking ahead

The functions that look ahead are defined one by the other, in this order. -/

@[simp] theorem startsUsing_bare (i : Nat) : ws.bare.startsUsing i = ws.startsUsing i := by
  simp only [startsUsing, kind?_bare, isContextual_bare, is_bare]
  split
  · rfl
  · rfl
  · rw [text_bare ‹_› rfl]
  · rfl

@[simp] theorem usingIsStatement_bare (limit i : Nat) :
    ws.bare.usingIsStatement limit i = ws.usingIsStatement limit i := by
  simp only [usingIsStatement, is_bare, typeEnd?_bare]

@[simp] theorem pastAttributes?_bare (n i : Nat) :
    ws.bare.pastAttributes? n i = ws.pastAttributes? n i := by
  induction n generalizing i with
  | zero => rfl
  | succ n ih => simp only [pastAttributes?, is_bare, groupEnd?_bare, funext ih]

@[simp] theorem startsRecord_bare (i : Nat) : ws.bare.startsRecord i = ws.startsRecord i := by
  simp only [startsRecord, isContextual_bare, isAny_bare]

@[simp] theorem leadsToMember_bare (n i : Nat) :
    ws.bare.leadsToMember n i = ws.leadsToMember n i := by
  induction n generalizing i with
  | zero => rfl
  | succ n ih =>
      simp only [leadsToMember, kind?_bare, isAny_bare, ih]
      split
      all_goals first | rfl | rw [text_bare ‹_› rfl]

@[simp] theorem startsMember_bare (i : Nat) : ws.bare.startsMember i = ws.startsMember i := by
  simp only [startsMember, pastAttributes?_bare, leadsToMember_bare, size_bare]

@[simp] theorem isContextualModifier_bare (i : Nat) :
    ws.bare.isContextualModifier i = ws.isContextualModifier i := by
  rw [isContextualModifier, isContextualModifier, is_bare, kind?_bare]
  cases h : ws.is i .ident with
  | false => rfl
  | true => rw [text_bare (beq_iff_eq.1 h) rfl]

@[simp] theorem isScoped_bare (i : Nat) : ws.bare.isScoped i = ws.isScoped i := by
  simp only [isScoped, isContextual_bare, isAny_bare]

@[simp] theorem endsDeclarator_bare (i : Nat) : ws.bare.endsDeclarator i = ws.endsDeclarator i := by
  simp only [endsDeclarator, isAny_bare]

@[simp] theorem typeBeforeName?_bare (limit i : Nat) :
    ws.bare.typeBeforeName? limit i = ws.typeBeforeName? limit i := by
  rw [typeBeforeName?, typeBeforeName?, typeEnd?_bare]
  cases h : ws.typeEnd? limit i with
  | none => rfl
  | some j => simp only [is_bare, text_bare_of_typeEnd? h]

@[simp] theorem typeBeforeVariable?_bare (limit i : Nat) :
    ws.bare.typeBeforeVariable? limit i = ws.typeBeforeVariable? limit i := by
  simp only [typeBeforeVariable?, typeBeforeName?_bare, endsDeclarator_bare]

@[simp] theorem closesBeforeArrow_bare (n depth i : Nat) :
    ws.bare.closesBeforeArrow n depth i = ws.closesBeforeArrow n depth i := by
  induction n generalizing depth i with
  | zero => rfl
  | succ n ih => simp only [closesBeforeArrow, kind?_bare, is_bare, ih]

@[simp] theorem startsParameters_bare (i : Nat) :
    ws.bare.startsParameters i = ws.startsParameters i := by
  simp only [startsParameters, closesBeforeArrow_bare, size_bare]

@[simp] theorem leadsToLambda_bare (n i : Nat) :
    ws.bare.leadsToLambda n i = ws.leadsToLambda n i := by
  induction n generalizing i with
  | zero => rfl
  | succ n ih =>
      simp only [leadsToLambda, kind?_bare, is_bare, startsParameters_bare, ih]
      split
      all_goals first | rfl | rw [text_bare ‹_› rfl]

@[simp] theorem isLambdaModifier_bare (i : Nat) :
    ws.bare.isLambdaModifier i = ws.isLambdaModifier i := by
  simp only [isLambdaModifier, is_bare, isContextual_bare, leadsToLambda_bare, size_bare]

@[simp] theorem followsOperand_bare (i : Nat) : ws.bare.followsOperand i = ws.followsOperand i := by
  cases i with
  | zero => rfl
  | succ i =>
      simp only [followsOperand, kind?_bare]
      split
      all_goals first | rfl | rw [text_bare ‹_› rfl]

@[simp] theorem startsVariable_bare (limit i : Nat) :
    ws.bare.startsVariable limit i = ws.startsVariable limit i := by
  rw [startsVariable, startsVariable, typeEnd?_bare]
  cases h : ws.typeEnd? limit i with
  | none => rfl
  | some j =>
      simp only [Option.any_some, is_bare, endsDeclarator_bare, text_bare_of_typeEnd? h]
      cases hj : ws.is j .ident with
      | false => rfl
      | true => rw [text_bare (beq_iff_eq.1 hj) rfl]

@[simp] theorem missesSemicolon_bare (limit start i : Nat) :
    ws.bare.missesSemicolon limit start i = ws.missesSemicolon limit start i := by
  simp only [missesSemicolon, kind?_bare, isLambdaModifier_bare, followsOperand_bare,
    startsVariable_bare]

@[simp] theorem followsTypeArguments_bare (i : Nat) :
    ws.bare.followsTypeArguments i = ws.followsTypeArguments i := by
  simp only [followsTypeArguments, kind?_bare, is_bare, touchesNext_bare]
  split
  all_goals first | rfl | rw [text_bare ‹_› rfl]

@[simp] theorem typeArgumentsInExpression?_bare (limit i : Nat) :
    ws.bare.typeArgumentsInExpression? limit i = ws.typeArgumentsInExpression? limit i := by
  rw [typeArgumentsInExpression?, typeArgumentsInExpression?, typeArgumentsEnd?_bare]
  congr 1
  exact funext ws.followsTypeArguments_bare

end Words


/-! ## Parsers

A result is the same with and without the texts of literals. -/

/-- A parser that reads the same whatever the literals say. -/
def Blind {α : Type} (p : Parser α) : Prop :=
  ∀ (ws : Words) (limit : Nat) (s : State), p ⟨ws.bare, limit⟩ s = p ⟨ws, limit⟩ s

namespace Blind

variable {α β σ : Type} {p q : Parser α}

theorem pure (a : α) : Blind (Pure.pure a : Parser α) := fun _ _ _ => rfl

/-- One blind parser after another. -/
theorem bind {f : α → Parser β} (hp : Blind p) (hf : ∀ a, Blind (f a)) : Blind (p >>= f) := by
  intro ws limit s
  show f (p ⟨ws.bare, limit⟩ s).1 ⟨ws.bare, limit⟩ (p ⟨ws.bare, limit⟩ s).2 = f (p ⟨ws, limit⟩ s).1
      ⟨ws, limit⟩ _
  rw [hp ws limit s]
  exact hf _ ws limit _

/-- What follows does not depend on the words either. -/
theorem ret {f : α → β} (hp : Blind p) : Blind (p >>= fun a => Pure.pure (f a)) :=
  hp.bind fun _ => .pure _

theorem ite {c : Prop} [Decidable c] (hp : Blind p) (hq : Blind q) :
    Blind (if c then p else q) := by
  split
  · exact hp
  · exact hq

/-- Both branches go on in the same way. -/
theorem join {c : Prop} [Decidable c] {f : α → Parser β} (hp : Blind p) (hq : Blind q)
    (hf : ∀ a, Blind (f a)) :
    Blind (if c then p >>= f else q >>= f) :=
  .ite (hp.bind hf) (hq.bind hf)

/-- Something is read first under a condition. -/
theorem first {c : Prop} [Decidable c] {p : Parser Unit} {f : Unit → Parser β} (hp : Blind p)
    (hf : ∀ u, Blind (f u)) : Blind (if c then p >>= f else f ()) :=
  .ite (hp.bind hf) (hf ())

theorem look {f : Words → Nat → α} (hf : ∀ ws i, f (Words.bare ws) i = f ws i) :
    Blind (Parser.look f) := by
  intro ws limit s
  rw [Parser.look, Parser.look, hf]

theorem lookWithin {f : Words → Nat → Nat → α}
    (hf : ∀ ws limit i, f (Words.bare ws) limit i = f ws limit i) :
    Blind (Parser.lookWithin f) := by
  intro ws limit s
  rw [Parser.lookWithin, Parser.lookWithin, hf]

theorem here : Blind Parser.here := fun _ _ _ => rfl

theorem moveTo (i : Nat) : Blind (Parser.moveTo i) := fun _ _ _ => rfl

theorem bump : Blind Parser.bump := fun _ _ _ => rfl

theorem fault (cause : SyntaxError) : Blind (Parser.fault cause) := fun _ _ _ => rfl

theorem nested (hp : Blind p) : Blind (Parser.nested p) := by
  intro ws limit s
  unfold Parser.nested
  cases s.guard.enter limit with
  | error e => rfl
  | ok guard => simp only [hp ws limit]

/-- A repetition of blind steps is blind. -/
theorem loop {step : σ → Parser (Parser.Step σ)} (hstep : ∀ found, Blind (step found)) (found : σ) :
    Blind (Parser.loop step found) := by
  have hrepeat : ∀ n found, Blind (Parser.repeatUpTo step n found) := by
    intro n
    induction n with
    | zero => exact fun found => .pure found
    | succ n ih =>
        refine fun found => (hstep found).bind fun r => ?_
        cases r with
        | more found => exact ih found
        | done found => exact .pure found
  intro ws limit s
  show Parser.repeatUpTo step (Array.size ws.bare - s.pos + 1) found _ s = _
  rw [Words.size_bare]
  exact hrepeat _ found ws limit s

end Blind

namespace Parser

theorem peek_blind : Blind peek := .look Words.kind?_bare

theorem isAt_blind (k : Kind) : Blind (isAt k) := .look fun ws i => ws.is_bare i k

theorem isAtContextual_blind (text : String) : Blind (isAtContextual text) :=
  .look fun ws i => ws.isContextual_bare i text

theorem eat_blind (k : Kind) : Blind (eat k) :=
  (isAt_blind k).bind fun _ => .ite Blind.bump.ret (.pure _)

theorem skipGroup_blind : Blind skipGroup :=
  Blind.bind (.look Words.pastGroup_bare) fun _ => .moveTo _

theorem expected_blind (what : Expectation) : Blind (expected what) := by
  refine peek_blind.bind fun k => ?_
  cases k <;> exact .fault _

theorem expect_blind (k : Kind) : Blind (expect k) :=
  (eat_blind k).bind fun _ => .ite (.pure _) (expected_blind _).ret

theorem unexpected_blind : Blind unexpected := by
  refine peek_blind.bind fun k => ?_
  cases k with
  | none => exact .pure _
  | some k => exact (Blind.fault _).bind fun _ => .bump

/-- What a condition on words says does not depend on literals. -/
def BlindTo (holds : Words → Nat → Kind → Bool) : Prop :=
  ∀ ws i k, holds (Words.bare ws) i k = holds ws i k

theorem filter_bare {holds : Words → Nat → Kind → Bool} (h : BlindTo holds) (ws : Words) (i : Nat) :
    ((Words.bare ws).kind? i).filter (holds (Words.bare ws) i) = (ws.kind? i).filter
      (holds ws i) := by
  rw [Words.kind?_bare, funext (h ws i)]

theorem skipWhile_blind {holds : Words → Nat → Kind → Bool} (h : BlindTo holds) :
    Blind (skipWhile holds) := by
  refine .loop (fun _ => Blind.bind (.look (filter_bare h)) fun r => ?_) _
  cases r with
  | none => exact .pure _
  | some _ => exact Blind.bump.ret

theorem skipGroupsWhile_blind {holds : Words → Nat → Kind → Bool} (h : BlindTo holds) :
    Blind (skipGroupsWhile holds) := by
  refine .loop (fun _ => Blind.bind (.look (filter_bare h)) fun r => ?_) _
  cases r with
  | none => exact .pure _
  | some _ => exact skipGroup_blind.ret

theorem node_blind (kind : NodeKind) (first : Nat) (name : Option Name) (modifiers : Modifiers)
    (children : List Node) : Blind (node kind first name modifiers children) := Blind.here.ret

theorem plain_blind (kind : NodeKind) (first : Nat) (children : List Node) :
    Blind (plain kind first children) :=
  node_blind kind first none .none children

theorem missingName_blind : Blind missingName := Blind.here.ret

/-- A name is an identifier, so it is none of the literals. -/
theorem name_blind : Blind name := by
  intro ws limit s
  have hname : ∀ words : Words, name ⟨words, limit⟩ s = if words.is s.pos .ident
      then (.present s.pos (words.text s.pos), { s with pos := s.pos + 1 })
      else (expected (.kind .ident) >>= fun _ => missingName) ⟨words, limit⟩ s := by
    intro words
    show (if words.is s.pos .ident then _ else _ : Parser Name) ⟨words, limit⟩ s = _
    split <;> rfl
  rw [hname, hname, Words.is_bare]
  split
  · rename_i h
    rw [Words.text_bare (beq_iff_eq.1 h) rfl]
  · exact ((expected_blind _).bind fun _ => missingName_blind) ws limit s

theorem tooDeep_blind : Blind tooDeep := by
  refine Blind.here.bind fun first => Blind.bind (fun _ _ _ => rfl) fun limit =>
    (Blind.fault _).bind fun _ => ?_
  exact skipGroup_blind.bind fun _ => plain_blind _ _ _

theorem deeper_blind {p : Parser (List Node)} (hp : Blind p) : Blind (deeper p) := by
  refine hp.nested.bind fun r => ?_
  cases r with
  | some nodes => exact .pure _
  | none => exact tooDeep_blind.ret

theorem deeperNode_blind {p : Parser Node} (hp : Blind p) : Blind (deeperNode p) := by
  refine hp.nested.bind fun r => ?_
  cases r with
  | some node => exact .pure _
  | none => exact tooDeep_blind

theorem braced_blind {item : Kind → Parser (List Node)} (h : ∀ k, Blind (item k)) :
    Blind (braced item) := by
  refine Blind.bump.bind fun _ => Blind.ret (.loop (fun found => peek_blind.bind fun k => ?_) _)
  split
  · exact (expected_blind _).ret
  · exact Blind.bump.ret
  · exact (h _).ret

theorem orUnexpected_blind {p : Parser Node} (hp : Blind p) : Blind (orUnexpected p) :=
  Blind.here.bind fun _ => hp.bind fun _ => Blind.here.bind fun _ =>
    .ite unexpected_blind.ret (.pure _)

end Parser

end Grammar

end SharpTokens
