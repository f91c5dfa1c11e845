import SharpTokens.Grammar.Parser

/-!
# Rules for parsers

`Reads p input lo Q` says what a parser does from the word at `lo` on: it ends at some word with a
result, and `Q` holds of the two. There is one rule for each way in which parsers are put together,
so a fact about a parser follows its text from top to bottom. A repetition needs an invariant
(`Reads.loop`).

Such a statement says nothing about faults and about what is open, and it holds from every state at
the word. That is enough for where trees lie. What a parser notes is followed by other rules of the
same kind.
-/

namespace SharpTokens.Grammar

variable {α β σ : Type}

/-- What a step of a repetition found, whether or not there are more. -/
def Parser.Step.found : Parser.Step σ → σ
  | .more found => found
  | .done found => found

/-- From the word at `lo` on, a parser ends with a result and at a word of which `Q` holds. -/
def Reads (p : Parser α) (input : Input) (lo : Nat) (Q : α → Nat → Prop) : Prop :=
  ∀ s : State, s.pos = lo → Q (p input s).1 (p input s).2.pos

namespace Reads

variable {p q : Parser α} {f : α → Parser β} {input : Input} {lo : Nat}
variable {P : α → Nat → Prop} {Q : β → Nat → Prop} {R : α → Nat → Prop}

theorem mono (h : Reads p input lo P) (himp : ∀ a hi, P a hi → R a hi) : Reads p input lo R :=
  fun s hs => himp _ _ (h s hs)

theorem pure {a : α} (h : R a lo) : Reads (Pure.pure a) input lo R := by
  intro s hs
  show R a s.pos
  rw [hs]
  exact h

/-- What the first parser ends with is what the second one starts from. -/
theorem bind (h : Reads p input lo P) (hf : ∀ a mid, P a mid → Reads (f a) input mid Q) :
    Reads (p >>= f) input lo Q :=
  fun s hs => hf _ _ (h s hs) _ rfl

theorem ite {c : Prop} [Decidable c] (hp : c → Reads p input lo R) (hq : ¬ c → Reads q input lo R) :
    Reads (if c then p else q) input lo R := by
  split
  · exact hp ‹_›
  · exact hq ‹_›

/-! ### Words

What a parser is told about the words ahead is put into the parser that goes on. -/

theorem here {f : Nat → Parser β} (h : Reads (f lo) input lo Q) :
    Reads (Parser.here >>= f) input lo Q := by
  intro s hs
  show Q (f s.pos input s).1 (f s.pos input s).2.pos
  rw [hs]
  exact h s hs

theorem look {g : Words → Nat → α} (h : Reads (f (g input.words lo)) input lo Q) :
    Reads (Parser.look g >>= f) input lo Q := by
  intro s hs
  show Q (f (g input.words s.pos) input s).1 (f (g input.words s.pos) input s).2.pos
  rw [hs]
  exact h s hs

theorem lookWithin {g : Words → Nat → Nat → α}
    (h : Reads (f (g input.words (input.limit.types lo) lo)) input lo Q) :
    Reads (Parser.lookWithin g >>= f) input lo Q := by
  intro s hs
  show Q (f (g input.words (input.limit.types s.pos) s.pos) input s).1
      (f (g input.words (input.limit.types s.pos) s.pos) input s).2.pos
  rw [hs]
  exact h s hs

theorem limit {f : Nat → Parser β} (h : Reads (f input.limit.nesting) input lo Q) :
    Reads (Bind.bind (m := Parser) (fun input s => (input.limit.nesting, s)) f) input lo Q :=
  fun s hs => h s hs

theorem peek {f : Option Kind → Parser β} (h : Reads (f (input.words.kind? lo)) input lo Q) :
    Reads (Parser.peek >>= f) input lo Q :=
  look h

theorem isAt {f : Bool → Parser β} {k : Kind} (h : Reads (f (input.words.is lo k)) input lo Q) :
    Reads (Parser.isAt k >>= f) input lo Q :=
  look h

theorem isAtContextual {f : Bool → Parser β} {text : String}
    (h : Reads (f (input.words.isContextual lo text)) input lo Q) :
    Reads (Parser.isAtContextual text >>= f) input lo Q :=
  look h

theorem moveTo {f : Unit → Parser β} {i : Nat} (h : Reads (f ()) input i Q) :
    Reads (Parser.moveTo i >>= f) input lo Q :=
  fun s _ => h { s with pos := i } rfl

theorem bump {f : Unit → Parser β} (h : Reads (f ()) input (lo + 1) Q) :
    Reads (Parser.bump >>= f) input lo Q :=
  fun s hs => h { s with pos := s.pos + 1 } (congrArg (· + 1) hs)

/-- Either the word is taken, or another one is ahead. -/
theorem eat {f : Bool → Parser β} {k : Kind}
    (hyes : input.words.is lo k = true → Reads (f true) input (lo + 1) Q)
    (hno : input.words.is lo k = false → Reads (f false) input lo Q) :
    Reads (Parser.eat k >>= f) input lo Q := by
  cases hk : input.words.is lo k with
  | true =>
      refine bind (P := fun b hi => b = true ∧ hi = lo + 1) (isAt ?_) ?_
      · rw [hk]
        exact bump (pure ⟨rfl, rfl⟩)
      · rintro _ _ ⟨rfl, rfl⟩
        exact hyes hk
  | false =>
      refine bind (P := fun b hi => b = false ∧ hi = lo) (isAt ?_) ?_
      · rw [hk]
        exact pure ⟨rfl, rfl⟩
      · rintro _ _ ⟨rfl, rfl⟩
        exact hno hk

/-! ### Faults -/

theorem fault {f : Unit → Parser β} {cause : SyntaxError} (h : Reads (f ()) input lo Q) :
    Reads (Parser.fault cause >>= f) input lo Q :=
  fun s hs => h { s with faults := s.faults.push ⟨cause, s.pos⟩ } hs

theorem expected {f : Unit → Parser β} {what : Expectation} (h : Reads (f ()) input lo Q) :
    Reads (Parser.expected what >>= f) input lo Q := by
  refine bind (P := fun _ hi => hi = lo) (peek ?_) ?_
  · split
    · exact fun s hs => hs
    · exact fun s hs => hs
  · rintro _ _ rfl
    exact h

/-! ### Nodes -/

theorem node {kind : NodeKind} {first : Nat} {name : Option Name} {modifiers : Modifiers}
    {children : List Node} {R : Node → Nat → Prop}
    (h : R (.node ⟨kind, first, lo, name, modifiers⟩ children) lo) :
    Reads (Parser.node kind first name modifiers children) input lo R :=
  here (pure h)

/-! ### Nesting

A construct that is refused takes no word. -/

theorem nested (h : Reads p input lo P) :
    Reads (Parser.nested p) input lo fun r hi =>
      match r with
      | some a => P a hi
      | none => hi = lo := by
  intro s hs
  cases hguard : s.guard.enter input.limit.nesting with
  | error e =>
      simp only [Parser.nested, hguard]
      exact hs
  | ok guard =>
      simp only [Parser.nested, hguard]
      exact h { s with guard } hs

/-! ### Repetition

The bound on steps does not matter to an invariant. -/

/-- What holds before a step and after one that goes on holds throughout, and at the end. -/
theorem repeatUpTo {step : σ → Parser (Parser.Step σ)} {I : σ → Nat → Prop}
    (hstep : ∀ found mid, I found mid → Reads (step found) input mid fun r hi => I r.found hi)
    (n : Nat) {found : σ} (h : I found lo) : Reads (Parser.repeatUpTo step n found) input lo I := by
  induction n generalizing found lo with
  | zero => exact pure h
  | succ n ih =>
      refine bind (hstep found lo h) ?_
      intro r mid hr
      cases r with
      | more found => exact ih hr
      | done found => exact pure hr

/-- A repetition keeps its invariant. -/
theorem loop {step : σ → Parser (Parser.Step σ)} {found : σ} (I : σ → Nat → Prop) (h : I found lo)
    (hstep : ∀ found mid, I found mid → Reads (step found) input mid fun r hi => I r.found hi) :
    Reads (Parser.loop step found) input lo I :=
  fun s hs => repeatUpTo hstep _ h s hs

end Reads

/-! ## Parsers that only go forward

The simplest postcondition, which most parsers without a result of interest are given. -/

/-- A parser never ends before where it starts. -/
def Advances (p : Parser α) (input : Input) : Prop := ∀ lo, Reads p input lo fun _ hi => lo ≤ hi

namespace Advances

variable {p : Parser α} {f : α → Parser β} {input : Input} {lo : Nat} {Q : β → Nat → Prop}

/-- Goes on after a parser of whose result nothing is asked. -/
theorem andThen (h : Advances p input) (hf : ∀ a mid, lo ≤ mid → Reads (f a) input mid Q) :
    Reads (p >>= f) input lo Q :=
  (h lo).bind hf

theorem loop {step : σ → Parser (Parser.Step σ)} {found : σ}
    (h : ∀ found, Advances (step found) input) :
    Advances (Parser.loop step found) input := by
  intro lo
  refine Reads.loop (fun _ hi => lo ≤ hi) (Nat.le_refl lo) ?_
  intro found mid hmid
  exact (h found mid).mono fun _ _ hle => Nat.le_trans hmid hle

end Advances

end SharpTokens.Grammar
