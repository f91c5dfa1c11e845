import SharpTokens.Grammar.Nonterminal

/-!
# What a parser gives

No parser reads the faults that were noted before it, and each closes the constructs that it opens.
So what it does is said by three things, its result, the word it ends at and the faults that it
adds; and these depend on the word it starts from and the number of open constructs only. `Gives`
says what they are.

A repetition is bounded by the number of words. `Repeats` says what it gives without a bound: it
ends only with a step that is done, and each step before takes a word.

There is a lemma for each way in which parsers are put together, and for each that is not put
together of others. A run of a parser is then followed by its text, from top to bottom. That `Gives`
quantifies over the faults noted before is what makes it independent of them.
-/

namespace SharpTokens.Grammar

variable {α β σ : Type}

/-- From the word at `lo` on, inside `d` constructs, a parser gives `a` and ends before the word at
`hi`. It leaves as many constructs open as there were, and adds the faults `more` to those
before. -/
def Gives (p : Parser α) (input : Input) (d lo : Nat) (a : α) (hi : Nat)
    (more : Array Fault) : Prop :=
  ∀ faults, p input ⟨lo, ⟨d⟩, faults⟩ = (a, ⟨hi, ⟨d⟩, faults ++ more⟩)

/-- What stands for a construct that is too deep. -/
def skipped (ws : Words) (lo : Nat) : Node :=
  .node ⟨.skippedTokens, lo, ws.pastGroup lo, none, .none⟩ []

namespace Gives

variable {p : Parser α} {f : α → Parser β} {input : Input} {d lo mid hi : Nat} {a : α} {b : β}
variable {more more' : Array Fault}

theorem pure : Gives (Pure.pure a) input d lo a lo #[] := by
  intro faults
  simp [Pure.pure]

/-- The second parser starts at the word where the first one ends. -/
theorem bind (hp : Gives p input d lo a mid more) (hf : Gives (f a) input d mid b hi more') :
    Gives (p >>= f) input d lo b hi (more ++ more') := by
  intro faults
  show f (p input ⟨lo, ⟨d⟩, faults⟩).1 input (p input ⟨lo, ⟨d⟩, faults⟩).2 = _
  rw [hp faults, hf, Array.append_assoc]

/-- Goes on after a parser that adds no fault. -/
theorem andThen (hp : Gives p input d lo a mid #[]) (hf : Gives (f a) input d mid b hi more) :
    Gives (p >>= f) input d lo b hi more := by
  have h := hp.bind hf
  rwa [Array.empty_append] at h

/-- Goes on with a parser that adds no fault. -/
theorem andQuiet (hp : Gives p input d lo a mid more) (hf : Gives (f a) input d mid b hi #[]) :
    Gives (p >>= f) input d lo b hi more := by
  have h := hp.bind hf
  rwa [Array.append_empty] at h

/-- A parser gives one thing. -/
theorem unique {a' : α} {hi' : Nat} (h : Gives p input d lo a hi more)
    (h' : Gives p input d lo a' hi' more') :
    a' = a ∧ hi' = hi ∧ more' = more := by
  have heq := (h' #[]).symm.trans (h #[])
  simpa [and_assoc] using heq

/-! ### Words

What looks ahead leaves the place as it is. -/

theorem here : Gives Parser.here input d lo lo lo #[] := by
  intro faults
  simp [Parser.here]

theorem look (f : Words → Nat → α) :
    Gives (Parser.look f) input d lo (f input.words lo) lo #[] := by
  intro faults
  simp [Parser.look]

theorem lookWithin (f : Words → Nat → Nat → α) :
    Gives (Parser.lookWithin f) input d lo (f input.words (input.limit.types lo) lo) lo #[] := by
  intro faults
  simp [Parser.lookWithin]

theorem moveTo (i : Nat) : Gives (Parser.moveTo i) input d lo () i #[] := by
  intro faults
  simp [Parser.moveTo]

theorem bump : Gives Parser.bump input d lo () (lo + 1) #[] := by
  intro faults
  simp [Parser.bump]

theorem eat {k : Kind} (h : input.words.is lo k = true) :
    Gives (Parser.eat k) input d lo true (lo + 1) #[] := by
  apply andThen (look _)
  rw [h]
  exact bump.andThen pure

theorem eat_other {k : Kind} (h : input.words.is lo k = false) :
    Gives (Parser.eat k) input d lo false lo #[] := by
  apply andThen (look _)
  rw [h]
  exact pure

theorem skipGroup : Gives Parser.skipGroup input d lo () (input.words.pastGroup lo) #[] :=
  (look _).andThen (moveTo _)

/-! ### Faults

The cause of a fault is never that something is too deep, apart from where a construct is refused.
That is needed to tell when a limit mattered. -/

theorem fault (cause : SyntaxError) :
    Gives (Parser.fault cause) input d lo () lo #[⟨cause, lo⟩] := by
  intro faults
  simp [Parser.fault]

/-- What is noted depends on the word ahead, and not on the limit. -/
theorem expected (what : Expectation) :
    ∃ cause, (∀ limit, cause ≠ .tooDeep limit) ∧
      ∀ limit d, Gives (Parser.expected what) ⟨input.words, limit⟩ d lo () lo #[⟨cause, lo⟩] := by
  cases hk : input.words.kind? lo with
  | some k =>
      refine ⟨.expected what k, by simp, fun limit d => ?_⟩
      apply andThen (look _)
      rw [hk]
      exact fault _
  | none =>
      refine ⟨.endOfFile what, by simp, fun limit d => ?_⟩
      apply andThen (look _)
      rw [hk]
      exact fault _

/-! ### Nodes -/

theorem node (kind : NodeKind) (first : Nat) (name : Option Name) (m : Modifiers)
    (children : List Node) :
    Gives (Parser.node kind first name m children) input d lo
      (.node ⟨kind, first, lo, name, m⟩ children) lo #[] :=
  here.andThen pure

/-! ### Nesting -/

/-- There is room for another construct. -/
theorem nested (hdeep : d < input.limit.nesting) (hd : d < Guard.unlimited)
    (hp : Gives p input (d + 1) lo a hi more) :
    Gives (Parser.nested p) input d lo (some a) hi more := by
  intro faults
  have henter : Guard.enter ⟨d⟩ input.limit.nesting = .ok ⟨d + 1⟩ := by
    have hnext : min (d + 1) Guard.unlimited = d + 1 := by omega
    simp only [Guard.enter, hnext]
    exact if_neg (by omega)
  simp only [Parser.nested, henter, hp faults, Guard.leave, Nat.add_sub_cancel]

/-- There is none. -/
theorem nested_refused (hdeep : input.limit.nesting ≤ d) (hd : d < Guard.unlimited) :
    Gives (Parser.nested p) input d lo none lo #[] := by
  intro faults
  have henter : Guard.enter ⟨d⟩ input.limit.nesting = .error ⟨d + 1, input.limit.nesting⟩ := by
    have hnext : min (d + 1) Guard.unlimited = d + 1 := by omega
    simp only [Guard.enter, hnext]
    exact if_pos (by omega)
  simp [Parser.nested, henter]

/-- What is too deep is passed over. -/
theorem tooDeep : Gives Parser.tooDeep input d lo (skipped input.words lo)
    (input.words.pastGroup lo)
    #[⟨.tooDeep input.limit.nesting, lo⟩] := by
  apply here.andThen
  have hlimit : Gives (fun input s => (input.limit.nesting, s)) input d lo input.limit.nesting
      lo #[] := by
    intro faults
    simp
  apply hlimit.andThen
  apply (fault _).andQuiet
  apply skipGroup.andThen
  exact node _ _ _ _ _

theorem deeper {p : Parser (List Node)} {ts : List Node} (hdeep : d < input.limit.nesting)
    (hd : d < Guard.unlimited) (hp : Gives p input (d + 1) lo ts hi more) :
    Gives (Parser.deeper p) input d lo ts hi more :=
  (nested hdeep hd hp).andQuiet pure

/-- A construct that the limit does not allow is passed over, and a fault says so. -/
theorem deeper_refused {p : Parser (List Node)} (hdeep : input.limit.nesting ≤ d)
    (hd : d < Guard.unlimited) :
    Gives (Parser.deeper p) input d lo [skipped input.words lo] (input.words.pastGroup lo)
      #[⟨.tooDeep input.limit.nesting, lo⟩] :=
  (nested_refused hdeep hd).andThen (tooDeep.andQuiet pure)

theorem deeperNode {p : Parser Node} {t : Node} (hdeep : d < input.limit.nesting)
    (hd : d < Guard.unlimited) (hp : Gives p input (d + 1) lo t hi more) :
    Gives (Parser.deeperNode p) input d lo t hi more :=
  (nested hdeep hd hp).andQuiet pure

theorem deeperNode_refused {p : Parser Node} (hdeep : input.limit.nesting ≤ d)
    (hd : d < Guard.unlimited) :
    Gives (Parser.deeperNode p) input d lo (skipped input.words lo) (input.words.pastGroup lo)
      #[⟨.tooDeep input.limit.nesting, lo⟩] :=
  (nested_refused hdeep hd).andThen tooDeep

end Gives

/-! ## Repetition

A repetition that makes progress ends before its bound, so the bound does not show. -/

/-- A repetition from what was `found` before gives `r`: steps that each take a word, and then one
that is done. -/
inductive Repeats (step : σ → Parser (Parser.Step σ)) (input : Input) (d : Nat) :
    (found : σ) → (lo : Nat) → (r : σ) → (hi : Nat) → (more : Array Fault) → Prop
  | done {found r : σ} {lo hi : Nat} {more : Array Fault} :
      Gives (step found) input d lo (.done r) hi more → Repeats step input d found lo r hi more
  | more {found found' r : σ} {lo mid hi : Nat} {more more' : Array Fault} :
      Gives (step found) input d lo (.more found') mid more → lo < mid → mid ≤ input.words.size →
      Repeats step input d found' mid r hi more' →
      Repeats step input d found lo r hi (more ++ more')

namespace Repeats

variable {step : σ → Parser (Parser.Step σ)} {input : Input} {d lo hi : Nat} {found r : σ}
  {more : Array Fault}

/-- Goes on after a step that adds no fault. -/
theorem andThen {found' : σ} {mid : Nat}
    (hstep : Gives (step found) input d lo (.more found') mid #[]) (hlt : lo < mid)
    (hmid : mid ≤ input.words.size) (h : Repeats step input d found' mid r hi more) :
    Repeats step input d found lo r hi more := by
  have hmore := Repeats.more hstep hlt hmid h
  rwa [Array.empty_append] at hmore

theorem repeatUpTo_succ (n : Nat) : Parser.repeatUpTo step (n + 1) found = step found >>= fun
    | .more found => Parser.repeatUpTo step n found
    | .done found => pure found := rfl

/-- Bounded by more steps than there are words, it gives the same. -/
theorem repeatUpTo (h : Repeats step input d found lo r hi more)
    (hlo : lo ≤ input.words.size) {n : Nat} (hn : input.words.size - lo < n) :
    Gives (Parser.repeatUpTo step n found) input d lo r hi more := by
  induction h generalizing n with
  | done hstep =>
      obtain ⟨n, rfl⟩ := Nat.exists_eq_add_of_lt hn
      rw [repeatUpTo_succ]
      exact hstep.andQuiet Gives.pure
  | more hstep hlt hmid _ ih =>
      obtain ⟨n, rfl⟩ := Nat.exists_eq_add_of_lt hn
      rw [repeatUpTo_succ]
      exact hstep.bind (ih hmid (by omega))

/-- The bound of a loop is enough: each step but the last takes a word. -/
theorem loop (h : Repeats step input d found lo r hi more) (hlo : lo ≤ input.words.size) :
    Gives (Parser.loop step found) input d lo r hi more := by
  intro faults
  exact h.repeatUpTo hlo (Nat.lt_succ_self _) faults

end Repeats

end SharpTokens.Grammar
