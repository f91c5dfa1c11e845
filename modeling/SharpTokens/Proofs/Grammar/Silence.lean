import SharpTokens.Proofs.Grammar.Reading
import SharpTokens.Proofs.Grammar.Run.Outcome
import SharpTokens.Proofs.Syntax.Everywhere

/-!
# Reading in silence

A parser adds faults to those noted before it and takes none back. `Silent p input lo Q` says what
follows if there are none in the end: there were none before, and `Q` holds of the result. Where a
fault is noted nothing is asked of the result, so the rule for two parsers one after the other
(`Silent.bind`) asks of the second one to be silent about whatever the first gives, and lets it use
what is known of that.

A tree is whole if it has no gap: no words that were passed over and no name that is missing. One
kind of gap is left out, a parameter that is nothing but a default value (`Label.IsBareValue`).

The rules are the same as for `Reads`, but for the order in which premises come: a parser that goes
on after a fault need not do anything right, as long as it takes no fault back (`Keeps`). So each
rule for a fault asks for that and for nothing else.
-/

namespace SharpTokens.Grammar

variable {α β σ : Type}

/-- From the word at `lo` on, a parser that ends with no fault noted started with none, and `Q`
holds of its result and of the word it ends at. -/
def Silent (p : Parser α) (input : Input) (lo : Nat) (Q : α → Nat → Prop) : Prop :=
  ∀ s : State, s.pos = lo → (p input s).2.faults = #[] → s.faults = #[] ∧
    Q (p input s).1 (p input s).2.pos

/-- A parser takes no fault back. -/
def Keeps (p : Parser α) (input : Input) : Prop := ∀ lo, Silent p input lo fun _ _ => True

namespace Silent

variable {p q : Parser α} {f : α → Parser β} {input : Input} {lo : Nat}
variable {P : α → Nat → Prop} {Q : β → Nat → Prop} {R : α → Nat → Prop}

theorem mono (h : Silent p input lo P) (himp : ∀ a hi, P a hi → R a hi) : Silent p input lo R := by
  intro s hs hquiet
  obtain ⟨hstart, hP⟩ := h s hs hquiet
  exact ⟨hstart, himp _ _ hP⟩

theorem pure {a : α} (h : R a lo) : Silent (Pure.pure a) input lo R := by
  rintro s rfl hquiet
  exact ⟨hquiet, h⟩

/-- What the first parser gives may be used only if nothing was noted by the end. -/
theorem bind (h : Silent p input lo P)
    (hf : ∀ a mid, Silent (f a) input mid fun b hi => P a mid → Q b hi) :
    Silent (p >>= f) input lo Q := by
  intro s hs hquiet
  -- what is silent in the end started in silence, and so did what came before it
  obtain ⟨hmid, hQ⟩ := hf (p input s).1 _ (p input s).2 rfl hquiet
  obtain ⟨hstart, hP⟩ := h s hs hmid
  exact ⟨hstart, hQ hP⟩

/-- The result is given in another form. -/
theorem ret {g : α → β} (h : Silent p input lo fun a hi => Q (g a) hi) :
    Silent (p >>= fun a => Pure.pure (g a)) input lo Q :=
  h.bind fun _ _ => .pure id

theorem ite {c : Prop} [Decidable c] (hp : c → Silent p input lo R)
    (hq : ¬ c → Silent q input lo R) :
    Silent (if c then p else q) input lo R := by
  split
  · exact hp ‹_›
  · exact hq ‹_›

/-- Both branches go on in the same way. -/
theorem join {c : Prop} [Decidable c] (hp : c → Silent p input lo P)
    (hq : ¬ c → Silent q input lo P)
    (hf : ∀ a mid, Silent (f a) input mid fun b hi => P a mid → Q b hi) :
    Silent (if c then p >>= f else q >>= f) input lo Q :=
  .ite (fun hc => (hp hc).bind hf) fun hc => (hq hc).bind hf

/-! ### Words

These note nothing. -/

/-- What is read after a parser is read from where it ends. -/
theorem run_bind {a : α} {mid d : Nat} {more : Array Fault} (h : Gives p input d lo a mid more)
    (faults : Array Fault) :
    (p >>= f) input ⟨lo, ⟨d⟩, faults⟩ = f a input ⟨mid, ⟨d⟩, faults ++ more⟩ := by
  show f (p input ⟨lo, ⟨d⟩, faults⟩).1 input (p input ⟨lo, ⟨d⟩, faults⟩).2 = _
  rw [h faults]

/-- Goes on after a parser that notes no fault. -/
theorem after {a : α} {mid : Nat} (h : ∀ d, Gives p input d lo a mid #[])
    (hf : Silent (f a) input mid Q) :
    Silent (p >>= f) input lo Q := by
  rintro ⟨_, ⟨d⟩, faults⟩ rfl
  rw [run_bind (h d), Array.append_empty]
  exact hf ⟨mid, ⟨d⟩, faults⟩ rfl

theorem here {f : Nat → Parser β} (h : Silent (f lo) input lo Q) :
    Silent (Parser.here >>= f) input lo Q :=
  after (fun _ => Gives.here) h

theorem look {g : Words → Nat → α} (h : Silent (f (g input.words lo)) input lo Q) :
    Silent (Parser.look g >>= f) input lo Q :=
  after (fun _ => Gives.look g) h

theorem lookWithin {g : Words → Nat → Nat → α}
    (h : Silent (f (g input.words (input.limit.types lo) lo)) input lo Q) :
    Silent (Parser.lookWithin g >>= f) input lo Q :=
  after (fun _ => Gives.lookWithin g) h

theorem limit {f : Nat → Parser β} (h : Silent (f input.limit.nesting) input lo Q) :
    Silent (Bind.bind (m := Parser) (fun input s => (input.limit.nesting, s)) f) input lo Q :=
  fun s hs => h s hs

theorem peek {f : Option Kind → Parser β} (h : Silent (f (input.words.kind? lo)) input lo Q) :
    Silent (Parser.peek >>= f) input lo Q :=
  look h

theorem isAt {f : Bool → Parser β} {k : Kind} (h : Silent (f (input.words.is lo k)) input lo Q) :
    Silent (Parser.isAt k >>= f) input lo Q :=
  look h

theorem isAtContextual {f : Bool → Parser β} {text : String}
    (h : Silent (f (input.words.isContextual lo text)) input lo Q) :
    Silent (Parser.isAtContextual text >>= f) input lo Q :=
  look h

theorem moveTo {f : Unit → Parser β} {i : Nat} (h : Silent (f ()) input i Q) :
    Silent (Parser.moveTo i >>= f) input lo Q :=
  after (fun _ => Gives.moveTo i) h

theorem bump {f : Unit → Parser β} (h : Silent (f ()) input (lo + 1) Q) :
    Silent (Parser.bump >>= f) input lo Q :=
  after (fun _ => Gives.bump) h

theorem eat {f : Bool → Parser β} {k : Kind}
    (hyes : input.words.is lo k = true → Silent (f true) input (lo + 1) Q)
    (hno : input.words.is lo k = false → Silent (f false) input lo Q) :
    Silent (Parser.eat k >>= f) input lo Q := by
  cases hk : input.words.is lo k with
  | true => exact after (fun _ => Gives.eat hk) (hyes hk)
  | false => exact after (fun _ => Gives.eat_other hk) (hno hk)

/-! ### Faults

Behind a fault there is no silence. -/

/-- After a fault nothing is asked of the result. -/
theorem noted {a : α} {mid : Nat} {fault : Fault} (h : ∀ d, Gives p input d lo a mid #[fault])
    (hf : Silent (f a) input mid fun _ _ => True) : Silent (p >>= f) input lo Q := by
  rintro ⟨_, ⟨d⟩, faults⟩ rfl hquiet
  rw [run_bind (h d)] at hquiet
  have hnone := (hf ⟨mid, ⟨d⟩, faults ++ #[fault]⟩ rfl hquiet).1
  simp at hnone

/-- Whatever follows a fault has to keep it. -/
theorem fault {f : Unit → Parser β} {cause : SyntaxError}
    (h : Silent (f ()) input lo fun _ _ => True) :
    Silent (Parser.fault cause >>= f) input lo Q :=
  noted (fun _ => Gives.fault cause) h

theorem expected {f : Unit → Parser β} {what : Expectation}
    (h : Silent (f ()) input lo fun _ _ => True) :
    Silent (Parser.expected what >>= f) input lo Q := by
  obtain ⟨cause, -, hgives⟩ := @Gives.expected input lo what
  exact noted (hgives input.limit) h

/-! ### Nodes -/

theorem node {kind : NodeKind} {first : Nat} {name : Option Name} {modifiers : Modifiers}
    {children : List Node} {R : Node → Nat → Prop}
    (h : R (.node ⟨kind, first, lo, name, modifiers⟩ children) lo) :
    Silent (Parser.node kind first name modifiers children) input lo R :=
  here (pure h)

/-! ### Nesting

A construct that is refused is a gap, and a fault is noted for it. -/

theorem nested (h : Silent p input lo P) :
    Silent (Parser.nested p) input lo fun r hi =>
      match r with
      | some a => P a hi
      | none => hi = lo := by
  intro s hs
  cases hguard : s.guard.enter input.limit.nesting with
  | error e =>
      simp only [Parser.nested, hguard]
      exact fun hquiet => ⟨hquiet, hs⟩
  | ok guard =>
      simp only [Parser.nested, hguard]
      exact h { s with guard } hs

/-! ### Repetition

An invariant for silent steps, while the others have to keep what was noted. -/

/-- What holds before a step and after one that goes on holds throughout, and at the end. -/
theorem repeatUpTo {step : σ → Parser (Parser.Step σ)} {I : σ → Nat → Prop}
    (hstep : ∀ found mid, Silent (step found) input mid fun r hi => I found mid → I r.found hi)
    (n : Nat) (found : σ) (lo : Nat) :
    Silent (Parser.repeatUpTo step n found) input lo fun r hi => I found lo → I r hi := by
  induction n generalizing found lo with
  | zero => exact pure id
  | succ n ih =>
      refine bind (hstep found lo) fun r mid => ?_
      cases r with
      | more found => exact (ih found mid).mono fun _ _ hrest hr hfound => hrest (hr hfound)
      | done found => exact pure id

/-- A repetition keeps its invariant. -/
theorem loop {step : σ → Parser (Parser.Step σ)} {found : σ} (I : σ → Nat → Prop)
    (hstep : ∀ found mid, Silent (step found) input mid fun r hi => I found mid → I r.found hi) :
    Silent (Parser.loop step found) input lo fun r hi => I found lo → I r hi :=
  fun s hs => repeatUpTo hstep _ found lo s hs

end Silent

namespace Keeps

variable {p : Parser α} {f : α → Parser β} {input : Input} {lo : Nat} {Q : β → Nat → Prop}

/-- Goes on after a parser of whose result nothing is known. -/
theorem andThen (h : Keeps p input) (hf : ∀ a mid, Silent (f a) input mid Q) :
    Silent (p >>= f) input lo Q :=
  (h lo).bind fun a mid => (hf a mid).mono fun _ _ hQ _ => hQ

/-- Something is read first under a condition. -/
theorem first {c : Prop} [Decidable c] {p : Parser Unit} {f : Unit → Parser β} (h : Keeps p input)
    (hf : ∀ u mid, Silent (f u) input mid Q) : Silent (if c then p >>= f else f ()) input lo Q :=
  .ite (fun _ => h.andThen hf) fun _ => hf () lo

theorem loop {step : σ → Parser (Parser.Step σ)} {found : σ}
    (h : ∀ found, Keeps (step found) input) :
    Keeps (Parser.loop step found) input :=
  fun _ => (Silent.loop (fun _ _ => True) fun found mid => (h found mid).mono fun _ _ _ _ =>
    trivial).mono
    fun _ _ h => h trivial

end Keeps

/-- A parser whose result is of no interest takes no fault back. -/
theorem Silent.keeps {p : Parser α} {input : Input} {Q : Nat → α → Nat → Prop}
    (h : ∀ lo, Silent p input lo (Q lo)) :
    Keeps p input :=
  fun lo => (h lo).mono fun _ _ _ => trivial

/-! ## Whole trees

A gap is a node of passed-over words or a missing name. -/

/-- A node that stands for something that is not there: words that were passed over, or a name that
is missing. -/
def Label.IsGap (l : Label) : Prop :=
  l.kind = .skippedTokens ∨ ∃ word, l.name = some (.missing word)

/-- A parameter that is nothing but a default value: it starts with `=`. -/
def Label.IsBareValue (ws : Words) (l : Label) : Prop :=
  l.kind = .parameter ∧ ws.is l.first .eq = true

/-- A tree in which nothing is missing, but for the names of parameters that are bare values. -/
def Whole (ws : Words) (t : Node) : Prop := t.Everywhere fun l _ => l.IsGap → l.IsBareValue ws

def AllWhole (ws : Words) (ts : List Node) : Prop := ∀ t ∈ ts, Whole ws t

def Name.IsPresent (n : Name) : Prop := ∀ word, n ≠ .missing word

variable {ws : Words} {kind : NodeKind} {first past : Nat} {m : Modifiers}
  {ts us : List Node} {t : Node}

namespace AllWhole

theorem nil : AllWhole ws [] := nofun

theorem one (h : Whole ws t) : AllWhole ws [t] := List.forall_mem_singleton.2 h

theorem cons (h : Whole ws t) (hts : AllWhole ws ts) : AllWhole ws (t :: ts) :=
  List.forall_mem_cons.2 ⟨h, hts⟩

theorem append (hts : AllWhole ws ts) (hus : AllWhole ws us) : AllWhole ws (ts ++ us) :=
  List.forall_mem_append.2 ⟨hts, hus⟩

/-- Nodes are added to those found before. -/
theorem more {found : Array Node} (hfound : AllWhole ws found.toList) (hts : AllWhole ws ts) :
    AllWhole ws (found ++ ts).toList := by
  rw [Array.toList_appendList]
  exact hfound.append hts

theorem push {found : Array Node} (hfound : AllWhole ws found.toList) (h : Whole ws t) :
    AllWhole ws (found.push t).toList := by
  rw [Array.toList_push]
  exact hfound.append (one h)

end AllWhole

namespace Whole

/-- A node without a name. -/
theorem plain (hkind : kind ≠ .skippedTokens) (hts : AllWhole ws ts) :
    Whole ws (.node ⟨kind, first, past, none, m⟩ ts) := by
  refine .node ?_ hts
  rintro (hskipped | ⟨word, hmissing⟩)
  · exact absurd hskipped hkind
  · cases hmissing

/-- A node with a name that is there. -/
theorem named {name : Name} (hkind : kind ≠ .skippedTokens) (hname : name.IsPresent)
    (hts : AllWhole ws ts) :
    Whole ws (.node ⟨kind, first, past, some name, m⟩ ts) := by
  refine .node ?_ hts
  rintro (hskipped | ⟨word, hmissing⟩)
  · exact absurd hskipped hkind
  · exact absurd (Option.some.inj hmissing) (hname word)

/-- A parameter that is a bare value. -/
theorem bareValue {name : Option Name} (hvalue : ws.is first .eq = true) (hts : AllWhole ws ts) :
    Whole ws (.node ⟨.parameter, first, past, name, m⟩ ts) :=
  .node (fun _ => ⟨rfl, hvalue⟩) hts

end Whole

/-- The node that a parser reads in silence is whole. -/
def ReadsWhole (p : Parser Node) (input : Input) : Prop :=
  ∀ lo, Silent p input lo fun t _ => Whole input.words t

def ReadsAllWhole (p : Parser (List Node)) (input : Input) : Prop :=
  ∀ lo, Silent p input lo fun ts _ => AllWhole input.words ts

def ReadsAnyWhole (p : Parser (Option Node)) (input : Input) : Prop :=
  ∀ lo, Silent p input lo fun t _ => AllWhole input.words t.toList

section

variable {input : Input}

/-- A node as the only one of a list. -/
theorem ReadsWhole.one {p : Parser Node} (h : ReadsWhole p input) :
    ReadsAllWhole (p >>= fun t => pure [t]) input :=
  fun lo => ((h lo).mono fun _ _ => AllWhole.one).ret

/-- A node that is there. -/
theorem ReadsWhole.some {p : Parser Node} (h : ReadsWhole p input) :
    ReadsAnyWhole (p >>= fun t => pure (some t)) input :=
  fun lo => ((h lo).mono fun _ _ => AllWhole.one).ret

namespace Parser

/-! ## Words and faults

What is expected and not there is a fault. -/

theorem eat_keeps (k : Kind) : Keeps (eat k) input :=
  fun _ => .isAt (.ite (fun _ => .bump (.pure trivial)) fun _ => .pure trivial)

theorem skipGroup_keeps : Keeps skipGroup input := by
  refine fun lo => .look ?_
  exact fun s _ hquiet => ⟨hquiet, trivial⟩

theorem expected_silent (what : Expectation) {lo : Nat} :
    Silent (expected what) input lo fun _ _ => False := by
  have hreturn : Silent (expected what >>= pure) input lo fun _ _ => False :=
    .expected (.pure trivial)
  exact hreturn

theorem expected_keeps (what : Expectation) : Keeps (expected what) input :=
  fun _ => (expected_silent what).mono fun _ _ _ => trivial

/-- In silence, what is expected is there. -/
theorem expect_silent (k : Kind) {lo : Nat} :
    Silent (expect k) input lo fun found _ => found = true :=
  .eat (fun _ => .pure rfl) fun _ => .expected (.pure trivial)

theorem expect_keeps (k : Kind) : Keeps (expect k) input := .keeps fun _ => expect_silent k

theorem unexpected_keeps : Keeps unexpected input := by
  refine fun lo => .peek ?_
  cases input.words.kind? lo with
  | some k => exact .fault fun s _ hquiet => ⟨hquiet, trivial⟩
  | none => exact .pure trivial

theorem skipWhile_keeps (holds : Words → Nat → Kind → Bool) : Keeps (skipWhile holds) input := by
  refine .loop fun _ lo => .look ?_
  split
  · exact .bump (.pure trivial)
  · exact .pure trivial

theorem skipGroupsWhile_keeps (holds : Words → Nat → Kind → Bool) :
    Keeps (skipGroupsWhile holds) input := by
  refine .loop fun _ lo => .look ?_
  split
  · exact skipGroup_keeps.andThen fun _ _ => .pure trivial
  · exact .pure trivial

/-! ## Nodes

A name that is read in silence is there. -/

theorem missingName_keeps : Keeps missingName input := fun _ => .here (.pure trivial)

theorem name_silent {lo : Nat} : Silent name input lo fun n _ => n.IsPresent :=
  .here (.isAt (.ite (fun _ => .bump (.look (.pure nofun))) fun _ =>
    .expected (.here (.pure trivial))))

/-- Nothing is passed over in silence for being too deep. -/
theorem tooDeep_silent {lo : Nat} : Silent tooDeep input lo fun _ _ => False :=
  .here (.limit (.fault (skipGroup_keeps.andThen fun _ _ => .node trivial)))

theorem deeper_whole {p : Parser (List Node)} (h : ReadsAllWhole p input) :
    ReadsAllWhole (deeper p) input := by
  refine fun lo => (h lo).nested.bind fun r mid => ?_
  cases r with
  | some nodes => exact .pure id
  | none => exact tooDeep_silent.bind fun _ _ => .pure False.elim

theorem deeperNode_whole {p : Parser Node} (h : ReadsWhole p input) :
    ReadsWhole (deeperNode p) input := by
  refine fun lo => (h lo).nested.bind fun r mid => ?_
  cases r with
  | some node => exact .pure id
  | none => exact tooDeep_silent.mono fun _ _ => False.elim

/-- Nodes that are collected in silence are whole. -/
theorem collect_whole {step : Array Node → Parser (Step (Array Node))}
    {found : Array Node} {lo : Nat} (hfound : AllWhole input.words found.toList)
    (hstep : ∀ (found : Array Node) mid, Silent (step found) input mid fun r _ =>
      AllWhole input.words found.toList → AllWhole input.words r.found.toList) :
    Silent (loop step found) input lo fun found _ => AllWhole input.words found.toList :=
  (Silent.loop (fun (found : Array Node) _ => AllWhole input.words found.toList) hstep).mono fun _ _
    h => h hfound

theorem braced_whole {item : Kind → Parser (List Node)} (h : ∀ k, ReadsAllWhole (item k) input) :
    ReadsAllWhole (braced item) input := by
  refine fun lo => .bump ((collect_whole .nil fun found mid => .peek ?_).ret)
  split
  · exact .expected (.pure trivial)
  · exact .bump (.pure id)
  · exact (h _ mid).bind fun ts hi => .pure fun hts hfound => hfound.more hts

/-- What takes no word is left out, so it may have gaps. -/
theorem orUnexpected_whole {p : Parser Node}
    (h : ∀ lo, Silent p input lo fun t hi => hi = lo ∨ Whole input.words t) :
    ReadsAllWhole (orUnexpected p) input := by
  refine fun lo => .here ((h lo).bind fun t mid => .here (.ite (fun _ => ?_) fun hne => ?_))
  · exact unexpected_keeps.andThen fun _ _ => .pure fun _ => .nil
  · exact .pure fun ht => .one (ht.resolve_left hne)

end Parser

end

end SharpTokens.Grammar
