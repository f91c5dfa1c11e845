import SharpTokens.Grammar.Expression
import SharpTokens.Proofs.Grammar.Run.Tracking

/-!
# Runs of phrases

Attributes, parameters, variables and expressions, over nonterminals that are `Alike`: for each of
them, where it ends, how high the trees are that it gives, and that a looser limit on nesting gives
the same.

The heights are over the `room` that the limit leaves. Everything inside braces or in a group is a
level deeper, so it has less room, and what is between one level and the next is less than sixteen
nodes high.

`Alike` says which nonterminals may be asked for in the construct that a phrase is in itself. Most
phrases ask for expressions there and for nothing else (`Loosened.values`); what they read in a
construct of their own may be anything. This is what bounds the calls that are made without entering
a construct.

`Alike c g g' start d may` carries the induction. The two grammars agree from the words behind
`start` on: in deeper constructs on all nonterminals, and in the present one on those that `may` be
asked for. So a parser that stands at `start` has to take a word before it asks for anything, and
has to open a construct before it asks for anything else than `may` allows.
-/

namespace SharpTokens.Grammar

open Grammar.Parser Loosened

variable {c : Loosened} {d lo start : Nat}

/-! ## Phrases without nonterminals

These ask for nothing, so they give the same over any two grammars. -/

theorem attributeStep_tracks (found : Array Node) (hlo : lo ≤ c.words.size) :
    Tracks c (attributeStep found) (attributeStep found) d lo
      (Tracks.Collects (Low 1) (fun hi => c.words.is hi .lbracket = false) found lo) := by
  refine .look (.ite (fun hopen => .here (.skipGroup ?_)) fun hopen => ?_)
  · have hlt := Words.lt_pastGroup (Words.lt_size_of_is hopen)
    exact .andNode (.pure (Words.pastGroup_le_size hlo) (Tracks.collects_push hlt .leaf))
  · exact .pure hlo ⟨Nat.le_refl lo, by simpa using hopen, rfl⟩

/-- Attributes stop where no bracket is ahead. -/
theorem attributeLists_tracks (hlo : lo ≤ c.words.size) :
    Tracks c attributeLists attributeLists d lo fun ts hi =>
      lo ≤ hi ∧ c.words.is hi .lbracket = false ∧ ∀ t ∈ ts, Low 1 t := by
  refine Tracks.bind (.collect _ _ hlo (by simp) fun found _ _ hmid =>
    attributeStep_tracks found hmid) ?_
  exact fun _ _ hhi h => .pure hhi h

theorem modifierStep_tracks (found : Modifiers) (hlo : lo ≤ c.words.size) :
    Tracks c (modifierStep found) (modifierStep found) d lo (Tracks.Onward lo) := by
  have hstop : Tracks c (pure (Step.done found)) (pure (Step.done found)) d lo
      (Tracks.Onward lo) := .pure hlo ⟨Nat.le_refl lo, trivial⟩
  have hgo : ∀ (k : Kind) (found : Modifiers), c.words.kind? lo = some k →
      Tracks c (bump >>= fun _ => pure (Step.more found))
      (bump >>= fun _ => pure (Step.more found)) d lo
        (Tracks.Onward lo) := by
    intro k found hk
    exact .bump (.pure (Words.lt_size_of_kind? hk) ⟨Nat.lt_succ_self lo, trivial⟩)
  refine .look ?_
  split
  · exact hgo _ _ ‹_›
  · exact hgo _ _ ‹_›
  · exact hgo _ _ ‹_›
  · exact .look (.ite (fun _ => hgo _ _ ‹_›) fun _ => hstop)
  · exact hstop

theorem modifiers_tracks (hlo : lo ≤ c.words.size) :
    Tracks c modifiers modifiers d lo fun _ hi => lo ≤ hi :=
  .onward hlo fun found _ _ hmid => modifierStep_tracks found hmid

/-- A type that is recognised takes a word. -/
theorem skipType_tracks (hlo : lo ≤ c.words.size) :
    Tracks c skipType skipType d lo fun found hi => lo ≤ hi ∧ (found = true → lo < hi) := by
  refine .lookWithin (c.types lo) ?_
  split
  · rename_i past hpast
    have hlt := c.words.lt_of_typeEnd? hpast
    have hsize := Words.le_size_of_typeEnd? hpast hlo
    exact .moveTo (.pure hsize ⟨Nat.le_of_lt hlt, fun _ => hlt⟩)
  · exact .pure hlo ⟨Nat.le_refl lo, by simp⟩

theorem expectType_tracks (hlo : lo ≤ c.words.size) :
    Tracks c expectType expectType d lo fun _ hi => lo ≤ hi := by
  refine (skipType_tracks hlo).bind fun found mid hmid h =>
    .ite (fun _ => .pure hmid h.1) fun _ => ?_
  refine (expected_tracks .type hmid).mono ?_
  rintro _ _ - rfl
  exact h.1

/-- The words of type parameters are taken one by one, up to the matching bracket. -/
theorem typeParameterStep_tracks (depth : Nat) (hlo : lo ≤ c.words.size) :
    Tracks c (typeParameterStep depth) (typeParameterStep depth) d lo (Tracks.Onward lo) := by
  have hstop : Tracks c (expected (.kind .gt) >>= fun _ => pure (Step.done depth))
      (expected (.kind .gt) >>= fun _ => pure (Step.done depth)) d lo
      (Tracks.Onward lo) := .expected (.pure hlo ⟨Nat.le_refl lo, trivial⟩)
  refine .look ?_
  split
  · exact .pure hlo ⟨Nat.le_refl lo, trivial⟩
  · exact hstop
  · exact hstop
  · exact hstop
  · exact hstop
  · exact hstop
  · have hlt : lo < c.words.size := Words.lt_size_of_kind? ‹_›
    refine .bump (.ite (fun _ => ?_) fun _ => ?_)
    · exact .pure hlt ⟨Nat.le_succ lo, trivial⟩
    · exact .pure hlt ⟨Nat.lt_succ_self lo, trivial⟩

theorem typeParameters_tracks (hlo : lo ≤ c.words.size) :
    Tracks c typeParameters typeParameters d lo fun _ hi => lo ≤ hi := by
  refine .look (.ite (fun _ => ?_) fun _ => .pure hlo (Nat.le_refl lo))
  refine Tracks.bind (.onward hlo fun depth _ _ hmid => typeParameterStep_tracks depth hmid) ?_
  exact fun _ _ hhi h => .pure hhi h

theorem constraintStep_tracks (u : Unit) (hlo : lo ≤ c.words.size) :
    Tracks c (constraintStep u) (constraintStep u) d lo (Tracks.Onward lo) := by
  refine .look (.ite (fun hwhere => .bump ?_) fun _ => .pure hlo ⟨Nat.le_refl lo, trivial⟩)
  have hlt := Words.lt_size_of_isContextual hwhere
  exact (skipWhile_tracks _ hlt).bind fun _ _ hhi h => .pure hhi ⟨h.1, trivial⟩

theorem constraints_tracks (hlo : lo ≤ c.words.size) :
    Tracks c constraints constraints d lo fun _ hi => lo ≤ hi :=
  .onward hlo fun u _ _ hmid => constraintStep_tracks u hmid

theorem typeHeader_tracks (hlo : lo ≤ c.words.size) :
    Tracks c typeHeader typeHeader d lo fun _ hi => lo ≤ hi :=
  skipGroupsWhile_tracks _ hlo

/-! ## Nonterminals

What is said of the four nonterminals, in the forms in which it is used: what has to be ahead, where
they end, how high their trees are, and how many of them may be open in one construct. -/

inductive Symbol where
  | expression (toComma : Bool) (scope : Scope)
  | namespaceDeclaration
  | member
  | statement

namespace Symbol

@[reducible]
def Result : Symbol → Type
  | .expression _ _ => List Node
  | .namespaceDeclaration => Node
  | .member => Option Node
  | .statement => Node

/-- What has to be ahead of it: a namespace is only read from its keyword on. -/
def Ahead (ws : Words) (lo : Nat) : Symbol → Prop
  | .namespaceDeclaration => ws.is lo .namespaceKw = true
  | _ => True

/-- How many nonterminals may be open inside each other in the same construct. A statement may hold
another one behind attributes, and the one behind `await` that a loop is. -/
def level (ws : Words) (lo : Nat) : Symbol → Nat
  | .expression _ _ => 0
  | .namespaceDeclaration => 0
  | .member => 1
  | .statement =>
    if ws.is lo .lbracket then 4
    else if ws.isContextual lo "await" && ws.is (lo + 1) .foreachKw then 3
    else 2

/-- What a nonterminal that starts at `lo` may ask for in the construct that it is in itself. -/
def Below (x : Symbol) (ws : Words) (lo : Nat) (y : Symbol) (mid : Nat) : Prop :=
  y.level ws mid < x.level ws lo

/-- At most five nonterminals are open in one construct, one in another. -/
theorem level_le (ws : Words) (lo : Nat) (x : Symbol) : x.level ws lo ≤ 4 := by
  cases x <;> grind [level]

theorem two_le_level_statement (ws : Words) (lo : Nat) : 2 ≤ statement.level ws lo := by
  grind [level]

/-- Behind attributes no others follow, so what they stand before is lower. -/
theorem below_of_attributes {ws : Words} {lo mid : Nat} (hlo : ws.is lo .lbracket = true)
    (hmid : ws.is mid .lbracket = false) : statement.Below ws lo .statement mid := by
  simp only [Below, level, hlo, hmid, if_true]
  grind

/-- The loop behind `await` is one no more. -/
theorem below_of_await {ws : Words} {lo : Nat} (hlo : ws.isContextual lo "await" = true)
    (hnext : ws.is (lo + 1) .foreachKw = true) : statement.Below ws lo .statement (lo + 1) := by
  have hident : ws.kind? lo = some .ident := by
    rw [Words.isContextual, Bool.and_eq_true] at hlo
    exact Words.is_eq_true.1 hlo.1
  have hloop : ws.kind? (lo + 1) = some .foreachKw := Words.is_eq_true.1 hnext
  have hhere : statement.level ws lo = 3 := by
    rw [level, hlo, hnext, Words.is, hident]
    rfl
  have hbehind : statement.level ws (lo + 1) = 2 := by
    rw [level, Words.isContextual, Words.is, Words.is, hloop]
    rfl
  rw [Below, hhere, hbehind]
  decide

end Symbol

/-- From the word `hi` on stands the value of a parameter of an anonymous method, which starts at
`lo` or after it. -/
def Words.AnonymousValue (ws : Words) (lo hi : Nat) : Prop :=
  ∃ i j, lo ≤ i ∧ i + 1 < j ∧ hi = j + 1 ∧
    ws.is i .delegateKw = true ∧ ws.is (i + 1) .lparen = true ∧ ws.is j .eq = true

theorem Words.AnonymousValue.mono {ws : Words} {lo lo' hi : Nat} (h : ws.AnonymousValue lo hi)
    (hlo : lo' ≤ lo) :
    ws.AnonymousValue lo' hi := by
  obtain ⟨i, j, hi, h⟩ := h
  exact ⟨i, j, Nat.le_trans hlo hi, h⟩

def Nonterminals.parser (g : Nonterminals) : (x : Symbol) → Parser x.Result
  | .expression toComma scope => g.expression toComma scope
  | .namespaceDeclaration => g.namespaceDeclaration
  | .member => g.member
  | .statement => g.statement

namespace Loosened

/-- Trees of expressions: anonymous methods are up to three higher than the others. -/
abbrev Value (c : Loosened) (d : Nat) : Node → Prop :=
  LowBut .anonymousMethodExpression 3 (c.room d + 1)

/-- Trees of members: namespaces without braces are one higher than the others. -/
abbrev Declared (c : Loosened) (d : Nat) : Node → Prop :=
  LowBut .fileScopedNamespaceDeclaration 1 (c.room d + 7)

/-- Trees that were read from `lo` on, of which each is at most `k` higher than the room. -/
abbrev Parts (c : Loosened) (d k lo : Nat) (ts : List Node) (hi : Nat) : Prop :=
  lo ≤ hi ∧ ∀ t ∈ ts, Low (c.room d + k) t

abbrev Part (c : Loosened) (d k lo : Nat) (t : Node) (hi : Nat) : Prop :=
  lo ≤ hi ∧ Low (c.room d + k) t

/-- Where a nonterminal ends that is read from `lo` on inside `d` constructs, and how high its trees
are. A statement is higher by one if attributes stand before it. -/
def Fits (c : Loosened) (d lo : Nat) : (x : Symbol) → x.Result → Nat → Prop
  | .expression _ _, ts, hi => lo ≤ hi ∧ ∀ t ∈ ts, c.Value d t
  | .namespaceDeclaration, t, hi => lo < hi ∧ c.Declared d t
  | .member, t, hi => lo ≤ hi ∧ ∀ t' ∈ t, c.Declared d t'
  | .statement, t, hi =>
    lo ≤ hi ∧ Low (c.room d + 9) t ∧ (c.words.is lo .lbracket = false → Low (c.room d + 8) t)

/-- From the words after `start` on, the nonterminals of two grammars do the same under the two
limits: all of them inside more than `d` constructs, and inside `d` constructs those that `may` be
asked for there. -/
structure Alike (c : Loosened) (g g' : Nonterminals) (start d : Nat)
    (may : Symbol → Nat → Prop) : Prop where
  parser : ∀ {d' lo} (x : Symbol), c.Ready d' lo → start < lo → x.Ahead c.words lo → d < d' ∨
    d' = d ∧ may x lo →
    Tracks c (g.parser x) (g'.parser x) d' lo (c.Fits d' lo x)

/-- Of what is as deep, only expressions are asked for. -/
def values (x : Symbol) (_ : Nat) : Prop := ∃ toComma scope, x = .expression toComma scope

namespace Alike

variable {g g' : Nonterminals} {may may' : Symbol → Nat → Prop} (hg : Alike c g g' start d may)
include hg

theorem mono (hmay : ∀ x lo, may' x lo → may x lo) : Alike c g g' start d may' :=
  ⟨fun x h hlo hx hd => hg.parser x h hlo hx (hd.imp_right fun hd => ⟨hd.1, hmay x _ hd.2⟩)⟩

/-- Inside one more construct everything may be asked for. -/
theorem deeper : Alike c g g' start (d + 1) fun _ _ => True :=
  ⟨fun x h hlo hx hd => hg.parser x h hlo hx (.inl (by omega))⟩

variable (h : c.Ready d lo) (hlo : start < lo)
include h hlo

/-- An expression may be asked for if it is among those that may. -/
theorem expression (toComma : Bool) (scope : Scope) (hmay : may (.expression toComma scope) lo) :
    Tracks c (g.expression toComma scope) (g'.expression toComma scope) d lo fun ts hi =>
      lo ≤ hi ∧ ∀ t ∈ ts, c.Value d t :=
  hg.parser (.expression toComma scope) h hlo trivial (.inr ⟨rfl, hmay⟩)

/-- So may a namespace, if its keyword is ahead. -/
theorem namespaceDeclaration (hword : c.words.is lo .namespaceKw = true)
    (hmay : may .namespaceDeclaration lo) :
    Tracks c g.namespaceDeclaration g'.namespaceDeclaration d lo fun t hi => lo < hi ∧
      c.Declared d t :=
  hg.parser .namespaceDeclaration h hlo hword (.inr ⟨rfl, hmay⟩)

theorem member (hmay : may .member lo) :
    Tracks c g.member g'.member d lo fun t hi => lo ≤ hi ∧ ∀ t' ∈ t, c.Declared d t' :=
  hg.parser .member h hlo trivial (.inr ⟨rfl, hmay⟩)

theorem statement (hmay : may .statement lo) : Tracks c g.statement g'.statement d lo fun t hi =>
    lo ≤ hi ∧ Low (c.room d + 9) t ∧ (c.words.is lo .lbracket = false → Low (c.room d + 8) t) :=
  hg.parser .statement h hlo trivial (.inr ⟨rfl, hmay⟩)

omit hg in
/-- Where only expressions are asked for, any of them may be. -/
theorem value (hg : Alike c g g' start d values) (toComma : Bool) (scope : Scope) :
    Tracks c (g.expression toComma scope) (g'.expression toComma scope) d lo fun ts hi =>
      lo ≤ hi ∧ ∀ t ∈ ts, c.Value d t :=
  hg.expression h hlo toComma scope ⟨toComma, scope, rfl⟩

end Alike

end Loosened

/-! ### Trees of some height

Parts of a construct are lower than what the room allows by a few levels, which is what nodes
between one construct and the next add up to. -/

theorem Loosened.Parts.mono {ts : List Node} {hi k lo' k' : Nat} (h : c.Parts d k lo ts hi)
    (hlo : lo' ≤ lo) (hk : k ≤ k') : c.Parts d k' lo' ts hi :=
  ⟨Nat.le_trans hlo h.1, fun t ht => (h.2 t ht).mono (by omega)⟩

/-- One phrase after another. -/
theorem Loosened.Parts.append {ts us : List Node} {mid hi k : Nat} (h : c.Parts d k lo ts mid)
    (h' : c.Parts d k mid us hi) : c.Parts d k lo (ts ++ us) hi :=
  ⟨Nat.le_trans h.1 h'.1, List.forall_mem_append.2 ⟨h.2, h'.2⟩⟩

/-- A tree as the only one of a list. -/
theorem Loosened.Part.one {t : Node} {hi k lo' k' : Nat} (h : c.Part d k lo t hi) (hlo : lo' ≤ lo)
    (hk : k ≤ k') :
    c.Parts d k' lo' [t] hi :=
  ⟨Nat.le_trans hlo h.1, by simpa using h.2.mono (by omega)⟩

/-- Parameters with values that are anonymous methods. -/
theorem Parameters.low_values {t : Node} (h : Parameters (c.Value d) t) : Low (c.room d + 6) t :=
  Parameters.low (h.mono fun _ ht => ht.low (Nat.le_refl _))

namespace Nonterminals

variable {g g' : Nonterminals} {may : Symbol → Nat → Prop}

/-! ## Blocks

Statements in a block are a level deeper, where any nonterminal may be asked for. -/

variable (g) in
def blockInside : Parser Node := do
  let first ← here
  plain .block first (← braced fun _ => orUnexpected g.statement)

theorem blockInside_tracks (hg : Alike c g g' start d may) (h : c.Ready d lo)
    (hlo : lo < c.words.size) (hstart : start ≤ lo) (hdeep : d < c.limit) :
    Tracks c g.blockInside g'.blockInside (d + 1) lo fun t hi => lo < hi ∧
      Low (c.room d + 1) t := by
  have hroom := room_succ hdeep
  refine .here ((braced_tracks (P := Low (c.room (d + 1) + 9)) hlo fun _ mid hmid hsize _ =>
    ?_).bind ?_)
  · refine orUnexpected_tracks hsize
      ((hg.deeper.statement (h.deeper hdeep hmid (by omega)) (by omega) trivial).mono ?_)
    exact fun t hi _ ht => ⟨ht.1, ht.2.1⟩
  · exact fun ts hi hhi hts => .node hhi ⟨hts.1, (Low.node hts.2).mono (by omega)⟩

/-- A block that is too deep is passed over. -/
theorem block_tracks (hg : Alike c g g' start d may) (h : c.Ready d lo) (hlo : lo < c.words.size)
    (hstart : start ≤ lo) :
    Tracks c g.block g'.block d lo fun t hi => lo < hi ∧ Low (c.room d + 1) t :=
  .deeperNode h ⟨Words.lt_pastGroup hlo, low_skipped⟩ fun hdeep => blockInside_tracks hg h hlo
    hstart hdeep

theorem expectBlock_tracks (hg : Alike c g g' start d may) (h : c.Ready d lo)
    (hstart : start ≤ lo) :
    Tracks c g.expectBlock g'.expectBlock d lo (c.Parts d 1 lo) := by
  refine .look (.ite (fun hopen => ?_) fun _ =>
    .expected (.pure h.le_size ⟨Nat.le_refl lo, by simp⟩))
  refine (block_tracks hg h (Words.lt_size_of_is hopen) hstart).bind fun t hi hhi ht => .pure hhi ?_
  exact ⟨Nat.le_of_lt ht.1, by simpa using ht.2⟩

/-! ## Parameters

The default value of a parameter is read in the construct that the list is in. That is how anonymous
methods nest without regard to the limit. -/

theorem parameterName_tracks (first : Nat) (hlo : lo ≤ c.words.size) :
    Tracks c (parameterName first) (parameterName first) d lo fun _ hi => lo ≤ hi := by
  refine (skipType_tracks hlo).bind fun found mid hmid h => .ite (fun _ => ?_) fun _ => .here ?_
  · exact (name_tracks hmid).mono fun _ hi _ hn => Nat.le_trans h.1 hn.1
  · have hmissing := (missingName_tracks hmid (d := d)).mono fun _ hi _ hn => Nat.le_trans h.1 hn
    exact .ite (fun _ => .expected hmissing) fun _ => hmissing

/-- A value that may follow a name or type. -/
theorem value_tracks {f f' : List Node → Parser Node} {R : Node → Nat → Prop}
    (hg : Alike c g g' start d may) (h : c.Ready d lo) (hstart : start ≤ lo)
    (hmay : c.words.is lo .eq = true → may (.expression true .statement) (lo + 1))
    (hf : ∀ ts mid, lo ≤ mid → mid ≤ c.words.size → (∀ t ∈ ts, c.Value d t) →
      Tracks c (f ts) (f' ts) d mid R) :
    Tracks c
      (do
        let found ← eat .eq
        have jp := f
        if found = true then g.expression true .statement >>= jp else pure [] >>= jp)
      (do
        let found ← eat .eq
        have jp := f'
        if found = true then g'.expression true .statement >>= jp else pure [] >>= jp) d lo R := by
  refine .eat (fun heq => ?_) fun _ => hf [] lo (Nat.le_refl lo) h.le_size (by simp)
  have hnext := h.mono (Nat.le_succ lo) (Words.lt_size_of_is heq)
  refine (hg.expression hnext (by omega) true .statement (hmay heq)).bind fun ts mid hmid hts => ?_
  refine hf ts mid ?_ hmid hts.2
  exact Nat.le_of_succ_le hts.1

/-- An expression is asked for behind `=` only. -/
theorem parameter_tracks (hg : Alike c g g' start d may) (style : ParameterStyle) (h : c.Ready d lo)
    (hstart : start ≤ lo)
    (hmay : ∀ mid, lo ≤ mid → c.words.is mid .eq = true →
      may (.expression true .statement) (mid + 1)) :
    Tracks c (g.parameter style) (g'.parameter style) d lo fun t hi =>
      lo ≤ hi ∧ Parameter (c.Value d) t := by
  refine .here ((attributeLists_tracks h.le_size).bind fun attributes n hn hattributes => ?_)
  refine (skipWhile_tracks _ hn).bind fun _ m hm hmodifiers => .look ?_
  extract_lets rest rest'
  have hrest : ∀ name k, k ≤ c.words.size → m ≤ k →
      Tracks c (rest name) (rest' name) d k fun t hi =>
      lo ≤ hi ∧ Parameter (c.Value d) t := by
    intro name k hk hmk
    refine value_tracks hg (h.mono (by omega) hk) (by omega) (hmay k (by omega)) fun value hi hle
      hhi hvalue => ?_
    refine .node hhi ⟨by omega, rfl, fun t ht => ?_⟩
    rcases List.mem_append.1 ht with ht | ht
    · exact ((hattributes.2.2 t ht).mono (by omega)).but
    · exact hvalue t ht
  refine .ite (fun _ => ?_) fun _ => ?_
  · exact (name_tracks hm).bind fun name k hk hn => hrest name k hk hn.1
  · exact (parameterName_tracks lo hm).bind hrest

/-- One parameter, or what stands between two of them. -/
theorem parameterStep_tracks (hg : Alike c g g' start d may) (style : ParameterStyle)
    (found : Array Node) (h : c.Ready d lo) (hstart : start ≤ lo)
    (hmay : ∀ mid, lo ≤ mid → c.words.is mid .eq = true →
      may (.expression true .statement) (mid + 1)) :
    Tracks c (g.parameterStep style found) (g'.parameterStep style found) d lo
      (Tracks.Collects (Parameter (c.Value d)) (fun _ => True) found lo) := by
  refine .look ?_
  split
  · rename_i k hk
    have hlt := Words.lt_size_of_kind? hk
    refine .ite (fun _ => .bump (.pure hlt ⟨Nat.le_succ lo, trivial, rfl⟩)) fun _ => ?_
    refine .ite (fun _ => .expected (.pure h.le_size ⟨Nat.le_refl lo, trivial, rfl⟩)) fun _ => ?_
    refine .ite (fun _ => .bump (.pure hlt ⟨Nat.lt_succ_self lo, [], by simp⟩)) fun _ => ?_
    refine (orUnexpected_tracks hlt (parameter_tracks hg style h hstart hmay)).bind fun ts hi
      hhi hts => ?_
    exact .pure hhi (Tracks.collects_more hts.1 hts.2)
  · exact .expected (.pure h.le_size ⟨Nat.le_refl lo, trivial, rfl⟩)

/-- All parameters lie behind the opening bracket. -/
theorem parameterList_tracks (hg : Alike c g g' start d may) (style : ParameterStyle)
    (h : c.Ready d (lo + 1)) (hstart : start ≤ lo)
    (hmay : ∀ mid, lo < mid → c.words.is mid .eq = true →
      may (.expression true .statement) (mid + 1)) :
    Tracks c (g.parameterList style) (g'.parameterList style) d lo fun t hi =>
      lo < hi ∧ Parameters (c.Value d) t := by
  refine .here (.bump (Tracks.bind (.collect _ _ h.le_size (by simp) fun found mid hle hmid =>
    parameterStep_tracks hg style found (h.mono hle hmid) (by omega) fun k hk =>
      hmay k (by omega)) ?_))
  exact fun found hi hhi hfound => .node hhi ⟨hfound.1, rfl, hfound.2.2⟩

theorem expectParameters_tracks (hg : Alike c g g' start d values) (h : c.Ready d lo)
    (hstart : start ≤ lo) :
    Tracks c g.expectParameters g'.expectParameters d lo (c.Parts d 6 lo) := by
  refine .look (.ite (fun hopen => ?_) fun _ =>
    .expected (.pure h.le_size ⟨Nat.le_refl lo, by simp⟩))
  have hnext := h.mono (Nat.le_succ lo) (Words.lt_size_of_is hopen)
  refine (parameterList_tracks hg .method hnext hstart fun _ _ _ => ⟨_, _, rfl⟩).bind fun t hi hhi
    ht => .pure hhi ?_
  exact ⟨Nat.le_of_lt ht.1, by simpa using ht.2.low_values⟩

/-! ## Variables

Initial values are expressions in the same construct. -/

theorem declarator_tracks (hg : Alike c g g' start d values) (name : Name) (h : c.Ready d lo)
    (hstart : start ≤ lo) :
    Tracks c (g.declarator name) (g'.declarator name) d lo (c.Part d 5 lo) := by
  refine .look ?_
  extract_lets finish rest rest'
  have hrest : ∀ u mid, mid ≤ c.words.size → lo ≤ mid →
      Tracks c (rest u) (rest' u) d mid (c.Part d 5 lo) := by
    intro u mid hmid hle
    refine value_tracks hg (h.mono hle hmid) (by omega) (fun _ => ⟨_, _, rfl⟩) fun value hi hvalue
      hhi hvalues => ?_
    refine .node hhi ⟨by omega, Low.node fun t ht => ?_⟩
    exact (hvalues t ht).low (by omega)
  refine .ite (fun _ => .skipGroup ?_) fun _ => hrest () lo h.le_size (Nat.le_refl lo)
  exact hrest () _ (Words.pastGroup_le_size h.le_size) (c.words.le_pastGroup lo)

theorem declaratorStep_tracks (hg : Alike c g g' start d values) (found : Array Node)
    (h : c.Ready d lo) (hstart : start ≤ lo) :
    Tracks c (g.declaratorStep found) (g'.declaratorStep found) d lo
      (Tracks.Collects (Low (c.room d + 5)) (fun _ => True) found lo) := by
  refine .eat (fun hcomma => ?_) fun _ => .pure h.le_size ⟨Nat.le_refl lo, trivial, rfl⟩
  refine (name_tracks (Words.lt_size_of_is hcomma)).bind fun name mid hmid hn => ?_
  refine (declarator_tracks hg name (h.mono (by omega) hmid) (by omega)).bind fun t hi hhi ht => ?_
  exact .pure hhi (Tracks.collects_push (by omega) ht.2)

theorem declarators_tracks (hg : Alike c g g' start d values) (first : Nat) (name : Name)
    (h : c.Ready d lo) (hstart : start ≤ lo) :
    Tracks c (g.declarators first name) (g'.declarators first name) d lo (c.Part d 6 lo) := by
  refine (declarator_tracks hg name h hstart).bind fun t mid hmid ht => ?_
  refine Tracks.bind (.collect _ _ hmid (by simpa using ht.2) fun found k hk hsize =>
    declaratorStep_tracks hg found (h.mono (by omega) hsize) (by omega)) ?_
  exact fun found hi hhi hfound => .node hhi ⟨by omega, Low.node hfound.2.2⟩

/-! ## Parts of expressions

Brackets and lambdas are levels of their own. The one part that is not is an anonymous method up to
its body. -/

variable (g) in
def groupInside (scope : Scope) (close : Kind) : Parser (List Node) := do
  bump
  let found ← g.expression false scope
  let _ ← expect close
  return found

theorem groupInside_tracks (hg : Alike c g g' start d may) (scope : Scope) (close : Kind)
    (h : c.Ready d lo) (hlo : lo < c.words.size) (hstart : start ≤ lo) (hdeep : d < c.limit) :
    Tracks c (g.groupInside scope close) (g'.groupInside scope close) (d + 1) lo fun ts hi =>
      lo < hi ∧ ∀ t ∈ ts, Low (c.room d + 1) t := by
  have hroom := room_succ hdeep
  have hnext := h.deeper hdeep (Nat.lt_succ_self lo) hlo
  refine .bump ((hg.deeper.expression hnext (by omega) false scope trivial).bind
    fun ts mid hmid hts => ?_)
  refine (expect_tracks close hmid).bind fun _ hi hhi hle => .pure hhi ?_
  exact ⟨by omega, fun t ht => (hts.2 t ht).low (by omega)⟩

/-- What is in brackets is a level deeper. -/
theorem group_tracks (hg : Alike c g g' start d may) (scope : Scope) (h : c.Ready d lo)
    (hstart : start ≤ lo) :
    Tracks c (g.group scope) (g'.group scope) d lo fun ts hi =>
      lo ≤ hi ∧ (c.words.isAny lo [.lparen, .lbracket, .lbrace] = true → lo < hi) ∧
        ∀ t ∈ ts, Low (c.room d + 1) t := by
  refine .look ?_
  extract_lets close?
  have hopen : c.words.isAny lo [.lparen, .lbracket, .lbrace] = true → close? ≠ none := by
    intro h
    obtain ⟨k, hk, heq⟩ := Words.isAny_eq_true.1 h
    simp only [List.mem_cons, List.not_mem_nil, or_false] at hk
    rcases hk with rfl | rfl | rfl <;> simp [close?, heq]
  have hword : close? ≠ none → lo < c.words.size := by
    intro h
    cases hk : c.words.kind? lo with
    | some k => exact Words.lt_size_of_kind? hk
    | none => exact absurd (by simp [close?, hk]) h
  clear_value close?
  cases close? with
  | none => exact .pure h.le_size ⟨Nat.le_refl lo, fun h => absurd rfl (hopen h), by simp⟩
  | some close =>
      have hlo := hword (by simp)
      have hlt := Words.lt_pastGroup hlo
      refine .deeper h ⟨Nat.le_of_lt hlt, fun _ => hlt, by simpa using low_skipped⟩ fun hdeep => ?_
      refine (groupInside_tracks hg scope close h hlo hstart hdeep).mono fun ts hi _ hts => ?_
      exact ⟨Nat.le_of_lt hts.1, fun _ => hts.1, hts.2⟩

theorem condition_tracks (hg : Alike c g g' start d may) (h : c.Ready d lo) (hstart : start ≤ lo) :
    Tracks c g.condition g'.condition d lo (c.Parts d 1 lo) := by
  refine .look (.ite (fun _ => ?_) fun _ => .expected (.pure h.le_size ⟨Nat.le_refl lo, by simp⟩))
  exact (group_tracks hg .group h hstart).mono fun ts hi _ hts => ⟨hts.1, hts.2.2⟩

variable (g) in
def lambdaInside : Parser Node := do
  let first ← here
  skipWhile fun ws i k =>
    k == .staticKw || (ws.isContextual i "async" && !ws.is (i + 1) .arrow)
  let parameters ←
    if ← isAt .lparen then g.parameterList .lambda
    else do
      let start ← here
      let name ← name
      node .parameter start (some name) .none []
  let _ ← expect .arrow
  let body ← if ← isAt .lbrace then pure [← g.block] else g.expression true .statement
  plain .lambdaExpression first (parameters :: body)

/-! ### Lambdas and anonymous methods

A lambda opens a construct as a whole. An anonymous method does so only with its body, so the values
of its parameters are in the construct around it. -/

/-- A lambda takes a word: a parenthesis, its only parameter or a modifier. -/
theorem lambdaInside_tracks (hg : Alike c g g' start d may) (h : c.Ready d lo) (hstart : start ≤ lo)
    (hword : c.words.isAny lo [.lparen, .ident, .staticKw] = true) (hdeep : d < c.limit) :
    Tracks c g.lambdaInside g'.lambdaInside (d + 1) lo fun t hi => lo < hi ∧
      Low (c.room d + 1) t := by
  have hroom := room_succ hdeep
  refine .here ?_
  refine (skipWhile_tracks _ h.le_size).bind fun _ n hn hskip => .look ?_
  extract_lets rest rest'
  have hrest : ∀ parameters mid, mid ≤ c.words.size → lo < mid →
      Low (c.room (d + 1) + 6) parameters →
      Tracks c (rest parameters) (rest' parameters) (d + 1) mid fun t hi => lo < hi ∧
      Low (c.room d + 1) t := by
    intro parameters mid hmid hlt hparameters
    refine (expect_tracks .arrow hmid).bind fun _ k hk hle => .look ?_
    have hready := h.deeper hdeep (Nat.lt_of_lt_of_le hlt hle) hk
    have hbody : ∀ body hi, hi ≤ c.words.size → k ≤ hi → (∀ t ∈ body, Low (c.room (d + 1) + 6) t) →
        Tracks c (plain .lambdaExpression lo (parameters :: body))
        (plain .lambdaExpression lo (parameters :: body))
          (d + 1) hi fun t hi => lo < hi ∧ Low (c.room d + 1) t := by
      intro body hi hhi hkhi hbody
      refine .node hhi ⟨by omega, (Low.node (k := c.room (d + 1) + 6) ?_).mono (by omega)⟩
      exact List.forall_mem_cons.2 ⟨hparameters, hbody⟩
    refine .ite (fun hopen => ?_) fun _ => ?_
    · refine (block_tracks hg.deeper hready (Words.lt_size_of_is hopen) (by omega)).bind fun t hi
        hhi ht => ?_
      exact hbody [t] hi hhi (Nat.le_of_lt ht.1) (by simpa using ht.2.mono (by omega))
    · refine (hg.deeper.expression hready (by omega) true .statement trivial).bind fun ts hi
        hhi hts => ?_
      exact hbody ts hi hhi hts.1 fun t ht => (hts.2 t ht).low (by omega)
  refine .ite (fun hopen => ?_) fun hopen => .here ?_
  · have hready := h.deeper hdeep (Nat.lt_succ_of_le hskip.1) (Words.lt_size_of_is hopen)
    refine (parameterList_tracks hg.deeper .lambda hready (by omega) fun _ _ _ => trivial).bind
      fun t mid hmid ht => ?_
    exact hrest t mid hmid (by omega) ht.2.low_values
  · refine (name_tracks hn).bind fun name mid hmid hname => .andNode (hrest _ mid hmid ?_ .leaf)
    -- no modifier was taken only if the parameter is ahead
    by_cases hmoved : lo < n
    · omega
    · obtain rfl : n = lo := by omega
      refine hname.2 (Words.is_eq_true.2 ?_)
      obtain ⟨k, hk, heq⟩ := Words.isAny_eq_true.1 hword
      simp only [List.mem_cons, List.not_mem_nil, or_false] at hk
      rcases hk with rfl | rfl | rfl
      · exact absurd (Words.is_eq_true.2 heq) hopen
      · exact heq
      · simp [heq] at hskip

theorem lambda_tracks (hg : Alike c g g' start d may) (h : c.Ready d lo) (hstart : start ≤ lo)
    (hword : c.words.isAny lo [.lparen, .ident, .staticKw] = true) :
    Tracks c g.lambda g'.lambda d lo fun t hi => lo < hi ∧ Low (c.room d + 1) t := by
  have hlo := Words.lt_size_of_isAny hword
  exact .deeperNode h ⟨Words.lt_pastGroup hlo, low_skipped⟩ fun hdeep => lambdaInside_tracks hg h
    hstart hword hdeep

/-- Its parameters are read in the same construct, and its body a level deeper. -/
theorem anonymousMethod_tracks (hg : Alike c g g' start d may) (h : c.Ready d lo)
    (hlo : lo < c.words.size) (hstart : start ≤ lo)
    (hmay : ∀ mid, c.words.is (lo + 1) .lparen = true → lo + 1 < mid →
      c.words.is mid .eq = true → may (.expression true .statement) (mid + 1)) :
    Tracks c g.anonymousMethod g'.anonymousMethod d lo fun t hi => lo < hi ∧ c.Value d t := by
  refine .here (.bump (.look ?_))
  have hnext := h.mono (Nat.le_succ lo) hlo
  extract_lets rest rest'
  have hrest : ∀ parameters mid, mid ≤ c.words.size → lo < mid →
      (∀ t ∈ parameters, Parameters (c.Value d) t) →
      Tracks c (rest parameters) (rest' parameters) d mid fun t hi => lo < hi ∧ c.Value d t := by
    intro parameters mid hmid hlt hparameters
    refine (expectBlock_tracks hg (h.mono (by omega) hmid) (by omega)).bind fun body hi
      hhi hbody => ?_
    refine .node hhi ⟨by omega, Low.of_kind ?_ rfl⟩
    exact LowBut.anonymous rfl hparameters fun t ht => (hbody.2 t ht).mono (by omega)
  refine .ite (fun hopen => ?_) fun _ => hrest [] (lo + 1) hlo (Nat.lt_succ_self lo) (by simp)
  have hready := hnext.mono (Nat.le_succ _) (Words.lt_size_of_is hopen)
  refine (parameterList_tracks hg .method hready (by omega) fun mid => hmay mid hopen).bind fun t
    mid hmid ht => ?_
  exact hrest [t] mid hmid (by omega) (by simpa using ht.2)

/-! ### Expressions

An expression is gone through part by part, and each part takes a word. So all parts but the first
are behind the start of the expression. -/

/-- By the word ahead: brackets, lambdas, anonymous methods, and anything else, which is taken. -/
theorem expressionStep_tracks (hg : Alike c g g' start d may) (scope : Scope) {k : Kind}
    (h : c.Ready d lo) (hk : c.words.kind? lo = some k) (hstart : start ≤ lo)
    (hmay : ∀ mid, c.words.AnonymousValue lo mid → may (.expression true .statement) mid) :
    Tracks c (g.expressionStep scope k) (g'.expressionStep scope k) d lo fun ts hi =>
      lo < hi ∧ ∀ t ∈ ts, c.Value d t := by
  have hlo := Words.lt_size_of_kind? hk
  have hgroup : ∀ scope, c.words.isAny lo [.lparen, .lbracket, .lbrace] = true →
      Tracks c (g.group scope) (g'.group scope) d lo fun ts hi => lo < hi ∧
      ∀ t ∈ ts, c.Value d t := by
    intro scope hopen
    refine (group_tracks hg scope h hstart).mono fun ts hi _ hts => ?_
    exact ⟨hts.2.1 hopen, fun t ht => (hts.2.2 t ht).but⟩
  have hlambda : c.words.isAny lo [.lparen, .ident, .staticKw] = true →
      Tracks c (g.lambda >>= fun t => pure [t]) (g'.lambda >>= fun t => pure [t]) d lo fun ts hi =>
        lo < hi ∧ ∀ t ∈ ts, c.Value d t := by
    intro hword
    refine (lambda_tracks hg h hstart hword).bind fun t hi hhi ht => .pure hhi ?_
    exact ⟨ht.1, by simpa using ht.2.but⟩
  have hany : ∀ ks : List Kind, k ∈ ks → c.words.isAny lo ks = true :=
    fun ks hks => Words.isAny_eq_true.2 ⟨k, hks, hk⟩
  refine .ite (fun heq => .look (.ite (fun _ => hlambda ?_) fun _ => hgroup _ ?_)) fun _ => ?_
  · exact hany _ (by simp [eq_of_beq heq])
  · exact hany _ (by simp [eq_of_beq heq])
  refine .ite (fun heq => hgroup _ (hany _ (by simp [eq_of_beq heq]))) fun _ => ?_
  refine .ite (fun heq => .look (hgroup _ (hany _ (by simp [eq_of_beq heq])))) fun _ => ?_
  refine .ite (fun _ => .lookWithin (by simp [Words.typeArgumentsInExpression?, c.arguments]) ?_)
    fun _ => .look ?_
  · -- type arguments, or a comparison
    split
    · rename_i past hpast
      have hlt := c.words.lt_of_typeArgumentsInExpression? hpast
      have hsize := Words.le_size_of_typeArgumentsEnd? (Option.filter_eq_some_iff.1 hpast).1 hlo
      exact .moveTo (.pure hsize ⟨hlt, by simp⟩)
    · exact .bump (.pure hlo ⟨Nat.lt_succ_self lo, by simp⟩)
  refine .ite (fun hident => hlambda (hany _ ?_)) fun _ => .look ?_
  · simp only [Bool.and_eq_true, beq_iff_eq] at hident
    simp [hident.1]
  refine .ite (fun hmodifier => hlambda (hany _ ?_)) fun _ => .look ?_
  · simp only [Bool.and_eq_true, Bool.or_eq_true, beq_iff_eq] at hmodifier
    rcases hmodifier.1 with rfl | rfl <;> simp
  refine .ite (fun hdelegate => ?_) fun _ => .bump (.pure hlo ⟨Nat.lt_succ_self lo, by simp⟩)
  have hword : c.words.is lo .delegateKw = true := by
    simp only [Bool.and_eq_true, beq_iff_eq] at hdelegate
    exact Words.is_eq_true.2 (hdelegate.1 ▸ hk)
  refine (anonymousMethod_tracks hg h hlo hstart fun mid hopen hmid heq => ?_).bind fun t hi hhi ht
    => .pure hhi ?_
  · exact hmay _ ⟨lo, mid, Nat.le_refl lo, hmid, rfl, hword, hopen, heq⟩
  · exact ⟨ht.1, by simpa using ht.2⟩

/-- Whether an expression ends is only looked at. -/
theorem expressionEnds_tracks (toComma : Bool) (scope : Scope) (first : Nat) (k : Kind)
    (hlo : lo ≤ c.words.size) :
    Tracks c (expressionEnds toComma scope first k) (expressionEnds toComma scope first k) d lo
      fun _ hi => hi = lo := by
  refine .ite (fun _ => .pure hlo rfl) fun _ => .lookWithin ?_ ?_
  · simp [Words.missesSemicolon, Words.startsVariable, c.types]
  · exact .ite (fun _ => .pure hlo rfl) fun _ => .pure hlo rfl

/-- One step, unless the expression ends here. -/
theorem scanStep_tracks (hg : Alike c g g' start d may) (toComma : Bool) (scope : Scope)
    (first : Nat) (found : Array Node) (h : c.Ready d lo) (hstart : start ≤ lo)
    (hmay : ∀ mid, c.words.AnonymousValue lo mid → may (.expression true .statement) mid) :
    Tracks c (g.scanStep toComma scope first found) (g'.scanStep toComma scope first found) d lo
      (Tracks.Collects (c.Value d) (fun _ => True) found lo) := by
  refine .look ?_
  split
  · exact .pure h.le_size ⟨Nat.le_refl lo, trivial, rfl⟩
  · rename_i k hk
    refine (expressionEnds_tracks toComma scope first k h.le_size).bind ?_
    rintro ends _ hmid rfl
    refine .ite (fun _ => .pure hmid ⟨Nat.le_refl _, trivial, rfl⟩) fun _ => ?_
    refine (expressionStep_tracks hg scope h hk hstart hmay).bind fun ts hi hhi hts => ?_
    exact .pure hhi (Tracks.collects_more hts.1 hts.2)

/-- An expression depends on what stands after its first word only: nothing in it is read from where
it starts, and no deeper only the values of parameters of anonymous methods. -/
theorem expressionBody_tracks (hg : Alike c g g' lo d may) (h : c.Ready d lo) (toComma : Bool)
    (scope : Scope) (hmay : ∀ mid, c.words.AnonymousValue lo mid →
      may (.expression true .statement) mid) :
    Tracks c (g.expressionBody toComma scope) (g'.expressionBody toComma scope) d lo fun ts hi =>
      lo ≤ hi ∧ ∀ t ∈ ts, c.Value d t := by
  refine .here (Tracks.bind (.collect _ _ h.le_size (by simp) fun found mid hle hmid =>
    scanStep_tracks hg toComma scope lo found (h.mono hle hmid) hle fun k hk =>
      hmay k (hk.mono hle)) ?_)
  exact fun found hi hhi hfound => .pure hhi ⟨hfound.1, hfound.2.2⟩

theorem expressionStatement_tracks (hg : Alike c g g' start d values) (h : c.Ready d lo)
    (hstart : start < lo) :
    Tracks c g.expressionStatement g'.expressionStatement d lo fun ts hi => lo ≤ hi ∧
      ∀ t ∈ ts, c.Value d t := by
  refine (hg.value h hstart false .statement).bind fun ts mid hmid hts => ?_
  exact (expect_tracks .semi hmid).bind fun _ hi hhi hle =>
    .pure hhi ⟨Nat.le_trans hts.1 hle, hts.2⟩

/-! ## Bodies

A body is a block, or an expression behind an arrow. -/

/-- An expression after an arrow. -/
theorem arrow_tracks (hg : Alike c g g' start d values) (h : c.Ready d lo) (hlo : lo < c.words.size)
    (hstart : start ≤ lo) :
    Tracks c (bump >>= fun _ => g.expressionStatement)
      (bump >>= fun _ => g'.expressionStatement) d lo
      (c.Parts d 4 lo) := by
  have hnext := h.mono (Nat.le_succ lo) hlo
  refine .bump ((expressionStatement_tracks hg hnext (by omega)).mono fun ts hi _ hts => ?_)
  exact ⟨Nat.le_of_succ_le hts.1, fun t ht => (hts.2 t ht).low (by omega)⟩

theorem memberBody_tracks (hg : Alike c g g' start d values) (h : c.Ready d lo)
    (hstart : start ≤ lo) :
    Tracks c g.memberBody g'.memberBody d lo (c.Parts d 4 lo) := by
  refine .look ?_
  split
  · refine (block_tracks hg h (Words.lt_size_of_kind? ‹_›) hstart).bind fun t hi hhi ht =>
      .pure hhi ?_
    exact ⟨Nat.le_of_lt ht.1, by simpa using ht.2.mono (by omega)⟩
  · exact arrow_tracks hg h (Words.lt_size_of_kind? ‹_›) hstart
  · exact .bump (.pure (Words.lt_size_of_kind? ‹_›) ⟨Nat.le_succ lo, by simp⟩)
  · exact .expected (.pure h.le_size ⟨Nat.le_refl lo, by simp⟩)

end Nonterminals

end SharpTokens.Grammar
