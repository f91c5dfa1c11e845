import Mathlib.Data.List.TakeWhile
import SharpTokens.Proofs.Directive.Operands

/-!
# Which texts are conditions

The grammar of conditions as a relation between texts and conditions: `Condition.Says l n a cs` says
that `cs` is `a`, written at the level `l`, where `n` negations and pairs of parentheses stand
around some name and no more around any.

The reader finds exactly this. What it takes off a text is written so (`Condition.sound_operand`). A
text that is written so is taken off whatever starts with it, if no sign or name goes on behind it
(`Condition.complete`): a reader of a level goes on from the part it read before as from an operand,
since all signs of a level group to the left.

What a text says is a matter of the text and not of the reader, so `Regions.eval_decides_conditions`
is about the relation: a value is given exactly for the texts that are written as conditions, and it
is the one that the meaning of the condition asks for.
-/

namespace SharpTokens

abbrev Definitions := String → Bool

def Regions.definitions (r : Regions) : Definitions := r.defined.contains

namespace Condition

/-! ## The grammar

A level has binary signs, and what stands between them is written at the next level; the innermost
one has names, negations and parentheses. That signs of one level group to the left is in the rule
for them: the operand on the right is of the inner level. -/

/-- How tightly signs bind, from the loosest ones on. -/
inductive Level where
  | or
  | and
  | eq
  | unary

namespace Level

def signs : Level → List Sign
  | or => [(['|', '|'], Condition.or)]
  | and => [(['&', '&'], Condition.and)]
  | eq => [(['=', '='], same), (['!', '='], differ)]
  | unary => []

/-- The level of what stands between the signs of a level. -/
def inner : Level → Level
  | or => and
  | and => eq
  | eq => unary
  | unary => unary

end Level

/-- A sign or a name with blanks before it. -/
def Spaced (sign cs : List Char) : Prop := ∃ gap, (∀ c ∈ gap, isGap c = true) ∧ cs = gap ++ sign

def IsName (word : List Char) : Prop := word ≠ [] ∧ ∀ c ∈ word, isNameChar c = true

/-- How a condition is written, with so many negations and parentheses one in another. -/
inductive Says : Level → Nat → Condition → List Char → Prop
  /-- a name -/
  | name {word cs : List Char} : IsName word → Spaced word cs →
      Says .unary 0 (symbol (String.ofList word)) cs
  /-- `!` and what it negates -/
  | not {n : Nat} {a : Condition} {s cs : List Char} :
      Spaced ['!'] s → Says .unary n a cs → Says .unary (n + 1) (not a) (s ++ cs)
  /-- a condition of any level in parentheses -/
  | parens {n : Nat} {a : Condition} {s cs t : List Char} :
      Spaced ['('] s → Says .or n a cs → Spaced [')'] t → Says .unary (n + 1) a (s ++ (cs ++ t))
  /-- what stands between signs, without a sign -/
  | alone {l : Level} {n : Nat} {a : Condition} {cs : List Char} :
      Says l.inner n a cs → Says l n a cs
  /-- a sign of the level: what is before it may have more of them -/
  | binary {l : Level} {sign : List Char} {build : Condition → Condition → Condition} {m n : Nat}
      {a b : Condition} {cs s ds : List Char} :
      (sign, build) ∈ l.signs → Says l m a cs → Spaced sign s → Says l.inner n b ds →
      Says l (max m n) (build a b) (cs ++ (s ++ ds))

/-- A text says a condition: it is written at some level, with at most 63 negations and parentheses
one in another, and blanks may follow. -/
def Written (a : Condition) (text : List Char) : Prop :=
  ∃ n cs gap, n ≤ 63 ∧ Says .or n a cs ∧ (∀ c ∈ gap, isGap c = true) ∧ text = cs ++ gap

/-! ## The meaning of conditions

`true` and `false` are names like others to the reader, and get their meaning here. -/

/-- A condition holds where some symbols are defined. -/
def Holds (defined : Definitions) : Condition → Prop
  | symbol name => name = "true" ∨ name ≠ "false" ∧ defined name = true
  | not a => ¬ Holds defined a
  | and a b => Holds defined a ∧ Holds defined b
  | or a b => Holds defined a ∨ Holds defined b
  | same a b => Holds defined a ↔ Holds defined b
  | differ a b => ¬ (Holds defined a ↔ Holds defined b)

instance decidableHolds (defined : Definitions) : (a : Condition) → Decidable (a.Holds defined)
  | symbol name =>
      inferInstanceAs (Decidable (name = "true" ∨ name ≠ "false" ∧ defined name = true))
  | not a =>
    have := decidableHolds defined a
    inferInstanceAs (Decidable (¬ a.Holds defined))
  | and a b =>
    have := decidableHolds defined a
    have := decidableHolds defined b
    inferInstanceAs (Decidable (a.Holds defined ∧ b.Holds defined))
  | or a b =>
    have := decidableHolds defined a
    have := decidableHolds defined b
    inferInstanceAs (Decidable (a.Holds defined ∨ b.Holds defined))
  | same a b =>
    have := decidableHolds defined a
    have := decidableHolds defined b
    inferInstanceAs (Decidable (a.Holds defined ↔ b.Holds defined))
  | differ a b =>
    have := decidableHolds defined a
    have := decidableHolds defined b
    inferInstanceAs (Decidable (¬ (a.Holds defined ↔ b.Holds defined)))

/-- Evaluating a condition tells whether it holds. -/
theorem value_iff_holds (symbols : List String) (a : Condition) :
    a.value symbols = true ↔ a.Holds symbols.contains := by
  induction a with
  | symbol name => simp [value, Holds]
  | not a ih => rw [value, Holds, ← ih, Bool.not_eq_true', Bool.not_eq_true]
  | and a b iha ihb => rw [value, Holds, ← iha, ← ihb, Bool.and_eq_true]
  | or a b iha ihb => rw [value, Holds, ← iha, ← ihb, Bool.or_eq_true]
  | same a b iha ihb => rw [value, Holds, ← iha, ← ihb, beq_iff_eq, Bool.eq_iff_iff]
  | differ a b iha ihb => rw [value, Holds, ← iha, ← ihb, bne_iff_ne, Ne, Bool.eq_iff_iff]

/-! ## Reading by levels

The reader is written level by level, and each is a chain of signs over the one inside it. -/

/-- The reader of a level, with up to `depth` operands one in another. -/
def Level.reader (depth : Nat) : Level → Reader
  | or => disjunction (operand depth)
  | and => chain Level.and.signs (chain Level.eq.signs (operand depth))
  | eq => chain Level.eq.signs (operand depth)
  | unary => operand depth

/-- All levels but the innermost are read in the same way. -/
theorem reader_eq (depth : Nat) {l : Level} (h : l ≠ .unary) :
    l.reader depth = chain l.signs (l.inner.reader depth) := by
  cases l with
  | unary => exact absurd rfl h
  | _ => rfl

variable {depth n : Nat} {l : Level} {a : Condition} {sign cs s rest gap : List Char} {c : Char}
variable {build : Condition → Condition → Condition}

/-! ## Signs

Where a sign is found it stands there with blanks before it, and where it stands so it is found. -/

/-- A sign that is taken off a text stands at its start. -/
theorem spaced_of_eat (h : eat sign cs = some rest) : ∃ s, Spaced sign s ∧ cs = s ++ rest := by
  simp only [eat] at h
  split at h
  · rename_i hprefix
    cases h
    obtain ⟨tail, htail⟩ := List.isPrefixOf_iff_prefix.1 hprefix
    refine ⟨cs.takeWhile isGap ++ sign, ⟨_, fun c hc => List.mem_takeWhile_imp hc, rfl⟩, ?_⟩
    rw [← htail, List.drop_left, List.append_assoc, htail, List.takeWhile_append_dropWhile]
  · cases h

/-- A sign that is taken off is one of the list and was written. -/
theorem spaced_of_eatSign {signs : List Sign} (h : eatSign signs cs = some (build, rest)) :
    ∃ sign s, (sign, build) ∈ signs ∧ Spaced sign s ∧ cs = s ++ rest := by
  induction signs with
  | nil => cases h
  | cons e signs ih =>
      rw [eatSign] at h
      split at h
      · cases h
        obtain ⟨s, hs, rfl⟩ := spaced_of_eat ‹_›
        exact ⟨_, s, List.mem_cons_self, hs, rfl⟩
      · obtain ⟨sign, s, hmem, hs, rfl⟩ := ih h
        exact ⟨sign, s, List.mem_cons_of_mem _ hmem, hs, rfl⟩

/-- Blanks before a sign are passed over. -/
theorem eat_eq (hgap : ∀ c ∈ gap, isGap c = true) (hc : isGap c = false) (sign cs : List Char) :
    eat sign (gap ++ c :: cs) = if sign.isPrefixOf (c :: cs) then some ((c :: cs).drop sign.length)
      else none := by
  have hdrop : (gap ++ c :: cs).dropWhile isGap = c :: cs := by
    rw [List.dropWhile_append_of_pos hgap, List.dropWhile_cons, hc]
    rfl
  simp only [eat, hdrop]

/-- A sign that is written is taken off. -/
theorem eat_of_spaced (h : Spaced (c :: sign) s) (hc : isGap c = false) (rest : List Char) :
    eat (c :: sign) (s ++ rest) = some rest := by
  obtain ⟨gap, hgap, rfl⟩ := h
  have hprefix : (c :: sign).isPrefixOf (c :: (sign ++ rest)) = true :=
    List.isPrefixOf_iff_prefix.2 ⟨rest, rfl⟩
  rw [List.append_assoc, List.cons_append, eat_eq hgap hc, hprefix, if_pos rfl]
  simp

/-- A sign is told by its first character. -/
theorem eat_of_ne {d : Char} (hgap : ∀ c ∈ gap, isGap c = true) (hc : isGap c = false) (hne : d ≠ c)
    (sign cs : List Char) :
    eat (d :: sign) (gap ++ c :: cs) = none := by
  rw [eat_eq hgap hc, if_neg]
  simp [hne]

/-- There is no sign in blanks. -/
theorem eat_blank (hgap : ∀ c ∈ gap, isGap c = true) : eat (c :: sign) gap = none := by
  have hdrop : gap.dropWhile isGap = [] := List.dropWhile_eq_nil_iff.2 hgap
  simp [eat, hdrop]

/-! ## What is read is written

By induction on the depth that is left, and for each depth from the innermost level outwards. -/

/-- What a reader of a level takes off a text is written at that level. -/
def Sound (depth : Nat) (l : Level) : Prop := ∀ ⦃cs a rest⦄, l.reader depth cs = some (a, rest) →
  ∃ n taken, n < depth ∧ Says l n a taken ∧ cs = taken ++ rest

/-- What is read after a part that is written at a level makes up a text of that level with it. -/
theorem Sound.chainFrom (h : Sound depth l.inner) {k m : Nat} {left : Condition}
    {before : List Char} (hm : m < depth) (hleft : Says l m left before)
    (hread : chainFrom l.signs (l.inner.reader depth) k left cs = some (a, rest)) :
    ∃ n taken, n < depth ∧ Says l n a taken ∧ before ++ cs = taken ++ rest := by
  induction k generalizing m left before cs with
  | zero => cases hread
  | succ k ih =>
      rw [Condition.chainFrom] at hread
      split at hread
      · cases hread
        exact ⟨m, before, hm, hleft, rfl⟩
      · rename_i hsign
        obtain ⟨sign, s, hmem, hs, rfl⟩ := spaced_of_eatSign hsign
        split at hread
        · cases hread
        · rename_i hright
          obtain ⟨n, taken, hn, hsays, rfl⟩ := h hright
          obtain ⟨n', taken', hn', hsays', heq⟩ :=
            ih (Nat.max_lt.2 ⟨hm, hn⟩) (.binary hmem hleft hs hsays) hread
          exact ⟨n', taken', hn', hsays', by simpa using heq⟩

/-- From the level between the signs to the level of the signs. -/
theorem Sound.outer (h : Sound depth l.inner) : Sound depth l := by
  intro cs a rest hread
  by_cases hl : l = .unary
  · subst hl
    exact h hread
  · rw [reader_eq depth hl, chain] at hread
    split at hread
    · cases hread
    · rename_i hfirst
      obtain ⟨n, taken, hn, hsays, rfl⟩ := h hfirst
      exact h.chainFrom hn (.alone hsays) hread

/-- A name that is read is a name that is written. -/
theorem says_of_name (h : name cs = some (a, rest)) :
    ∃ taken, Says .unary 0 a taken ∧ cs = taken ++ rest := by
  simp only [name] at h
  split at h
  · cases h
  · rename_i hne
    cases h
    refine ⟨_, .name ⟨hne, fun c hc => List.mem_takeWhile_imp hc⟩
      ⟨cs.takeWhile isGap, fun c hc => List.mem_takeWhile_imp hc, rfl⟩, ?_⟩
    rw [List.append_assoc, List.takeWhile_append_dropWhile, List.takeWhile_append_dropWhile]

/-- A reader of operands that is right makes one of all conditions. -/
theorem Sound.disjunction (h : Sound depth .unary) : Sound depth .or :=
  Sound.outer (l := .or) (Sound.outer (l := .and) (Sound.outer (l := .eq) h))

/-- **What is read of a text is written so.** -/
theorem sound_operand (depth : Nat) : Sound depth .unary := by
  induction depth with
  | zero => exact nofun
  | succ depth ih =>
      intro cs a rest hread
      rw [Level.reader, operand] at hread
      split at hread
      · rename_i hsign
        obtain ⟨s, hs, rfl⟩ := spaced_of_eat hsign
        obtain ⟨r, hr, heq⟩ := Option.map_eq_some_iff.1 hread
        cases heq
        obtain ⟨n, taken, hn, hsays, rfl⟩ := ih hr
        exact ⟨n + 1, s ++ taken, Nat.succ_lt_succ hn, .not hs hsays, by simp⟩
      · split at hread
        · rename_i hsign
          obtain ⟨s, hs, rfl⟩ := spaced_of_eat hsign
          split at hread
          · cases hread
          · rename_i hinside
            obtain ⟨r, hr, heq⟩ := Option.map_eq_some_iff.1 hread
            cases heq
            obtain ⟨n, taken, hn, hsays, rfl⟩ := ih.disjunction hinside
            obtain ⟨t, ht, rfl⟩ := spaced_of_eat hr
            exact ⟨n + 1, s ++ (taken ++ t), Nat.succ_lt_succ hn, .parens hs hsays ht, by simp⟩
        · obtain ⟨taken, hsays, rfl⟩ := says_of_name hread
          exact ⟨0, taken, Nat.succ_pos _, hsays, rfl⟩

/-! ## What is written is read

The reader takes as much as it can, so a text is only read as it is written if what follows does not
go on with it (`Condition.Stops`). Chains are read from the left, and to follow them `goesOn` starts
from any operand that was read before. -/

/-- The characters that signs of a level, and of the levels inside it, start with. -/
def Level.heads : Level → List Char
  | or => ['|', '&', '=', '!']
  | and => ['&', '=', '!']
  | eq => ['=', '!']
  | unary => []

/-- No name goes on with what is left of a text, nor anything of a level. -/
inductive Stops (l : Level) : List Char → Prop
  | blank {gap : List Char} : (∀ c ∈ gap, isGap c = true) → Stops l gap
  | mark {gap cs : List Char} {c : Char} :
      (∀ c ∈ gap, isGap c = true) → isGap c = false → isNameChar c = false →
      c ∉ l.heads → Stops l (gap ++ c :: cs)

theorem isNameChar_of_isGap (h : isGap c = true) : isNameChar c = false := by
  simp only [isGap, Bool.or_eq_true, beq_iff_eq, or_assoc] at h
  rcases h with rfl | rfl | rfl | rfl | rfl
  all_goals decide

/-- What stops a level stops what is inside it. -/
theorem Stops.inner (h : Stops l rest) : Stops l.inner rest := by
  have hheads : l.inner.heads ⊆ l.heads := by cases l <;> decide
  cases h with
  | blank hgap => exact .blank hgap
  | mark hgap hc hname hhead => exact .mark hgap hc hname fun hmem => hhead (hheads hmem)

/-- A name ends where something stops. -/
theorem Stops.name_ends (h : Stops l rest) : ∀ d tail, rest = d :: tail → isNameChar d = false := by
  rintro d tail rfl
  have hblank : ∀ {gap : List Char}, (∀ c ∈ gap, isGap c = true) → d ∈ gap → isNameChar d = false :=
    fun hgap hd => isNameChar_of_isGap (hgap d hd)
  generalize hrest : d :: tail = rest at h
  cases h with
  | blank hgap => exact hblank hgap (hrest ▸ List.mem_cons_self)
  | @mark gap cs c hgap _ hname _ =>
      cases gap with
      | nil =>
          cases hrest
          exact hname
      | cons e gap =>
          cases hrest
          exact hblank hgap List.mem_cons_self

/-- Where a text stops, no sign of the level is ahead. -/
theorem Stops.eatSign (h : Stops l rest) : eatSign l.signs rest = none := by
  have heat : ∀ c ∈ l.heads, ∀ sign, eat (c :: sign) rest = none := by
    intro c hc sign
    cases h with
    | blank hgap => exact eat_blank hgap
    | mark hgap hgap' _ hhead => exact eat_of_ne hgap hgap' (fun heq => hhead (heq ▸ hc)) sign _
  cases l with
  | unary => rfl
  | or => rw [Level.signs, Condition.eatSign, heat _ (by decide)]; rfl
  | and => rw [Level.signs, Condition.eatSign, heat _ (by decide)]; rfl
  | eq =>
      rw [Level.signs, Condition.eatSign, heat _ (by decide), Condition.eatSign, heat _ (by decide)]
      rfl

/-- Nothing of the inner level goes on with a mark. -/
theorem Stops.of_spaced (h : Spaced (c :: sign) s) (hc : isGap c = false)
    (hname : isNameChar c = false) (hhead : c ∉ l.heads) (rest : List Char) :
    Stops l (s ++ rest) := by
  obtain ⟨gap, hgap, rfl⟩ := h
  rw [List.append_assoc]
  exact .mark hgap hc hname hhead

/-- A sign of a level is found as such. -/
theorem eatSign_of_spaced (h : (sign, build) ∈ l.signs) (hs : Spaced sign s) (rest : List Char) :
    eatSign l.signs (s ++ rest) = some (build, rest) ∧ Stops l.inner (s ++ rest) := by
  cases l with
  | unary => cases h
  | or =>
      cases List.mem_singleton.1 h
      exact ⟨by simp only [Level.signs, eatSign, eat_of_spaced hs (by decide)],
        .of_spaced hs (by decide) (by decide) (by decide) rest⟩
  | and =>
      cases List.mem_singleton.1 h
      exact ⟨by simp only [Level.signs, eatSign, eat_of_spaced hs (by decide)],
        .of_spaced hs (by decide) (by decide) (by decide) rest⟩
  | eq =>
      rcases List.mem_cons.1 h with heq | h
      · cases heq
        exact ⟨by simp only [Level.signs, eatSign, eat_of_spaced hs (by decide)],
          .of_spaced hs (by decide) (by decide) (by decide) rest⟩
      · cases List.mem_singleton.1 h
        have hother : eat ['=', '='] (s ++ rest) = none := by
          obtain ⟨gap, hgap, rfl⟩ := hs
          rw [List.append_assoc]
          exact eat_of_ne hgap (by decide) (by decide) _ _
        exact ⟨by simp only [Level.signs, eatSign, hother, eat_of_spaced hs (by decide)],
          .of_spaced hs (by decide) (by decide) (by decide) rest⟩

/-- A sign takes characters, so a chain has fewer signs than characters, and it does not matter by
how many more its signs are bounded. -/
theorem chainFrom_enough {signs : List Sign} {read : Reader} (hread : ReadsOn read)
    (hsigns : ∀ e ∈ signs, e.1 ≠ []) {k k' : Nat} (left : Condition) (hk : rest.length < k)
    (hk' : rest.length < k') :
    chainFrom signs read k left rest = chainFrom signs read k' left rest := by
  induction k generalizing k' left rest with
  | zero => cases hk
  | succ k ih =>
      obtain ⟨k', rfl⟩ := Nat.exists_eq_succ_of_ne_zero (Nat.ne_zero_of_lt hk')
      rw [chainFrom, chainFrom]
      split
      · rfl
      · rename_i later hsign
        split
        · rfl
        · rename_i right later' hright
          obtain ⟨sign, s, hmem, ⟨gap, -, rfl⟩, rfl⟩ := spaced_of_eatSign hsign
          have hpos : 0 < sign.length := List.length_pos_iff.2 (hsigns _ hmem)
          have hle := (hread hright).length_le
          simp only [List.length_append] at hk hk'
          exact ih _ (by omega) (by omega)

/-- At every level, what is left is an end of the text. -/
theorem readsOn_reader (depth : Nat) (l : Level) : ReadsOn (l.reader depth) := by
  have hunary := readsOn_operand depth
  cases l with
  | unary => exact hunary
  | eq => exact hunary.chain
  | and => exact hunary.chain.chain
  | or => exact hunary.disjunction

/-- Goes on from an operand with the signs of a level, as long as there are some. -/
def goesOn (depth : Nat) (l : Level) (left : Condition) (rest : List Char) :
    Option (Condition × List Char) :=
  chainFrom l.signs (l.inner.reader depth) (rest.length + 1) left rest

/-- Without a sign ahead a chain is at its end. -/
theorem goesOn_of_stops (h : Stops l rest) (left : Condition) :
    goesOn depth l left rest = some (left, rest) := by
  rw [goesOn, chainFrom, h.eatSign]

theorem goesOn_unary (left : Condition) (rest : List Char) :
    goesOn depth .unary left rest = some (left, rest) := rfl

/-- A sign and an operand make one operand with the one before, from which the chain goes on. -/
theorem goesOn_sign {left right : Condition} {later : List Char}
    (h : eatSign l.signs cs = some (build, rest))
    (hright : l.inner.reader depth rest = some (right, later)) :
    goesOn depth l left cs = goesOn depth l (build left right) later := by
  have hsigns : ∀ e ∈ l.signs, e.1 ≠ [] := by cases l <;> simp [Level.signs]
  obtain ⟨sign, s, hmem, ⟨gap, -, rfl⟩, rfl⟩ := spaced_of_eatSign h
  have hpos : 0 < sign.length := List.length_pos_iff.2 (hsigns _ hmem)
  have hle := (readsOn_reader depth l.inner hright).length_le
  rw [goesOn, chainFrom, h]
  simp only [hright]
  refine chainFrom_enough (readsOn_reader depth l.inner) hsigns _ ?_ (Nat.lt_succ_self _)
  simp only [List.length_append]
  omega

/-! ### Operands -/

/-- A negation costs one level of depth. -/
theorem operand_not (hs : Spaced ['!'] s) (cs : List Char) :
    operand (depth + 1) (s ++ cs) = (operand depth cs).map fun r => (not r.1, r.2) := by
  rw [operand, eat_of_spaced hs (by decide)]

/-- Parentheses cost one level of depth, and anything may stand in them. -/
theorem operand_parens {t : List Char} (hs : Spaced ['('] s) (ht : Spaced [')'] t)
    (hinside : disjunction (operand depth) cs = some (a, t ++ rest)) :
    operand (depth + 1) (s ++ cs) = some (a, rest) := by
  have hnot : eat ['!'] (s ++ cs) = none := by
    obtain ⟨gap, hgap, rfl⟩ := hs
    rw [List.append_assoc]
    exact eat_of_ne hgap (by decide) (by decide) _ _
  rw [operand, hnot, eat_of_spaced hs (by decide)]
  simp only [hinside, eat_of_spaced ht (show isGap ')' = false by decide)]
  rfl

/-- A name is read as far as it goes. -/
theorem operand_name {word : List Char} (hword : IsName word) (hs : Spaced word s)
    (hrest : ∀ d tail, rest = d :: tail → isNameChar d = false) :
    operand (depth + 1) (s ++ rest) = some (symbol (String.ofList word), rest) := by
  obtain ⟨gap, hgap, rfl⟩ := hs
  obtain ⟨hne, hchars⟩ := hword
  obtain ⟨c, tail, rfl⟩ := List.exists_cons_of_ne_nil hne
  have hc : isNameChar c = true := hchars c List.mem_cons_self
  have hgap' : isGap c = false := by
    by_contra hblank
    rw [isNameChar_of_isGap (by simpa using hblank)] at hc
    cases hc
  have hsign : ∀ d, isNameChar d = false → eat [d] (gap ++ c :: (tail ++ rest)) = none := by
    intro d hd
    refine eat_of_ne hgap hgap' ?_ _ _
    rintro rfl
    rw [hc] at hd
    cases hd
  have htake : rest.takeWhile isNameChar = [] ∧ rest.dropWhile isNameChar = rest := by
    cases rest with
    | nil => exact ⟨rfl, rfl⟩
    | cons d rest => simp [hrest d rest rfl]
  have hdrop : (gap ++ c :: (tail ++ rest)).dropWhile isGap = (c :: tail) ++ rest := by
    rw [List.dropWhile_append_of_pos hgap, List.dropWhile_cons, hgap']
    rfl
  rw [List.append_assoc, List.cons_append, operand, hsign '!' (by decide), hsign '(' (by decide)]
  simp only [name, hdrop, List.takeWhile_append_of_pos hchars, List.dropWhile_append_of_pos hchars,
    htake.1, htake.2, List.append_nil]

/-! ### Levels -/

/-- **What is written at a level is read**, and then its reader goes on from there. -/
theorem complete (h : Says l n a cs) {depth : Nat} (hdepth : n < depth) {rest : List Char}
    (hrest : Stops l.inner rest) :
    l.reader depth (cs ++ rest) = goesOn depth l a rest := by
  -- by induction on how the text is written, for any depth that is enough and any rest that stops
  -- it
  induction h generalizing depth rest with
  | name hword hs =>
      obtain ⟨depth, rfl⟩ := Nat.exists_eq_succ_of_ne_zero (Nat.ne_zero_of_lt hdepth)
      rw [goesOn_unary]
      exact operand_name hword hs hrest.name_ends
  | @not n a s cs hs _ ih =>
      obtain ⟨depth, rfl⟩ := Nat.exists_eq_succ_of_ne_zero (Nat.ne_zero_of_lt hdepth)
      have hoperand : operand depth (cs ++ rest) = some (a, rest) :=
        ih (Nat.lt_of_succ_lt_succ hdepth) hrest
      rw [goesOn_unary, List.append_assoc]
      show operand (depth + 1) (s ++ (cs ++ rest)) = _
      rw [operand_not hs, hoperand]
      rfl
  | @parens n a s cs t hs _ ht ih =>
      obtain ⟨depth, rfl⟩ := Nat.exists_eq_succ_of_ne_zero (Nat.ne_zero_of_lt hdepth)
      have hclose : Stops .or (t ++ rest) := .of_spaced ht (by decide) (by decide) (by decide) rest
      have hinside : disjunction (operand depth) (cs ++ (t ++ rest)) = some (a, t ++ rest) :=
        (ih (Nat.lt_of_succ_lt_succ hdepth) hclose.inner).trans (goesOn_of_stops hclose a)
      rw [goesOn_unary, List.append_assoc, List.append_assoc]
      exact operand_parens hs ht hinside
  | @alone l n a cs _ ih =>
      by_cases hl : l = .unary
      · subst hl
        exact ih hdepth hrest
      · have hfirst : l.inner.reader depth (cs ++ rest) = some (a, rest) :=
          (ih hdepth hrest.inner).trans (goesOn_of_stops hrest a)
        rw [reader_eq depth hl, chain, hfirst]
        rfl
  | @binary l sign build m n a b cs s ds hsign _ hs _ iha ihb =>
      obtain ⟨hm, hn⟩ := Nat.max_lt.1 hdepth
      obtain ⟨heat, hstops⟩ := eatSign_of_spaced hsign hs (ds ++ rest)
      have hright : l.inner.reader depth (ds ++ rest) = some (b, rest) :=
        (ihb hn hrest.inner).trans (goesOn_of_stops hrest b)
      rw [List.append_assoc, List.append_assoc, iha hm hstops]
      exact goesOn_sign heat hright

/-- **A text is read as a condition exactly if it is written as one.** -/
theorem parse_eq_some_iff {text : List Char} : parse text = some a ↔ Written a text := by
  constructor
  · intro h
    rw [parse] at h
    split at h
    · cases h
    · rename_i rest hread
      split at h
      · rename_i hgap
        cases h
        obtain ⟨n, cs, hn, hsays, rfl⟩ := (sound_operand maxDepth).disjunction hread
        exact ⟨n, cs, rest, Nat.le_of_lt_succ hn, hsays, List.all_eq_true.1 hgap, rfl⟩
      · cases h
  · rintro ⟨n, cs, gap, hn, hsays, hgap, rfl⟩
    have hstops : Stops .or gap := .blank hgap
    have hread : disjunction (operand maxDepth) (cs ++ gap) = some (a, gap) :=
      (complete hsays (Nat.lt_succ_of_le hn) hstops.inner).trans (goesOn_of_stops hstops a)
    rw [parse, hread]
    simp only [List.all_eq_true.2 hgap, if_true]

/-- A name may be negated 63 times, not once more. -/
example : (parse (List.replicate 63 '!' ++ ['A'])).isSome = true ∧
    parse (List.replicate 64 '!' ++ ['A']) = none := by
  decide +kernel

end Condition

/-- **A condition is evaluated exactly if it is one.** A text has a value if it is written as a
condition with at most 63 negations and parentheses one in another, and the value says whether the
condition holds where the symbols are defined that are. Any other text is an invalid directive.
Reading stays within the text: what is left of it is an end of it. -/
theorem Regions.eval_decides_conditions (r : Regions) (text : List Char) :
    (∀ v, r.eval text = .ok v ↔ ∃ a, Condition.Written a text ∧
      (v = true ↔ a.Holds r.definitions)) ∧
      (r.eval text = .error .invalidDirective ↔ ¬ ∃ a, Condition.Written a text) ∧
      Condition.ReadsOn (Condition.disjunction (Condition.operand Condition.maxDepth)) := by
  have hparse : ∀ a, Condition.parse text = some a ↔ Condition.Written a text :=
    fun a => Condition.parse_eq_some_iff
  refine ⟨fun v => ?_, ?_, (Condition.readsOn_operand Condition.maxDepth).disjunction⟩
  · simp only [← hparse, Regions.eval]
    cases Condition.parse text with
    | none => simp
    | some a =>
        simp only [Except.ok.injEq, Option.some.injEq, exists_eq_left', Regions.definitions,
          ← Condition.value_iff_holds, ← Bool.eq_iff_iff]
        exact eq_comm
  · simp only [← hparse, Regions.eval]
    cases Condition.parse text with
    | none => simp
    | some a => simp

end SharpTokens
