import SharpTokens.Directive.Region
import SharpTokens.Proofs.Text.Slices

/-!
# Directives read what is written

What a directive goes on with, its condition or its symbol, is a part of its text
(`Directive.isInfix_operand`). A condition is read from left to right: whatever is left over, by a
whole condition or by any part of it, is an end of the text that was read from
(`Condition.ReadsOn`), and nothing else of a text is ever looked at (`Condition.disjunction_congr`).

The two facts are used where a text is changed or bounded: what is read of a directive lies inside
it, and two readers that agree on all ends of a text read the same condition off it.
-/

namespace SharpTokens

open Text

/-! ## Directives

A directive is trimmed, cut before a comment and divided at its first blank. Each of these leaves a
part of the text. -/

theorem Text.isInfix_trim (cs : List Char) : trim cs <:+: cs := by
  have hback : trim cs <+: cs.dropWhile isBlank := by
    rw [trim, ← List.reverse_suffix, List.reverse_reverse]
    exact List.dropWhile_suffix isBlank
  exact hback.isInfix.trans (List.dropWhile_suffix isBlank).isInfix

namespace Directive

/-- The text that a directive goes on with: a condition or a symbol. -/
def operand? : Directive → Option (List Char)
  | ifThen text | elseIf text | define text | undefine text => some text
  | otherwise | endIf | ignored | unknown => none

/-- What stands before a comment is a start of the text. -/
theorem isPrefix_beforeComment (cs : List Char) : beforeComment cs <+: cs := by
  fun_induction beforeComment cs with
  | case1 => exact List.prefix_rfl
  | case2 cs => exact List.nil_prefix
  | case3 c cs _ ih => exact List.cons_prefix_cons.2 ⟨rfl, ih⟩

/-- **What a directive goes on with is a part of its text.** -/
theorem isInfix_operand {text c : List Char} (h : (parse text).operand? = some c) :
    c <:+: text := by
  have hrest : trim ((trim (beforeComment text)).dropWhile Char.isAlpha) = c := by
    simp only [parse] at h
    split at h
    case h_7 => split at h <;> cases h
    case h_3 | h_4 => cases h
    all_goals exact Option.some.inj h
  have hword : (trim (beforeComment text)).dropWhile Char.isAlpha <:+: beforeComment text :=
    (List.dropWhile_suffix _).isInfix.trans (isInfix_trim _)
  rw [← hrest]
  exact (isInfix_trim _).trans (hword.trans (isPrefix_beforeComment text).isInfix)

end Directive

/-! ## Conditions

All readers are of this kind: signs, names, chains, and operands at any depth. -/

namespace Condition

/-- A reader leaves an end of the text that it reads from. -/
def ReadsOn (read : Reader) : Prop := ∀ ⦃cs a rest⦄, read cs = some (a, rest) → rest <:+ cs

variable {signs : List Sign} {read read' : Reader} {cs : List Char}

/-- What is left behind a sign is an end of the text. -/
theorem eat_suffix {sign rest : List Char} (h : eat sign cs = some rest) : rest <:+ cs := by
  simp only [eat] at h
  split at h
  · cases h
    exact (List.drop_suffix _ _).trans (List.dropWhile_suffix isGap)
  · cases h

/-- So is what is left behind one of several. -/
theorem eatSign_suffix {build : Condition → Condition → Condition} {rest : List Char}
    (h : eatSign signs cs = some (build, rest)) : rest <:+ cs := by
  induction signs with
  | nil => cases h
  | cons sign signs ih =>
      rw [eatSign] at h
      split at h
      · cases h
        exact eat_suffix ‹_›
      · exact ih h

/-- A chain leaves an end of the text if its operands do. -/
theorem ReadsOn.chainFrom (hread : ReadsOn read) (n : Nat) (left : Condition) :
    ReadsOn (chainFrom signs read n left) := by
  induction n generalizing left with
  | zero => exact nofun
  | succ n ih =>
      intro cs a rest h
      rw [Condition.chainFrom] at h
      split at h
      · cases h
        exact List.suffix_rfl
      · rename_i hsign
        split at h
        · cases h
        · rename_i hright
          exact (ih _ h).trans ((hread hright).trans (eatSign_suffix hsign))

theorem ReadsOn.chain (hread : ReadsOn read) : ReadsOn (chain signs read) := by
  intro cs a rest h
  rw [Condition.chain] at h
  split at h
  · cases h
  · exact (hread.chainFrom _ _ h).trans (hread ‹_›)

theorem ReadsOn.disjunction (hread : ReadsOn read) : ReadsOn (disjunction read) :=
  hread.chain.chain.chain

/-- A symbol is read off a text as it stands there. -/
theorem name_spec {a : Condition} {rest : List Char} (h : name cs = some (a, rest)) :
    ∃ gap word, cs = gap ++ (word ++ rest) ∧ word ≠ [] ∧ a = symbol (String.ofList word) := by
  refine ⟨cs.takeWhile isGap, (cs.dropWhile isGap).takeWhile isNameChar, ?_⟩
  simp only [name] at h
  split at h
  · cases h
  · rename_i hne
    obtain ⟨rfl, rfl⟩ := Prod.mk.inj (Option.some.inj h)
    rw [List.takeWhile_append_dropWhile, List.takeWhile_append_dropWhile]
    exact ⟨rfl, hne, rfl⟩

theorem readsOn_name : ReadsOn name := by
  intro cs a rest h
  obtain ⟨gap, word, rfl, -⟩ := name_spec h
  exact ⟨gap ++ word, List.append_assoc _ _ _⟩

/-- An operand of any depth leaves an end of the text. -/
theorem readsOn_operand (depth : Nat) : ReadsOn (operand depth) := by
  induction depth with
  | zero => exact nofun
  | succ depth ih =>
      intro cs a rest h
      rw [operand] at h
      split at h
      · obtain ⟨r, hr, heq⟩ := Option.map_eq_some_iff.1 h
        cases heq
        exact (ih hr).trans (eat_suffix ‹_›)
      · split at h
        · split at h
          · cases h
          · obtain ⟨r, hr, heq⟩ := Option.map_eq_some_iff.1 h
            cases heq
            exact (eat_suffix hr).trans ((ih.disjunction ‹_›).trans (eat_suffix ‹_›))
        · exact readsOn_name h

/-! ### What is looked at

A reader inside a chain is only ever called on ends of the text, so another one that agrees there
can take its place. -/

/-- A chain depends on how its operands are read at the ends of the text only. -/
theorem chainFrom_congr (hread : ReadsOn read)
    (heq : ∀ rest, rest <:+ cs → read rest = read' rest) (n : Nat) (left : Condition) :
    chainFrom signs read n left cs = chainFrom signs read' n left cs := by
  induction n generalizing left cs with
  | zero => rfl
  | succ n ih =>
      rw [chainFrom, chainFrom]
      split
      · rfl
      · rename_i rest hsign
        have hrest := eatSign_suffix hsign
        rw [← heq rest hrest]
        split
        · rfl
        · rename_i hright
          exact ih (fun rest hlater => heq rest (hlater.trans ((hread hright).trans hrest))) _

theorem chain_congr (hread : ReadsOn read) (heq : ∀ rest, rest <:+ cs → read rest = read' rest) :
    chain signs read cs = chain signs read' cs := by
  rw [chain, chain, ← heq cs List.suffix_rfl]
  split
  · rfl
  · rename_i hleft
    exact chainFrom_congr hread (fun rest hlater => heq rest (hlater.trans (hread hleft))) _ _

/-- **A condition is read from ends of its text only**: its operands are asked for nowhere else. -/
theorem disjunction_congr (hread : ReadsOn read)
    (heq : ∀ rest, rest <:+ cs → read rest = read' rest) :
    disjunction read cs = disjunction read' cs := by
  have hsame : ∀ rest, rest <:+ cs → chain [(['=', '='], same), (['!', '='], differ)] read rest
      = chain [(['=', '='], same), (['!', '='], differ)] read' rest :=
    fun rest hrest => chain_congr hread fun later hlater => heq later (hlater.trans hrest)
  refine chain_congr hread.chain.chain fun rest hrest => ?_
  exact chain_congr hread.chain fun later hlater => hsame later (hlater.trans hrest)

end Condition

end SharpTokens
