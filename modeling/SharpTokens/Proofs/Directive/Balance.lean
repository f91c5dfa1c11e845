import Mathlib.Data.List.Infix
import SharpTokens.Proofs.Lexeme.Parts

/-!
# Directives that belong together

Whether the conditional directives of a text are balanced is said by their names alone
(`Directive.Balanced`). An `#if` whose condition is not well formed opens nothing where text is
read, so it does not count (`Regions.heeded`). For the directives that count, an unbalanced text is
reported and a balanced one is not, and each `#endif` closes the region that its own `#if` opened
(`Lexed.reports_unbalanced`).

The count of open conditionals (`Directive.nesting`) is kept beside the stack of regions, and the
step lemma says that a directive that counts does to the length of the stack what it does to the
count (`Regions.applied`). From it a run keeps the two in step.
-/

namespace SharpTokens

open Text

/-! ## Names of directives

Only the kinds of the directives are looked at here. The last open `#if` before an `#endif` is found
by going back to where the count was lower last. -/

namespace Directive

/-- How many conditionals are open after a directive where `n` are open before it, unless one is
missing. -/
def openAfter (n : Nat) : Directive → Option Nat
  | .ifThen _ => some (n + 1)
  | .elseIf _ => if n = 0 then none else some n
  | .otherwise => if n = 0 then none else some n
  | .endIf => if n = 0 then none else some (n - 1)
  | _ => some n

/-- How many conditionals are open after some directives, unless one is missing. -/
def nesting (ds : List Directive) : Option Nat := ds.foldlM openAfter 0

/-- No directive lacks its `#if`, and no `#if` lacks its `#endif`. -/
def Balanced (ds : List Directive) : Prop := nesting ds = some 0

instance (ds : List Directive) : Decidable (Balanced ds) := inferInstanceAs (Decidable (_ = _))

/-- Of the directives `pre`, an `#if` and `inner`, the `#if` is the last one that is open: it is
open after all of them, all that were opened behind it are closed, and it was not closed in
between. -/
def LastOpen (pre : List Directive) (condition : List Char) (inner : List Directive) : Prop :=
  ∃ n, nesting pre = some n ∧ nesting (pre ++ .ifThen condition :: inner) = some (n + 1) ∧
    ∀ first rest, inner = first ++ rest → ∃ m, nesting (pre ++ .ifThen condition :: first) =
    some m ∧ n < m

variable {n m : Nat} {d : Directive} {ds : List Directive}

/-- Only an `#if` opens a conditional. -/
theorem exists_ifThen_of_lt (h : d.openAfter n = some m) (hlt : n < m) :
    ∃ condition, d = .ifThen condition ∧ m = n + 1 := by
  cases d
  case ifThen condition =>
    cases h
    exact ⟨condition, rfl, rfl⟩
  all_goals
    simp only [openAfter, Option.ite_none_left_eq_some, Option.some.injEq] at h
    omega

/-- Where more than `n` conditionals are open in the end, more than `n` are open all the way, or an
`#if` follows after `n` and stays open. -/
theorem open_all_the_way (h : ds.foldlM openAfter m = some k) (hlt : n < k) :
    (∀ first rest, ds = first ++ rest → ∃ l, first.foldlM openAfter m = some l ∧ n < l) ∨
      ∃ pre condition inner, ds = pre ++ .ifThen condition :: inner ∧
      pre.foldlM openAfter m = some n ∧
        ∀ first rest, inner = first ++ rest → ∃ l, first.foldlM openAfter (n + 1) =
        some l ∧ n < l := by
  induction ds generalizing m with
  | nil =>
      cases h
      refine .inl fun first rest hsplit => ?_
      rw [(List.nil_eq_append_iff.1 hsplit).1]
      exact ⟨_, rfl, hlt⟩
  | cons d ds ih =>
      obtain ⟨m', hd, hds⟩ := Option.bind_eq_some_iff.1 h
      rcases ih hds with hall | ⟨pre, condition, inner, rfl, hpre, hinner⟩
      · by_cases hm : n < m
        · refine .inl fun first rest hsplit => ?_
          cases first with
          | nil => exact ⟨m, rfl, hm⟩
          | cons d' first =>
              obtain ⟨rfl, htail⟩ := List.cons_eq_cons.1 hsplit
              obtain ⟨l, hfirst, hl⟩ := hall first rest htail
              exact ⟨l, Option.bind_eq_some_iff.2 ⟨m', hd, hfirst⟩, hl⟩
        · -- the first directive goes past `n`, and nothing behind it comes back
          obtain ⟨l, hnil, hl⟩ := hall [] ds rfl
          cases hnil
          obtain ⟨condition, rfl, hm'⟩ := exists_ifThen_of_lt hd (by omega)
          obtain rfl : m = n := by omega
          rw [hm'] at hall
          exact .inr ⟨[], condition, ds, rfl, rfl, hall⟩
      · refine .inr ⟨d :: pre, condition, inner, rfl,
          Option.bind_eq_some_iff.2 ⟨m', hd, hpre⟩, hinner⟩

/-- After an `#if`, one more is open. -/
theorem nesting_append_ifThen {pre : List Directive} (h : nesting pre = some n)
    (condition : List Char) (inner : List Directive) :
    nesting (pre ++ .ifThen condition :: inner) = inner.foldlM openAfter (n + 1) := by
  rw [nesting, List.foldlM_append]
  rw [nesting] at h
  rw [h]
  rfl

/-- A conditional is open before an `#endif` that lacks nothing. -/
theorem exists_nesting_of_endIf {before rest : List Directive}
    (h : Balanced (before ++ .endIf :: rest)) :
    ∃ n, nesting before = some (n + 1) := by
  rw [Balanced, nesting, List.foldlM_append] at h
  obtain ⟨k, hbefore, hrest⟩ := Option.bind_eq_some_iff.1 h
  cases k with
  | zero => cases hrest
  | succ n => exact ⟨n, hbefore⟩

/-- **Where a conditional is open, one is the last.** -/
theorem exists_lastOpen (h : nesting ds = some (n + 1)) :
    ∃ pre condition inner, ds = pre ++ .ifThen condition :: inner ∧
      LastOpen pre condition inner := by
  rcases open_all_the_way h (Nat.lt_succ_self n) with hall | ⟨pre, condition, inner, rfl,
    hpre, hinner⟩
  · obtain ⟨l, hnil, hl⟩ := hall [] ds rfl
    cases hnil
    exact absurd hl (Nat.not_lt_zero n)
  · refine ⟨pre, condition, inner, rfl, n, hpre, h, fun first rest hsplit => ?_⟩
    rw [nesting_append_ifThen hpre]
    exact hinner first rest hsplit

end Directive

/-! ## Directives that count

What a directive can do to the stack is said once for all of them (`Regions.Applied`): it leaves a
stack of the length that the names ask for, or it is an error and leaves the stack as it is. -/

namespace Regions

variable {r : Regions} {d : Directive} {ds : List Directive}

/-- The regions after a directive, which an error leaves as they are. -/
def after (r : Regions) (d : Directive) : Regions :=
  match r.apply d with
  | .ok r => r
  | .error _ => r

def run (r : Regions) (ds : List Directive) : Regions := ds.foldl after r

/-- An `#if` whose condition decides and is not well formed. -/
def refuses (r : Regions) : Directive → Bool
  | .ifThen condition => r.isActive && (Condition.parse condition).isNone
  | _ => false

/-- The directives that count: all but each `#if` that is refused at its place. -/
def heeded (r : Regions) : List Directive → List Directive
  | [] => []
  | d :: ds => if r.refuses d then (r.after d).heeded ds else d :: (r.after d).heeded ds

/-- An `#if` that is refused is an invalid directive. -/
theorem apply_of_refuses (h : r.refuses d = true) : r.apply d = .error .invalidDirective := by
  cases d
  case ifThen condition =>
    obtain ⟨hactive, hparse⟩ := Bool.and_eq_true_iff.1 h
    rw [apply, enter, hactive, eval, Option.isNone_iff_eq_none.1 hparse]
    rfl
  all_goals cases h

/-- It leaves all as it is. -/
theorem after_of_refuses (h : r.refuses d = true) : r.after d = r := by
  rw [after, apply_of_refuses h]

/-- What a directive that counts can do, where the names say how many conditionals are open then. -/
inductive Applied (r : Regions) : Option Nat → Except SyntaxError Regions → Prop
  | opened (region : Region) : Applied r (some (r.stack.length + 1))
      (.ok ⟨region :: r.stack, r.defined⟩)
  | changed {region outer} (region' : Region) : r.stack = region :: outer →
      Applied r (some (outer.length + 1)) (.ok ⟨region' :: outer, r.defined⟩)
  | closed {region outer} : r.stack = region :: outer → Applied r (some outer.length)
      (.ok ⟨outer, r.defined⟩)
  | kept (defined : List String) : Applied r (some r.stack.length) (.ok ⟨r.stack, defined⟩)
  | invalid : Applied r (some r.stack.length) (.error .invalidDirective)
  | missing : r.stack = [] → Applied r none (.error .unbalancedConditional)

/-- An `#if` that is not refused opens a region. -/
theorem applied_ifThen {condition : List Char} (h : r.refuses (.ifThen condition) = false) :
    Applied r (some (r.stack.length + 1)) (r.apply (.ifThen condition)) := by
  cases hactive : r.isActive with
  | false =>
      rw [apply, enter, hactive]
      exact .opened _
  | true =>
      rw [refuses, hactive, Bool.true_and, Option.isNone_eq_false_iff] at h
      obtain ⟨c, hc⟩ := Option.isSome_iff_exists.1 h
      rw [apply, enter, hactive, eval, hc]
      exact .opened _

/-- Another branch takes the place of the one before. -/
theorem applied_elseIf {region : Region} {outer : List Region} (h : r.stack = region :: outer)
    (condition : List Char) :
    Applied r (some (outer.length + 1)) (r.apply (.elseIf condition)) := by
  simp only [apply, branch, h]
  split
  · rw [eval]
    split
    · exact .changed _ h
    · have hinvalid := Applied.invalid (r := r)
      rwa [h] at hinvalid
  · exact .changed _ h

/-- A definition leaves the regions alone, whether or not it names a symbol. -/
theorem applied_symbol (symbol : List Char) (f : String → List String) :
    Applied r (some r.stack.length)
      (if r.isActive then do
        let name ← Regions.symbol symbol
        return { r with defined := f name }
      else .ok r) := by
  split
  · rw [Regions.symbol]
    split
    · exact .kept _
    · exact .invalid
  · exact .kept r.defined

/-- **Regions go with names.** -/
theorem applied (h : r.refuses d = false) : Applied r (d.openAfter r.stack.length) (r.apply d) := by
  cases d with
  | ifThen condition => exact applied_ifThen h
  | elseIf condition =>
      cases hstack : r.stack with
      | nil =>
          simp only [apply, branch, hstack]
          exact .missing hstack
      | cons region outer => exact applied_elseIf hstack condition
  | otherwise =>
      rw [apply, lastBranch]
      cases hstack : r.stack with
      | nil => exact .missing hstack
      | cons region outer => exact .changed _ hstack
  | endIf =>
      rw [apply, close]
      cases hstack : r.stack with
      | nil => exact .missing hstack
      | cons region outer => exact .closed hstack
  | define symbol => exact applied_symbol symbol (· :: r.defined)
  | undefine symbol => exact applied_symbol symbol (fun name => r.defined.filter (· != name))
  | ignored => exact .kept r.defined
  | unknown => exact .invalid

/-- A directive lacks its conditional exactly if the names say so. -/
theorem apply_eq_unbalanced_iff :
    r.apply d = .error .unbalancedConditional ↔ d.openAfter r.stack.length = none := by
  cases hrefuses : r.refuses d with
  | true =>
      -- only an `#if` is refused, and it lacks nothing
      rw [apply_of_refuses hrefuses]
      cases d
      case ifThen condition => simp [Directive.openAfter]
      all_goals cases hrefuses
  | false =>
      have happlied := applied hrefuses
      generalize d.openAfter r.stack.length = n, r.apply d = result at happlied
      cases happlied
      all_goals simp

/-- As many regions are open as the names say. -/
theorem length_after {m : Nat} (h : r.refuses d = false)
    (hopen : d.openAfter r.stack.length = some m) :
    (r.after d).stack.length = m := by
  have happlied := applied h
  rw [hopen] at happlied
  unfold after
  generalize r.apply d = result at happlied ⊢
  cases happlied with
  | opened => rfl
  | changed => rfl
  | closed => rfl
  | kept => rfl
  | invalid => rfl

/-- **What is below stays**: regions are left alone that more are open above of. -/
theorem isSuffix_after {m : Nat} {base : List Region} (h : r.refuses d = false)
    (hopen : d.openAfter r.stack.length = some m) (hbase : base <:+ r.stack)
    (hlt : base.length < m) :
    base <:+ (r.after d).stack := by
  have hinner {region : Region} {outer : List Region} (hstack : r.stack = region :: outer)
      (hle : base.length ≤ outer.length) : base <:+ outer :=
    List.suffix_of_suffix_length_le hbase (hstack ▸ List.suffix_cons region outer) hle
  have happlied := applied h
  rw [hopen] at happlied
  unfold after
  generalize r.apply d = result at happlied ⊢
  cases happlied with
  | opened region => exact hbase.trans (List.suffix_cons region r.stack)
  | @changed region outer region' hstack =>
      exact (hinner hstack (Nat.le_of_lt_succ hlt)).trans (List.suffix_cons region' outer)
  | closed hstack => exact hinner hstack (Nat.le_of_lt hlt)
  | kept defined => exact hbase
  | invalid => exact hbase

/-! ## Runs

The directives that are refused can be left out, since they change nothing. -/

theorem run_append (r : Regions) (ds es : List Directive) : r.run (ds ++ es) = (r.run ds).run es :=
  List.foldl_append

/-! ### Directives that are refused

They leave the regions as they are. So a run is that of the directives that count, and among these
none is refused. -/

/-- Directives that do not count change nothing. -/
theorem run_heeded (r : Regions) (ds : List Directive) : r.run (r.heeded ds) = r.run ds := by
  induction ds generalizing r with
  | nil => rfl
  | cons d ds ih =>
      rw [heeded]
      split
      · next h => rw [after_of_refuses h, ih, run, run, List.foldl_cons, after_of_refuses h]
      · exact ih (r.after d)

/-- Of the directives that count, all count. -/
theorem heeded_heeded (r : Regions) (ds : List Directive) :
    r.heeded (r.heeded ds) = r.heeded ds := by
  induction ds generalizing r with
  | nil => rfl
  | cons d ds ih =>
      cases h : r.refuses d with
      | true => rw [heeded, if_pos h, after_of_refuses h, ih]
      | false =>
          have hnot : ¬ r.refuses d = true := by rw [h]; exact Bool.false_ne_true
          rw [heeded, if_neg hnot, heeded, if_neg hnot, ih]

/-- A directive is missing its conditional on the way, or regions are open in the end. -/
def Complains (r : Regions) : List Directive → Prop
  | [] => r.stack ≠ []
  | d :: ds => r.apply d = .error .unbalancedConditional ∨ (r.after d).Complains ds

/-- **There is a complaint exactly if the names are not balanced.** -/
theorem complains_iff (r : Regions) (ds : List Directive) :
    r.Complains ds ↔ (r.heeded ds).foldlM Directive.openAfter r.stack.length ≠ some 0 := by
  induction ds generalizing r with
  | nil => simp [Complains, heeded]
  | cons d ds ih =>
      rw [Complains, ih, heeded]
      cases h : r.refuses d with
      | true => simp [apply_of_refuses h, after_of_refuses h]
      | false =>
          rw [apply_eq_unbalanced_iff, if_neg Bool.false_ne_true, List.foldlM_cons]
          cases hopen : d.openAfter r.stack.length with
          | none => simp
          | some m => simp [length_after h hopen]

/-- Where all conditions after `#if` are well formed, all directives count. -/
theorem heeded_of_wellFormed (r : Regions)
    (h : ∀ condition, .ifThen condition ∈ ds → (Condition.parse condition).isSome) :
    r.heeded ds = ds := by
  induction ds generalizing r with
  | nil => rfl
  | cons d ds ih =>
      have hrefuses : r.refuses d = false := by
        cases d
        case ifThen condition =>
          simp [refuses, Option.isNone_eq_false_iff.2 (h condition List.mem_cons_self)]
        all_goals rfl
      rw [heeded, hrefuses, if_neg Bool.false_ne_true,
        ih _ fun condition hmem => h condition (List.mem_cons_of_mem _ hmem)]

theorem length_heeded_le (r : Regions) (ds : List Directive) :
    (r.heeded ds).length ≤ ds.length := by
  induction ds generalizing r with
  | nil => exact Nat.le_refl 0
  | cons d ds ih =>
      rw [heeded]
      split
      · exact Nat.le_succ_of_le (ih _)
      · exact Nat.succ_le_succ (ih _)

/-- Where all directives count, none is refused. -/
theorem heeded_cons (h : r.heeded (d :: ds) = d :: ds) :
    r.refuses d = false ∧ (r.after d).heeded ds = ds := by
  rw [heeded] at h
  split at h
  · have hle := length_heeded_le (r.after d) ds
    rw [h, List.length_cons] at hle
    omega
  · next hrefuses => exact ⟨Bool.eq_false_iff.2 hrefuses, (List.cons.inj h).2⟩

/-- If all directives count, so do those of any part, after those before it. -/
theorem heeded_of_append {es : List Directive} (h : r.heeded (ds ++ es) = ds ++ es) :
    r.heeded ds = ds ∧ (r.run ds).heeded es = es := by
  induction ds generalizing r with
  | nil => exact ⟨rfl, h⟩
  | cons d ds ih =>
      obtain ⟨hrefuses, hrest⟩ := heeded_cons h
      obtain ⟨hds, hes⟩ := ih hrest
      exact ⟨by rw [heeded, hrefuses, if_neg Bool.false_ne_true, hds], hes⟩

/-- Where all directives count, as many regions are open as the names say. -/
theorem length_run {m : Nat} (h : r.heeded ds = ds)
    (hopen : ds.foldlM Directive.openAfter r.stack.length = some m) :
    (r.run ds).stack.length = m := by
  induction ds generalizing r with
  | nil =>
      cases hopen
      rfl
  | cons d ds ih =>
      obtain ⟨hrefuses, hrest⟩ := heeded_cons h
      obtain ⟨n, hd, hds⟩ := Option.bind_eq_some_iff.1 hopen
      exact ih hrest (length_after hrefuses hd ▸ hds)

/-- **What is below stays** where all directives count and more regions are open all the way. -/
theorem isSuffix_run {base : List Region} (h : r.heeded ds = ds) (hbase : base <:+ r.stack)
    (hlt : ∀ first rest, ds = first ++ rest →
      ∃ m, first.foldlM Directive.openAfter r.stack.length = some m ∧ base.length < m) :
    base <:+ (r.run ds).stack := by
  induction ds generalizing r with
  | nil => exact hbase
  | cons d ds ih =>
      obtain ⟨hrefuses, hrest⟩ := heeded_cons h
      obtain ⟨n, hd, hn⟩ := hlt [d] ds rfl
      rw [List.foldlM_cons, Option.bind_eq_bind, Option.bind_eq_some_iff] at hd
      obtain ⟨m, hd, hnil⟩ := hd
      cases hnil
      refine ih hrest (isSuffix_after hrefuses hd hbase hn) fun first rest hsplit => ?_
      obtain ⟨m, hfirst, hm⟩ := hlt (d :: first) rest (congrArg (d :: ·) hsplit)
      rw [List.foldlM_cons, hd] at hfirst
      exact ⟨m, length_after hrefuses hd ▸ hfirst, hm⟩

/-! ## The region of an `#if`

A region stays the same on the stack as long as the conditional is open, up to the branch it is at.
So the `#endif` finds the one that its own `#if` opened. -/

/-- From the start, the `#if` after `pre` opens a region that stays until after `inner`, when it is
the innermost one and the next `#endif` closes it. -/
structure Encloses (pre : List Directive) (condition : List Char)
    (inner : List Directive) : Prop where
  stays : ∀ first rest, inner = first ++ rest → ∃ above region,
    (initial.run (pre ++ .ifThen condition :: first)).stack = above ++ region ::
    (initial.run pre).stack
  innermost : ∃ region,
    (initial.run (pre ++ .ifThen condition :: inner)).stack = region :: (initial.run pre).stack
  closed : (initial.run (pre ++ .ifThen condition :: inner ++ [.endIf])).stack =
    (initial.run pre).stack

theorem run_endIf {region : Region} {outer : List Region} (h : r.stack = region :: outer) :
    (r.run [.endIf]).stack = outer := by
  rw [run, List.foldl_cons, List.foldl_nil, after, apply, close, h]

/-- Behind an `#if` that the names say stays open, its region stands on those from before it. -/
theorem exists_stack_of_open {pre first : List Directive} {condition : List Char} {n m : Nat}
    (h : initial.heeded (pre ++ .ifThen condition :: first) = pre ++ .ifThen condition :: first)
    (hpre : Directive.nesting pre = some n)
    (hfirst : Directive.nesting (pre ++ .ifThen condition :: first) = some m)
    (hstays : ∀ before rest, first = before ++ rest →
      ∃ k, Directive.nesting (pre ++ .ifThen condition :: before) = some k ∧ n < k) :
    ∃ above, (initial.run (pre ++ .ifThen condition :: first)).stack = above ++
      (initial.run pre).stack ∧
      n + above.length = m := by
  obtain ⟨hheeded, hrest⟩ := heeded_of_append h
  obtain ⟨hrefuses, hrest⟩ := heeded_cons hrest
  have hlength : (initial.run pre).stack.length = n := length_run hheeded hpre
  have hopened : ((initial.run pre).after (.ifThen condition)).stack.length = n + 1 :=
    length_after hrefuses (congrArg (fun k => some (k + 1)) hlength)
  have hbase : (initial.run pre).stack <:+ ((initial.run pre).after (.ifThen condition)).stack :=
    isSuffix_after hrefuses rfl (List.suffix_refl _) (Nat.lt_succ_self _)
  rw [Directive.nesting_append_ifThen hpre, ← hopened] at hfirst
  have hsuffix : (initial.run pre).stack <:+
      (((initial.run pre).after (.ifThen condition)).run first).stack := by
    refine isSuffix_run hrest hbase fun before rest hsplit => ?_
    rw [hlength, hopened, ← Directive.nesting_append_ifThen hpre]
    exact hstays before rest hsplit
  obtain ⟨above, habove⟩ := hsuffix
  have hm := length_run hrest hfirst
  rw [← habove, List.length_append, hlength, Nat.add_comm] at hm
  exact ⟨above, by rw [run_append, habove]; rfl, hm⟩

/-- **The `#if` that the names say is open last has the innermost region.** -/
theorem encloses_of_lastOpen {pre inner : List Directive} {condition : List Char}
    (h : initial.heeded (pre ++ .ifThen condition :: inner) = pre ++ .ifThen condition :: inner)
    (hopen : Directive.LastOpen pre condition inner) : Encloses pre condition inner := by
  obtain ⟨n, hpre, hinner, hstays⟩ := hopen
  have hinnermost : ∃ region,
      (initial.run (pre ++ .ifThen condition :: inner)).stack = region ::
      (initial.run pre).stack := by
    obtain ⟨above, hstack, hlength⟩ := exists_stack_of_open h hpre hinner hstays
    obtain ⟨region, rfl⟩ := List.length_eq_one_iff.1 (Nat.add_left_cancel hlength)
    exact ⟨region, hstack⟩
  refine ⟨?_, hinnermost, ?_⟩
  · rintro first rest rfl
    obtain ⟨m, hfirst, hm⟩ := hstays first rest rfl
    rw [← List.cons_append, ← List.append_assoc] at h
    obtain ⟨above, hstack, hlength⟩ := exists_stack_of_open (heeded_of_append h).1 hpre hfirst
      fun before later hsplit => hstays before (later ++ rest) (by rw [hsplit, List.append_assoc])
    rcases List.eq_nil_or_concat above with rfl | ⟨above, region, rfl⟩
    · exact absurd hlength (Nat.ne_of_lt hm)
    · exact ⟨above, region, by rw [hstack, List.concat_eq_append, List.append_assoc]; rfl⟩
  · obtain ⟨region, hstack⟩ := hinnermost
    rw [run_append, run_endIf hstack]

end Regions

/-! ## Directives of a text

Errors of pieces are never about balance, so what is reported about it comes from directives and
from the end of the text. -/

namespace Lexed

/-- What is wrong with a piece is not its balance. -/
theorem blame_ne_unbalanced (text : List Char) : blame text ≠ .unbalancedConditional := by
  unfold blame
  split
  all_goals exact SyntaxError.noConfusion

/-- What is out of place in a text is never a lack of balance. -/
theorem stray_ne_unbalanced {lineStart : Bool} {raws : List Raw} {e : SyntaxError} {span : Span}
    (h : Part.stray e span ∈ parts lineStart raws) : e ≠ .unbalancedConditional := by
  induction raws generalizing lineStart with
  | nil => cases h
  | cons raw raws ih =>
      rcases List.mem_append.1 h with hmem | hmem
      · rw [Option.mem_toList, partOf] at hmem
        split at hmem
        · split at hmem
          · cases hmem
          · cases hmem
            exact SyntaxError.noConfusion
        · split at hmem
          all_goals cases hmem
        · cases hmem
          exact blame_ne_unbalanced raw.text
      · exact ih hmem

/-- A lack of balance is among some errors. -/
def Reports (errors : List (SyntaxError × Span)) : Prop :=
  ∃ span, (.unbalancedConditional, span) ∈ errors

/-! ### Reports along a text

A text is gone through piece by piece, and the regions at a piece are those after the directives
before it. -/

/-- One more error reports a lack of balance if it is one. -/
theorem reports_append_singleton (errors : List (SyntaxError × Span)) (e : SyntaxError)
    (span : Span) :
    Reports (errors ++ [(e, span)]) ↔ Reports errors ∨ e = .unbalancedConditional := by
  simp only [Reports, List.mem_append, List.mem_singleton, Prod.mk.injEq, exists_or]
  constructor
  · rintro (h | ⟨-, rfl, -⟩)
    · exact .inl h
    · exact .inr rfl
  · rintro (h | rfl)
    · exact .inl h
    · exact .inr ⟨span, rfl, rfl⟩

namespace Progress

/-- The regions at a place come from the directives before it. -/
theorem regions_foldl_take (ps : List Part) (p : Progress) :
    (ps.foldl take p).regions = p.regions.run (ps.filterMap Part.directive?) := by
  induction ps generalizing p with
  | nil => rfl
  | cons part ps ih =>
      rw [List.foldl_cons, ih]
      cases part with
      | lexeme l =>
          rw [take, keep]
          split
          all_goals rfl
      | directive d span =>
          have hafter : (p.take (.directive d span)).regions = p.regions.after d := by
            rw [take, Regions.after]
            cases p.regions.apply d
            all_goals rfl
          rw [hafter]
          rfl
      | stray e span =>
          rw [take, failIfActive]
          split
          all_goals rfl

/-- **A lack of balance is reported exactly if there is a complaint.** -/
theorem reports_finish_iff {ps : List Part} (p : Progress) (size : Nat)
    (h : ∀ e span, Part.stray e span ∈ ps → e ≠ .unbalancedConditional) :
    Reports ((ps.foldl take p).finish size).errors ↔
      Reports p.errors.toList ∨ p.regions.Complains (ps.filterMap Part.directive?) := by
  induction ps generalizing p with
  | nil =>
      rw [List.foldl_nil, finish]
      -- at the end of the text, what is still open is reported
      cases hstack : p.regions.stack with
      | nil => simp [Regions.Complains, hstack]
      | cons region outer =>
          simp only [List.isEmpty_cons, if_neg Bool.false_ne_true, reports_append_singleton,
            List.filterMap_nil, Regions.Complains, hstack]
          simp
  | cons part ps ih =>
      have ih := ih (p.take part) fun e span hmem => h e span (List.mem_cons_of_mem _ hmem)
      rw [List.foldl_cons, ih]
      cases part with
      | lexeme l =>
          rw [take, keep]
          split
          all_goals rfl
      | directive d span =>
          have hmap : (Part.directive d span :: ps).filterMap Part.directive? = d :: ps.filterMap
              Part.directive? := rfl
          rw [hmap, Regions.Complains, Regions.after]
          cases happly : p.regions.apply d with
          | ok regions => simp [take, happly]
          | error e =>
              simp only [take, happly, fail, Array.toList_push, reports_append_singleton,
                Except.error.injEq, or_assoc]
      | stray e span =>
          have hne : e ≠ .unbalancedConditional := h e span List.mem_cons_self
          rw [List.filterMap_cons_none rfl, take, failIfActive]
          split
          · simp only [fail, Array.toList_push, reports_append_singleton, hne, or_false]
          · rfl

end Progress

/-- **A lack of balance is reported exactly if the names show it.** What counts are the directives
that are first on their lines, apart from each `#if` whose condition decides and is not well formed;
if all conditions after `#if` are well formed, they all count. The regions at a place come from the
directives before it that count. Where these are balanced, each `#endif` closes the region that its
own `#if` opened. -/
theorem reports_unbalanced (text : List Char) :
    (Reports (ofText text).errors ↔
      ¬ Directive.Balanced (Regions.initial.heeded (directives text))) ∧
    ((∀ condition, .ifThen condition ∈ directives text → (Condition.parse condition).isSome) →
      Regions.initial.heeded (directives text) = directives text) ∧
    (∀ pieces, (pieces.foldl Progress.next .initial).regions =
      Regions.initial.run
      (Regions.initial.heeded ((parts true pieces).filterMap Part.directive?))) ∧
    (Directive.Balanced (Regions.initial.heeded (directives text)) →
      ∀ before rest, Regions.initial.heeded (directives text) = before ++ .endIf :: rest →
        ∃ pre condition inner, before = pre ++ .ifThen condition :: inner ∧
          Directive.LastOpen pre condition inner ∧ Regions.Encloses pre condition inner) := by
  refine ⟨?_, Regions.heeded_of_wellFormed _, ?_, ?_⟩
  · rw [ofText_eq, Progress.reports_finish_iff _ _ fun e span => stray_ne_unbalanced,
      Regions.complains_iff]
    have hnone : ¬ Reports Progress.initial.errors.toList := by
      rintro ⟨span, hmem⟩
      cases hmem
    exact or_iff_right hnone
  · intro pieces
    rw [Regions.run_heeded, Progress.foldl_next]
    exact Progress.regions_foldl_take (parts true pieces) .initial
  · intro hbalanced before rest hsplit
    rw [hsplit] at hbalanced
    -- the `#endif` is balanced, so something is open before it
    obtain ⟨n, hbefore⟩ := Directive.exists_nesting_of_endIf hbalanced
    obtain ⟨pre, condition, inner, rfl, hopen⟩ := Directive.exists_lastOpen hbefore
    have hheeded := Regions.heeded_heeded .initial (directives text)
    rw [hsplit] at hheeded
    exact ⟨pre, condition, inner, rfl, hopen,
      Regions.encloses_of_lastOpen (Regions.heeded_of_append hheeded).1 hopen⟩

/-- An `#if` with a condition that is not well formed opens nothing: its `#endif` is reported as one
that lacks it, and nothing is reported where there is none. -/
theorem malformed_opens_nothing :
    Directive.Balanced (directives "#if (\n#endif\n".toList) ∧
      (ofText "#if (\n#endif\n".toList).errors =
        [(.invalidDirective, ⟨0, 5⟩), (.unbalancedConditional, ⟨6, 12⟩)] ∧
      ¬ Directive.Balanced (directives "#if (\n".toList) ∧
      (ofText "#if (\n".toList).errors = [(.invalidDirective, ⟨0, 5⟩)] := by
  decide +kernel

end Lexed

end SharpTokens
