import Mathlib.Logic.Function.Basic
import SharpTokens.Proofs.Directive.Conditions
import SharpTokens.Proofs.Lexeme.Parts

/-!
# Which branches are read

A document is made of lexemes, of definitions, and of chains of branches that nest to any depth.
What is read of it is said here by recursion on the document alone (`Document.read?`): of a chain
the first branch whose condition holds, or else the last one, with the definitions that are in force
where the condition stands. Going through the parts of the document with a stack of regions finds
exactly that, and leaves the regions as they were (`Progress.reads_chosen_branches`).

The two programs, going through parts with a stack and recursion on the document, meet in `Reads`:
the lexemes that were added, the regions left and the definitions then in force. There is one
statement for documents where text is read and one for where it is not, and the branches of a chain
have their own, for chains of which a branch was read already and for others.
-/

namespace SharpTokens

open Text

/-! ## Documents -/

/-- The truth of a condition that is well formed. -/
def Condition.truth? (defined : Definitions) (condition : List Char) : Option Bool :=
  (parse condition).map fun a => decide (a.Holds defined)

namespace Lexed

mutual

/-- A text with directives that are well nested, each with its place. -/
inductive Document where
  | done
  | lexeme (l : Lexeme) (rest : Document)
  | define (symbol : List Char) (span : Span) (rest : Document)
  | undefine (symbol : List Char) (span : Span) (rest : Document)
  /-- `#if` and what follows it, up to `#endif` and what is behind -/
  | chain (condition : List Char) (span : Span) (body : Document) (more : Branches)
      (rest : Document)

/-- The branches of a chain after the first. -/
inductive Branches where
  | endIf (span : Span)
  | otherwise (span : Span) (body : Document) (close : Span)
  | elseIf (condition : List Char) (span : Span) (body : Document) (more : Branches)

end

mutual

def Document.parts : Document → List Part
  | .done => []
  | .lexeme l rest => .lexeme l :: rest.parts
  | .define symbol span rest => .directive (.define symbol) span :: rest.parts
  | .undefine symbol span rest => .directive (.undefine symbol) span :: rest.parts
  | .chain condition span body more rest =>
    .directive (.ifThen condition) span :: (body.parts ++ (more.parts ++ rest.parts))

def Branches.parts : Branches → List Part
  | .endIf span => [.directive .endIf span]
  | .otherwise span body close =>
      .directive .otherwise span :: (body.parts ++ [.directive .endIf close])
  | .elseIf condition span body more =>
      .directive (.elseIf condition) span :: (body.parts ++ more.parts)

end

mutual

/-- What is read of a document, and what is defined at its end. There is nothing to be said of one
in which a condition that decides is not well formed, or in which something else than a symbol is
defined. -/
def Document.read? (defined : Definitions) : Document → Option (List Lexeme × Definitions)
  | .done => some ([], defined)
  | .lexeme l rest => (rest.read? defined).map fun found => (l :: found.1, found.2)
  | .define symbol _ rest =>
    (Directive.symbol symbol).bind fun name => rest.read? (Function.update defined name true)
  | .undefine symbol _ rest =>
    (Directive.symbol symbol).bind fun name => rest.read? (Function.update defined name false)
  | .chain condition _ body more rest =>
    (Condition.truth? defined condition).bind fun value =>
      (if value then body.read? defined else more.read? defined).bind fun found =>
        (rest.read? found.2).map fun behind => (found.1 ++ behind.1, behind.2)

/-- What is read of the branches after the first when none was read before. -/
def Branches.read? (defined : Definitions) : Branches → Option (List Lexeme × Definitions)
  | .endIf _ => some ([], defined)
  | .otherwise _ body _ => body.read? defined
  | .elseIf condition _ body more =>
    (Condition.truth? defined condition).bind fun value =>
      if value then body.read? defined else more.read? defined

end

end Lexed

/-! ## Regions

What each directive does, by whether the text around it is read. -/

namespace Regions

variable {r : Regions} {region : Region} {outer : List Region} {active : Bool}

/-- A condition that is well formed has its truth as its value. -/
theorem eval_eq_ok {condition : List Char} {value : Bool}
    (h : Condition.truth? r.definitions condition = some value) :
    r.eval condition = .ok value := by
  obtain ⟨c, hparse, rfl⟩ := Option.map_eq_some_iff.1 h
  rw [eval, hparse]
  exact congrArg Except.ok
    (Bool.eq_iff_iff.2 ((Condition.value_iff_holds r.defined c).trans decide_eq_true_iff.symm))

/-- Defining a symbol changes what is defined at that symbol only. -/
theorem definitions_insert (stack : List Region) (name : String) :
    definitions ⟨stack, name :: r.defined⟩ = Function.update r.definitions name true := by
  funext other
  by_cases h : other = name
  · simp [definitions, h]
  · simp [definitions, h]

/-- So does undefining it. -/
theorem definitions_erase (stack : List Region) (name : String) :
    definitions ⟨stack, r.defined.filter (· != name)⟩ = Function.update r.definitions
      name false := by
  funext other
  by_cases h : other = name
  · simp [definitions, h]
  · simp [definitions, h]

/-! ### Where text is not read

A conditional opens a region in which nothing is read either, and definitions have no effect.
Conditions are not looked at. -/

theorem apply_ifThen_of_inactive (h : r.isActive = false) (condition : List Char) :
    r.apply (.ifThen condition) = .ok ⟨⟨false, false, false⟩ :: r.stack, r.defined⟩ := by
  rw [apply, enter, h]
  rfl

theorem apply_define_of_inactive (h : r.isActive = false) (symbol : List Char) :
    r.apply (.define symbol) = .ok r := by
  rw [apply, h]
  rfl

theorem apply_undefine_of_inactive (h : r.isActive = false) (symbol : List Char) :
    r.apply (.undefine symbol) = .ok r := by
  rw [apply, h]
  rfl

/-- A branch that cannot be read is passed over, and its condition does not matter. -/
theorem apply_elseIf_of_passed (hstack : r.stack = region :: outer)
    (h : (region.parentActive && !region.taken) = false) (condition : List Char) :
    r.apply (.elseIf condition) = .ok ⟨⟨region.parentActive, region.taken, false⟩ :: outer,
      r.defined⟩ := by
  simp only [apply, branch, hstack, h]
  rw [if_neg Bool.false_ne_true]
  simp only [pure, Except.pure, bind, Except.bind, Bool.or_false]

/-! ### Where text is read

The condition decides about the first branch, and the region remembers whether one was read. -/

theorem apply_ifThen (h : r.isActive = true) {condition : List Char} {value : Bool}
    (hvalue : Condition.truth? r.definitions condition = some value) :
    r.apply (.ifThen condition) = .ok ⟨⟨true, value, value⟩ :: r.stack, r.defined⟩ := by
  rw [apply, enter, h, eval_eq_ok hvalue]
  rfl

theorem apply_define (h : r.isActive = true) {symbol : List Char} {name : String}
    (hname : Directive.symbol symbol = some name) :
    r.apply (.define symbol) = .ok ⟨r.stack, name :: r.defined⟩ := by
  rw [apply, h, Regions.symbol, hname]
  rfl

theorem apply_undefine (h : r.isActive = true) {symbol : List Char} {name : String}
    (hname : Directive.symbol symbol = some name) :
    r.apply (.undefine symbol) = .ok ⟨r.stack, r.defined.filter (· != name)⟩ := by
  rw [apply, h, Regions.symbol, hname]
  rfl

/-- A branch that can be read is, if its condition holds. -/
theorem apply_elseIf (hstack : r.stack = ⟨true, false, active⟩ :: outer) {condition : List Char}
    {value : Bool} (hvalue : Condition.truth? r.definitions condition = some value) :
    r.apply (.elseIf condition) = .ok ⟨⟨true, value, value⟩ :: outer, r.defined⟩ := by
  simp only [apply, branch, hstack, eval_eq_ok hvalue]
  rfl

/-! ### Anywhere

The last branch and the end of a chain do not depend on whether text is read. -/

theorem apply_otherwise (hstack : r.stack = region :: outer) :
    r.apply .otherwise =
      .ok ⟨⟨region.parentActive, true, region.parentActive && !region.taken⟩ :: outer,
        r.defined⟩ := by
  rw [apply, lastBranch, hstack]

theorem apply_endIf (hstack : r.stack = region :: outer) :
    r.apply .endIf = .ok ⟨outer, r.defined⟩ := by
  rw [apply, close, hstack]

end Regions

namespace Lexed

namespace Progress

variable {p q : Progress}

/-- A directive that takes effect. -/
theorem take_directive {d : Directive} {regions : Regions} (h : p.regions.apply d = .ok regions)
    (span : Span) :
    p.take (.directive d span) = { p with regions } := by
  rw [take, h]

/-- From `p` to `q` lexemes `ls` are read, no error is found, the regions in `stack` are left, and
`defined` says what is defined then. -/
structure Reads (p q : Progress) (stack : List Region) (ls : List Lexeme)
    (defined : Definitions) : Prop where
  lexemes : q.lexemes.toList = p.lexemes.toList ++ ls
  errors : q.errors = p.errors
  stack : q.regions.stack = stack
  definitions : q.regions.definitions = defined

/-- What is read first and what is read then. -/
theorem Reads.trans {q' : Progress} {stack stack' : List Region} {ls ls' : List Lexeme}
    {defined defined' : Definitions} (h : Reads p q stack ls defined)
    (h' : Reads q q' stack' ls' defined') :
    Reads p q' stack' (ls ++ ls') defined' :=
  ⟨by rw [h'.lexemes, h.lexemes, List.append_assoc], h'.errors.trans h.errors, h'.stack,
    h'.definitions⟩

/-- Which regions there are at first does not matter. -/
theorem Reads.of_regions {regions : Regions} {stack : List Region} {ls : List Lexeme}
    {defined : Definitions} (h : Reads { p with regions } q stack ls defined) :
    Reads p q stack ls defined :=
  ⟨h.lexemes, h.errors, h.stack, h.definitions⟩

end Progress

/-! ## Documents where text is not read

Nothing is read of any document there, and the regions come back to what they were. -/

open Progress

mutual

/-- **Nothing of a document is read where text is not read.** -/
theorem Document.foldl_take_of_inactive {p : Progress} (doc : Document)
    (h : p.regions.isActive = false) :
    doc.parts.foldl take p = p := by
  match doc with
  | .done => rfl
  | .lexeme l rest =>
      have hkeep : p.keep l = p := by simp [keep, h]
      rw [Document.parts, List.foldl_cons, take, hkeep]
      exact rest.foldl_take_of_inactive h
  | .define symbol span rest =>
      rw [Document.parts, List.foldl_cons,
        take_directive (Regions.apply_define_of_inactive h symbol)]
      exact rest.foldl_take_of_inactive h
  | .undefine symbol span rest =>
      rw [Document.parts, List.foldl_cons,
        take_directive (Regions.apply_undefine_of_inactive h symbol)]
      exact rest.foldl_take_of_inactive h
  | .chain condition span body more rest =>
      rw [Document.parts, List.foldl_cons,
        take_directive (Regions.apply_ifThen_of_inactive h condition),
        List.foldl_append, body.foldl_take_of_inactive rfl, List.foldl_append,
        more.foldl_take_of_passed rfl rfl]
      exact rest.foldl_take_of_inactive h

/-- **Nothing of further branches is read** where the text around them is not read or a branch was
read before. -/
theorem Branches.foldl_take_of_passed {p : Progress} {region : Region} {outer : List Region}
    (more : Branches) (hstack : p.regions.stack = region :: outer)
    (h : (region.parentActive && !region.taken) = false) :
    more.parts.foldl take p = { p with regions := ⟨outer, p.regions.defined⟩ } := by
  match more with
  | .endIf span =>
      rw [Branches.parts, List.foldl_cons, take_directive (Regions.apply_endIf hstack)]
      rfl
  | .otherwise span body close =>
      rw [Branches.parts, List.foldl_cons, take_directive (Regions.apply_otherwise hstack),
        List.foldl_append]
      rw [body.foldl_take_of_inactive (by exact h), List.foldl_cons,
        take_directive (Regions.apply_endIf rfl)]
      rfl
  | .elseIf condition span body more =>
      rw [Branches.parts, List.foldl_cons,
        take_directive (Regions.apply_elseIf_of_passed hstack h condition), List.foldl_append,
        body.foldl_take_of_inactive rfl]
      exact more.foldl_take_of_passed rfl (by exact h)

end

/-! ## Documents where text is read

By recursion on the document and its branches, as in the definition of what is read. -/

/-- **A branch that is read makes the others be passed over**, and one that is not leaves it to
them. -/
theorem Document.reads_chosen {p : Progress} {value : Bool} {outer : List Region} {body : Document}
    {more : Branches} {found : List Lexeme × Definitions}
    (hstack : p.regions.stack = ⟨true, value, value⟩ :: outer)
    (h : (if value then body.read? p.regions.definitions
      else more.read? p.regions.definitions) = some found)
    (hbody : p.regions.isActive = true → body.read? p.regions.definitions = some found →
      Reads p (body.parts.foldl take p) p.regions.stack found.1 found.2)
    (hmore : p.regions.stack = ⟨true, false, false⟩ :: outer →
      more.read? p.regions.definitions = some found →
      Reads p (more.parts.foldl take p) outer found.1 found.2) :
    Reads p ((body.parts ++ more.parts).foldl take p) outer found.1 found.2 := by
  have hactive : p.regions.isActive = value := by rw [Regions.isActive, hstack]
  rw [List.foldl_append]
  cases value with
  | true =>
      obtain ⟨hlexemes, herrors, hleft, hdefined⟩ := hbody hactive h
      rw [more.foldl_take_of_passed (hleft.trans hstack) rfl]
      exact ⟨hlexemes, herrors, rfl, hdefined⟩
  | false =>
      rw [body.foldl_take_of_inactive hactive]
      exact hmore hstack h

mutual

/-- **What is read of a document where text is read is what its meaning says.** -/
theorem Document.reads {p : Progress} (doc : Document) (h : p.regions.isActive = true)
    {found : List Lexeme × Definitions} (hread : doc.read? p.regions.definitions = some found) :
    Reads p (doc.parts.foldl take p) p.regions.stack found.1 found.2 := by
  match doc with
  | .done =>
      cases hread
      exact ⟨(List.append_nil _).symm, rfl, rfl, rfl⟩
  | .lexeme l rest =>
      obtain ⟨behind, hrest, rfl⟩ := Option.map_eq_some_iff.1 hread
      have hkeep : p.keep l = { p with lexemes := p.lexemes.push l } := if_pos h
      have hfirst : Reads p { p with lexemes := p.lexemes.push l } p.regions.stack [l]
          p.regions.definitions :=
        ⟨Array.toList_push, rfl, rfl, rfl⟩
      rw [Document.parts, List.foldl_cons, take, hkeep]
      exact hfirst.trans (rest.reads (by exact h) hrest)
  | .define symbol span rest =>
      obtain ⟨name, hname, hrest⟩ := Option.bind_eq_some_iff.1 hread
      rw [← Regions.definitions_insert p.regions.stack] at hrest
      rw [Document.parts, List.foldl_cons, take_directive (Regions.apply_define h hname)]
      exact .of_regions (rest.reads (by exact h) hrest)
  | .undefine symbol span rest =>
      obtain ⟨name, hname, hrest⟩ := Option.bind_eq_some_iff.1 hread
      rw [← Regions.definitions_erase p.regions.stack] at hrest
      rw [Document.parts, List.foldl_cons, take_directive (Regions.apply_undefine h hname)]
      exact .of_regions (rest.reads (by exact h) hrest)
  | .chain condition span body more rest =>
      obtain ⟨value, hvalue, hread⟩ := Option.bind_eq_some_iff.1 hread
      obtain ⟨found, hchosen, hread⟩ := Option.bind_eq_some_iff.1 hread
      obtain ⟨behind, hrest, rfl⟩ := Option.map_eq_some_iff.1 hread
      have hchain : Reads p ((body.parts ++ more.parts).foldl take
          { p with regions := ⟨⟨true, value, value⟩ :: p.regions.stack, p.regions.defined⟩ })
          p.regions.stack found.1 found.2 :=
        .of_regions (Document.reads_chosen rfl hchosen (fun h hread => body.reads h hread)
          (fun h hread => more.reads h hread))
      rw [Document.parts, List.foldl_cons, take_directive (Regions.apply_ifThen h hvalue),
        ← List.append_assoc, List.foldl_append]
      generalize (body.parts ++ more.parts).foldl take _ = q at hchain ⊢
      -- the regions are as before the chain, so what is behind it is read as well
      have hactive : q.regions.isActive = true := by
        rw [Regions.isActive, hchain.stack]
        exact h
      have hbehind := rest.reads hactive (hchain.definitions ▸ hrest)
      rw [hchain.stack] at hbehind
      exact hchain.trans hbehind

/-- **What is read of further branches when none was read before is what their meaning says.** -/
theorem Branches.reads {p : Progress} {active : Bool} {outer : List Region} (more : Branches)
    (hstack : p.regions.stack = ⟨true, false, active⟩ :: outer) {found : List Lexeme × Definitions}
    (hread : more.read? p.regions.definitions = some found) :
    Reads p (more.parts.foldl take p) outer found.1 found.2 := by
  match more with
  | .endIf span =>
      cases hread
      rw [Branches.parts, List.foldl_cons, take_directive (Regions.apply_endIf hstack)]
      exact ⟨(List.append_nil _).symm, rfl, rfl, rfl⟩
  | .otherwise span body close =>
      have hlast : p.regions.apply .otherwise =
          .ok ⟨⟨true, true, true⟩ :: outer, p.regions.defined⟩ :=
        Regions.apply_otherwise hstack
      rw [Branches.parts, List.foldl_cons, take_directive hlast, List.foldl_append]
      have hbody :
          Reads p (body.parts.foldl take
            { p with regions := ⟨⟨true, true, true⟩ :: outer, p.regions.defined⟩ })
          (⟨true, true, true⟩ :: outer) found.1 found.2 := .of_regions (body.reads rfl hread)
      rw [List.foldl_cons, take_directive (Regions.apply_endIf hbody.stack)]
      exact ⟨hbody.lexemes, hbody.errors, rfl, hbody.definitions⟩
  | .elseIf condition span body more =>
      obtain ⟨value, hvalue, hchosen⟩ := Option.bind_eq_some_iff.1 hread
      rw [Branches.parts, List.foldl_cons, take_directive (Regions.apply_elseIf hstack hvalue)]
      exact .of_regions (Document.reads_chosen rfl hchosen (fun h hread => body.reads h hread)
        (fun h hread => more.reads h hread))

end

namespace Progress

/-- **Exactly the chosen branches are read.** Take pieces of a text that are the parts of a
document. Where text is not read, going through them changes nothing. Where text is read, exactly
the lexemes are found that the meaning of the document says, and no error; the regions are those
from before, and the definitions are those the meaning says. A whole text that is a document comes
to its meaning. -/
theorem reads_chosen_branches (doc : Document) :
    (∀ (p : Progress) (pieces : List Raw), parts p.lineStart pieces = doc.parts →
      (p.regions.isActive = false → (pieces.foldl next p).lexemes = p.lexemes ∧
        (pieces.foldl next p).errors = p.errors ∧ (pieces.foldl next p).regions = p.regions) ∧
      (p.regions.isActive = true → ∀ ls defined, doc.read? p.regions.definitions =
        some (ls, defined) →
        Reads p (pieces.foldl next p) p.regions.stack ls defined)) ∧
    ∀ (text : List Char) (ls : List Lexeme)
    (defined : Definitions), parts true (Raw.ofText text) = doc.parts →
      doc.read? (fun _ => false) = some (ls, defined) → ofText text = ⟨ls, []⟩ := by
  constructor
  · intro p pieces hparts
    rw [foldl_next, hparts]
    constructor
    · intro h
      rw [doc.foldl_take_of_inactive h]
      exact ⟨rfl, rfl, rfl⟩
    · intro h ls defined hread
      obtain ⟨hlexemes, herrors, hstack, hdefined⟩ := doc.reads h hread
      exact ⟨hlexemes, herrors, hstack, hdefined⟩
  · intro text ls defined hparts hread
    obtain ⟨hlexemes, herrors, hstack, -⟩ := doc.reads (p := .initial) rfl hread
    rw [ofText_eq, hparts, finish, hlexemes, herrors, hstack]
    rfl

/-- Conditions that are not well formed do no harm in branches that are passed over. -/
theorem reads_chosen_branches_nested :
    ofText ("#define A\n#if A\nx\n#elif (\n#if (\ny\n#endif\n#endif\n" ++
        "#if !A\nz\n#else\n#undef A\nw\n#endif").toList =
      ⟨[⟨.ident, "x", ⟨16, 17⟩⟩, ⟨.ident, "w", ⟨72, 73⟩⟩], []⟩ :=
  (reads_chosen_branches
    (.define ['A'] ⟨0, 9⟩
      (.chain ['A'] ⟨10, 15⟩ (.lexeme ⟨.ident, "x", ⟨16, 17⟩⟩ .done)
        (.elseIf ['('] ⟨18, 25⟩
          (.chain ['('] ⟨26, 31⟩ (.lexeme ⟨.ident, "y", ⟨32, 33⟩⟩ .done) (.endIf ⟨34, 40⟩) .done)
          (.endIf ⟨41, 47⟩))
        (.chain ['!', 'A'] ⟨48, 54⟩ (.lexeme ⟨.ident, "z", ⟨55, 56⟩⟩ .done)
          (.otherwise ⟨57, 62⟩ (.undefine ['A'] ⟨63, 71⟩ (.lexeme ⟨.ident, "w", ⟨72, 73⟩⟩ .done))
            ⟨74, 80⟩) .done)))).2
    _ _ _ (by decide +kernel) rfl

end Progress

end Lexed

end SharpTokens
