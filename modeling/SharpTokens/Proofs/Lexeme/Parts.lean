import SharpTokens.Lexeme.Lex

/-!
# What pieces of a text are to a reader

A reader of lexemes takes a piece of a text for a lexeme, for a directive, which stands first on its
line, or for something that is out of place; blanks and comments are nothing to it. Going through
pieces is taking such parts one after another (`Progress.foldl_next`), so what a text comes to is
said by its parts (`Lexed.ofText_eq`). Where text is not read, directives are all that counts
(`Progress.foldl_take_of_inactive`).

Whether a piece is first on its line is the only thing that going through the pieces has to remember
about the text, and it can be told from the text of the pieces before. So the parts of two texts,
one after the other, are the parts of the first and then those of the second from the start of its
line or not (`Progress.parts_append`).
-/

namespace SharpTokens.Lexed

open Text

/-! ## Parts

A directive that is not first on its line is out of place, and so is a piece that is no lexeme. -/

inductive Part where
  | lexeme (l : Lexeme)
  /-- a directive that is first on its line -/
  | directive (d : Directive) (span : Span)
  /-- an error, unless the text is not read -/
  | stray (error : SyntaxError) (span : Span)
  deriving DecidableEq, Repr

/-- What a piece is, given whether only blanks stand before it on its line. -/
def partOf (lineStart : Bool) (raw : Raw) : Option Part :=
  match raw.kind with
  | some .directive =>
    if lineStart then some (.directive (Directive.parse (raw.text.drop 1)) raw.span)
    else some (.stray .invalidDirective raw.span)
  | some kind =>
      if kind.isTrivia then none else some (.lexeme ⟨kind, String.ofList raw.text, raw.span⟩)
  | none => some (.stray (blame raw.text) raw.span)

/-- Only directives depend on their place on the line. -/
theorem partOf_of_ne_directive {raw : Raw} {kind : Kind} (hkind : raw.kind = some kind)
    (hne : kind ≠ .directive) (lineStart : Bool) : partOf lineStart raw =
      if kind.isTrivia then none else some (.lexeme ⟨kind, String.ofList raw.text, raw.span⟩) := by
  simp only [partOf, hkind]

/-- Whether only blanks stand behind pieces on their last line. -/
def lineStartAfterAll (lineStart : Bool) (raws : List Raw) : Bool :=
  raws.foldl (fun lineStart raw => raw.text.foldl lineStartAfter lineStart) lineStart

def parts : (lineStart : Bool) → List Raw → List Part
  | _, [] => []
  | lineStart, raw :: raws =>
    (partOf lineStart raw).toList ++ parts (raw.text.foldl lineStartAfter lineStart) raws

def Part.directive? : Part → Option Directive
  | .directive d _ => some d
  | _ => none

/-- The directives of a text that are first on their lines. -/
def directives (text : List Char) : List Directive :=
  (parts true (Raw.ofText text)).filterMap Part.directive?

/-- The second text starts where the first one ends on its line. -/
theorem parts_append (lineStart : Bool) (raws raws' : List Raw) :
    parts lineStart (raws ++ raws') = parts lineStart raws ++
      parts (lineStartAfterAll lineStart raws) raws' := by
  induction raws generalizing lineStart with
  | nil => rfl
  | cons raw raws ih =>
      rw [List.cons_append, parts, ih, parts, List.append_assoc]
      rfl

/-! ## Taking parts

Taking a part does not look at the start of the line, which was looked at to tell what the part is.
-/

namespace Progress

variable {p : Progress}

def take (p : Progress) : Part → Progress
  | .lexeme l => p.keep l
  | .directive d span =>
    match p.regions.apply d with
    | .ok regions => { p with regions }
    | .error e => p.fail e span
  | .stray e span => p.failIfActive e span

/-- What is taken does not depend on what stands before it on its line. -/
theorem take_lineStart (p : Progress) (lineStart : Bool) (part : Part) :
    take { p with lineStart } part = { p.take part with lineStart } := by
  cases part with
  | lexeme l =>
      rw [take, take, keep, keep]
      split
      all_goals rfl
  | directive d span =>
      cases h : p.regions.apply d with
      | ok regions => simp only [take, h]
      | error e => simp only [take, h, fail]
  | stray e span =>
      rw [take, take, failIfActive, failIfActive]
      split
      all_goals rfl

/-- Parts leave the note about the line as it is. -/
theorem foldl_take_lineStart (p : Progress) (lineStart : Bool) (parts : List Part) :
    parts.foldl take { p with lineStart } = { parts.foldl take p with lineStart } := by
  induction parts generalizing p with
  | nil => rfl
  | cons part parts ih => rw [List.foldl_cons, take_lineStart, ih, List.foldl_cons]

/-- What a piece adds is what its part adds. -/
theorem add_eq (p : Progress) (raw : Raw) :
    p.add raw = (partOf p.lineStart raw).toList.foldl take p := by
  unfold add
  split
  · next hkind =>
    simp only [partOf, hkind, direct]
    split
    all_goals rfl
  · next kind hdirective hkind =>
    rw [partOf_of_ne_directive hkind hdirective]
    split
    all_goals rfl
  · next hkind =>
    simp only [partOf, hkind]
    rfl

theorem next_eq (p : Progress) (raw : Raw) :
    p.next raw = { (partOf p.lineStart raw).toList.foldl take p with
      lineStart := raw.text.foldl lineStartAfter p.lineStart } := by
  rw [next, add_eq]

/-- **Going through pieces is taking their parts.** -/
theorem foldl_next (raws : List Raw) (p : Progress) :
    raws.foldl next p = { (parts p.lineStart raws).foldl take p with
      lineStart := lineStartAfterAll p.lineStart raws } := by
  induction raws generalizing p with
  | nil => rfl
  | cons raw raws ih =>
      rw [List.foldl_cons, ih, next_eq, foldl_take_lineStart, parts, List.foldl_append]
      rfl

/-- **Where text is not read, only directives count.** -/
theorem foldl_take_of_inactive (h : p.regions.isActive = false) {parts : List Part}
    (hparts : ∀ d span, Part.directive d span ∉ parts) : parts.foldl take p = p := by
  induction parts with
  | nil => rfl
  | cons part parts ih =>
      have hnone : p.take part = p := by
        cases part with
        | lexeme l => simp [take, keep, h]
        | directive d span => exact absurd List.mem_cons_self (hparts d span)
        | stray e span => simp [take, failIfActive, h]
      rw [List.foldl_cons, hnone]
      exact ih fun d span hmem => hparts d span (List.mem_cons_of_mem _ hmem)

/-- What was found when a text comes to its end, which is after `size` bytes. -/
def finish (p : Progress) (size : Nat) : Lexed :=
  ⟨p.lexemes.toList,
    p.errors.toList ++ if p.regions.stack.isEmpty then []
    else [(.unbalancedConditional, .point size)]⟩

end Progress

/-- **What a text comes to is said by its parts.** -/
theorem ofText_eq (text : List Char) :
    ofText text = ((parts true (Raw.ofText text)).foldl Progress.take .initial).finish
      (byteSize text) := by
  simp only [ofText, Progress.foldl_next, Progress.finish]
  rw [show Progress.initial.lineStart = true from rfl]
  generalize (parts true (Raw.ofText text)).foldl Progress.take .initial = p
  cases h : p.regions.stack.isEmpty with
  | true => simp
  | false => simp [Progress.fail]

end SharpTokens.Lexed
