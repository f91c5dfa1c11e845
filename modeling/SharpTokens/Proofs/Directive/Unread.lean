import SharpTokens.Proofs.Lexeme.Lines
import SharpTokens.Proofs.Lexeme.Parts
import SharpTokens.Proofs.Lexeme.Pieces

/-!
# Text that is not read

Lines between `#if false` and `#endif` have no effect on what follows: the lexemes and errors of a
text behind them are those of that text alone, further on by the bytes before it
(`Lexed.unread_without_effect`). Text that is not read is still cut into pieces, though, so this
needs that the closing directive is one. It is not where a comment or a string that was opened
before goes over it (`Lexed.unread_hides_closing`).

The pieces before `#endif` are all passed over, since no directive among them is first on its line
and counts. What follows starts a line, so it is cut and read as if it stood alone, at another
offset. Moving a text on is a function on everything that is found in it, and each step of the
reader commutes with it.
-/

namespace SharpTokens

open Text

/-! ## Further on in a text

Spans move, and nothing else changes. Every step of going through a text commutes with moving it. -/

def Lexeme.moved (n : Nat) (l : Lexeme) : Lexeme := { l with span := l.span.moved n }

namespace Lexed

def moved (n : Nat) (l : Lexed) : Lexed :=
  ⟨l.lexemes.map (Lexeme.moved n), l.errors.map fun e => (e.1, e.2.moved n)⟩

def Part.moved (n : Nat) : Part → Part
  | .lexeme l => .lexeme (l.moved n)
  | .directive d span => .directive d (span.moved n)
  | .stray e span => .stray e (span.moved n)

/-- What a piece is does not depend on where it stands. -/
theorem partOf_moved (n : Nat) (lineStart : Bool) (r : Raw) :
    partOf lineStart (r.moved n) = (partOf lineStart r).map (Part.moved n) := by
  obtain ⟨kind, text, span⟩ := r
  cases kind with
  | none => rfl
  | some k =>
      by_cases hk : k = .directive
      · subst hk
        cases lineStart
        all_goals rfl
      · rw [Raw.moved, partOf_of_ne_directive rfl hk, partOf_of_ne_directive rfl hk]
        cases k.isTrivia
        all_goals rfl

theorem parts_moved (n : Nat) (lineStart : Bool) (rs : List Raw) :
    parts lineStart (rs.map (Raw.moved n)) = (parts lineStart rs).map (Part.moved n) := by
  induction rs generalizing lineStart with
  | nil => rfl
  | cons r rs ih =>
      rw [List.map_cons, parts, parts, List.map_append, partOf_moved, ih]
      cases partOf lineStart r
      all_goals rfl

namespace Progress

def moved (n : Nat) (p : Progress) : Progress :=
  { p with
    lexemes := p.lexemes.map (Lexeme.moved n)
    errors := p.errors.map fun e => (e.1, e.2.moved n) }

@[simp] theorem moved_initial (n : Nat) : initial.moved n = initial := by simp [moved, initial]

/-- A part adds the same further on. -/
theorem take_moved (n : Nat) (p : Progress) (part : Part) :
    (p.moved n).take (part.moved n) = (p.take part).moved n := by
  cases part with
  | lexeme l =>
      cases h : p.regions.isActive with
      | true => simp [take, Part.moved, keep, moved, h]
      | false => simp [take, Part.moved, keep, moved, h]
  | directive d span =>
      cases h : p.regions.apply d with
      | ok regions => simp only [take, Part.moved, moved, h]
      | error e => simp [take, Part.moved, moved, fail, h]
  | stray e span =>
      cases h : p.regions.isActive with
      | true => simp [take, Part.moved, failIfActive, fail, moved, h]
      | false => simp [take, Part.moved, failIfActive, moved, h]

theorem foldl_take_moved (n : Nat) (p : Progress) (parts : List Part) :
    (parts.map (Part.moved n)).foldl take (p.moved n) = (parts.foldl take p).moved n := by
  induction parts generalizing p with
  | nil => rfl
  | cons part parts ih => rw [List.map_cons, List.foldl_cons, take_moved, ih, List.foldl_cons]

/-- The end of the text moves with it. -/
theorem finish_moved (n size : Nat) (p : Progress) :
    (p.moved n).finish (n + size) = (p.finish size).moved n := by
  cases h : p.regions.stack.isEmpty with
  | true => simp [finish, moved, Lexed.moved, h]
  | false => simp [finish, moved, Lexed.moved, Span.moved, Span.point, h]

end Progress

/-! ## Directives among pieces

A directive counts if it is first on its line. A piece that is one starts with `#`, so it can be
found in the text. -/

/-- Whether pieces end at the start of a line is told from their text. -/
theorem lineStartAfterAll_eq (lineStart : Bool) (rs : List Raw) :
    lineStartAfterAll lineStart rs = (Raw.texts rs).foldl lineStartAfter lineStart := by
  induction rs generalizing lineStart with
  | nil => rfl
  | cons r rs ih =>
      rw [Raw.texts_cons, List.foldl_append, ← ih]
      rfl

/-- A directive is a piece of its kind that is first on its line. -/
theorem exists_of_directive_mem {lineStart : Bool} {rs : List Raw} {d : Directive} {span : Span}
    (h : .directive d span ∈ parts lineStart rs) :
    ∃ rs₁ r rs₂, rs = rs₁ ++ r :: rs₂ ∧ r.kind = some .directive ∧
      (Raw.texts rs₁).foldl lineStartAfter lineStart = true := by
  induction rs generalizing lineStart with
  | nil => cases h
  | cons r rs ih =>
      rcases List.mem_append.1 h with hfirst | hrest
      · have hpart : partOf lineStart r = some (.directive d span) := by simpa using hfirst
        refine ⟨[], r, rs, rfl, ?_⟩
        unfold partOf at hpart
        split at hpart
        · next hkind =>
          split at hpart
          · next hstart => exact ⟨hkind, hstart⟩
          · cases hpart
        · split at hpart
          · cases hpart
          · cases hpart
        · cases hpart
      · obtain ⟨rs₁, r', rs₂, rfl, hkind, hstart⟩ := ih hrest
        exact ⟨r :: rs₁, r', rs₂, rfl, hkind, by rwa [Raw.texts_cons, List.foldl_append]⟩

/-- A directive starts with its mark. -/
theorem hash_of_cut {offset : Nat} {rs : List Raw} {text : List Char}
    (h : Raw.Cut offset rs text) {r : Raw} (hr : r ∈ rs) (hkind : r.kind = some .directive) :
    ∃ v, r.text = '#' :: v := by
  induction h with
  | nil => cases hr
  | @cons offset rs text _ _ ih =>
      rcases List.mem_cons.1 hr with rfl | hr
      · have hright := Raw.munch_spec text
        simp only [Raw.first] at hkind ⊢
        cases hfound : Raw.munch Rule.table 0 none text with
        | hit o n =>
            rw [hfound] at hkind hright
            cases o with
            | accept k =>
                cases hkind
                exact Raw.hash_of_directive hright.2.2.1
            | refuse => cases hkind
        | miss n =>
            rw [hfound] at hkind
            cases hkind
      · exact ih hr

/-- Some line of a text starts with `#`, after blanks. -/
def HasDirectiveLine (text : List Char) : Prop :=
  ∃ pre rest, text = pre ++ '#' :: rest ∧ AtLineStart pre

/-- Without the mark there is no directive. -/
theorem not_hasDirectiveLine {text : List Char} (h : '#' ∉ text) : ¬ HasDirectiveLine text := by
  rintro ⟨pre, rest, rfl, -⟩
  exact h (by simp)

/-- **Lines that do not start with `#` hold no directives.** -/
theorem directive_not_mem {text : List Char} {rs : List Raw} (hline : ¬ HasDirectiveLine text)
    (htexts : Raw.texts rs = '\n' :: text)
    (hhash : ∀ r ∈ rs, r.kind = some .directive → ∃ v, r.text = '#' :: v)
    (lineStart : Bool) (d : Directive) (span : Span) : .directive d span ∉ parts lineStart rs := by
  intro hmem
  obtain ⟨rs₁, r, rs₂, rfl, hkind, hstart⟩ := exists_of_directive_mem hmem
  obtain ⟨v, hv⟩ := hhash r (by simp) hkind
  rw [Raw.texts_append, Raw.texts_cons, hv, List.cons_append] at htexts
  -- the mark is not the first character, which is the end of a line
  cases hpre : Raw.texts rs₁ with
  | nil =>
      rw [hpre] at htexts
      cases htexts
  | cons c pre =>
      rw [hpre] at htexts hstart
      rw [List.cons_append, List.cons.injEq] at htexts
      obtain ⟨rfl, rfl⟩ := htexts
      exact hline ⟨pre, _, rfl, atLineStart_of_foldl hstart⟩

/-! ## Between the directives

Blanks are the one thing that is cut differently by what stands before it: those at the start of the
text that follows may be one piece with the line feed before them. They are no part of anything, so
the parts are the same. -/

/-- Blanks are one piece, which is nothing to a reader. -/
theorem parts_behind_blanks {offset : Nat} {rs : List Raw} {gap rest : List Char}
    (h : Raw.Cut offset rs (gap ++ rest)) (hgap : ∀ c ∈ gap, Rule.blanks.mem c = true)
    (hrest : ∀ d tail, rest = d :: tail → Rule.blanks.mem d = false) :
    ∃ rs', Raw.Cut (offset + byteSize gap) rs' rest ∧
      ∀ lineStart, parts lineStart rs = parts (gap.foldl lineStartAfter lineStart) rs' := by
  cases gap with
  | nil => exact ⟨rs, h, fun _ => rfl⟩
  | cons c gap =>
      obtain ⟨rs', rfl, hcut⟩ := h.of_hit (List.cons_ne_nil c gap) (Raw.munch_blanks hgap hrest)
      exact ⟨rs', hcut, fun _ => rfl⟩

/-- A text is blanks and something that does not start with any. -/
theorem exists_blanks (text : List Char) : ∃ gap rest, text = gap ++ rest ∧
    (∀ c ∈ gap, Rule.blanks.mem c = true) ∧ ∀ d tail, rest = d :: tail →
    Rule.blanks.mem d = false := by
  induction text with
  | nil => exact ⟨[], [], rfl, by simp, by simp⟩
  | cons c text ih =>
      cases hc : Rule.blanks.mem c with
      | true =>
          obtain ⟨gap, rest, rfl, hgap, hrest⟩ := ih
          exact ⟨c :: gap, rest, rfl, List.forall_mem_cons.2 ⟨hc, hgap⟩, hrest⟩
      | false =>
          refine ⟨[], c :: text, rfl, by simp, fun d tail heq => ?_⟩
          cases heq
          exact hc

/-- A text is the same to a reader behind the end of a line. -/
theorem parts_behind_lineFeed {offset : Nat} {rs : List Raw} {post : List Char}
    (h : Raw.Cut offset rs ('\n' :: post)) (lineStart : Bool) :
    parts lineStart rs = (parts true (Raw.ofText post)).map (Part.moved (offset + 1)) := by
  -- blanks that the text starts with are one piece with the end of the line
  obtain ⟨gap, rest, rfl, hgap, hrest⟩ := exists_blanks post
  rw [← List.cons_append] at h
  obtain ⟨rs₁, hcut₁, hparts₁⟩ :=
    parts_behind_blanks h (List.forall_mem_cons.2 ⟨by decide, hgap⟩) hrest
  obtain ⟨rs₂, hcut₂, hparts₂⟩ := parts_behind_blanks (Raw.cut_ofText (gap ++ rest)) hgap hrest
  have hrs : rs₁ = rs₂.map (Raw.moved (offset + 1)) := by
    refine hcut₁.unique ?_
    have hmoved := hcut₂.moved (offset + 1)
    rw [byteSize_cons, ← Nat.add_assoc]
    rwa [Nat.zero_add] at hmoved
  rw [hparts₁, hparts₂, hrs, parts_moved]
  rfl

/-- A text behind the end of a line. -/
theorem ofText_cons_lineFeed (post : List Char) :
    ofText ('\n' :: post) = (ofText post).moved 1 := by
  have hparts := parts_behind_lineFeed (Raw.cut_ofText ('\n' :: post)) true
  rw [ofText_eq, ofText_eq, hparts, ← Progress.finish_moved, ← Progress.foldl_take_moved,
    Progress.moved_initial, byteSize_cons]
  rfl

@[simp] theorem moved_zero (l : Lexed) : l.moved 0 = l := by
  have hlexeme : Lexeme.moved 0 = id := by
    funext l
    simp [Lexeme.moved, Span.moved]
  simp [moved, hlexeme, Span.moved]

/-- Moving twice is moving by the sum. -/
theorem moved_moved (m n : Nat) (l : Lexed) : (l.moved n).moved m = l.moved (m + n) := by
  have hlexeme : Lexeme.moved m ∘ Lexeme.moved n = Lexeme.moved (m + n) := by
    funext l
    simp [Lexeme.moved, Span.moved, Nat.add_assoc]
  simp [moved, hlexeme, Span.moved, Nat.add_assoc]

/-- A text behind empty lines. -/
theorem ofText_behind_lineFeeds (n : Nat) (post : List Char) :
    ofText (List.replicate n '\n' ++ post) = (ofText post).moved n := by
  induction n with
  | zero => simp
  | succ n ih =>
      rw [List.replicate_succ, List.cons_append, ofText_cons_lineFeed, ih, moved_moved,
        Nat.add_comm]

/-! ### Lines that are not read

Each line has its line feed behind it, so the directive that closes starts a line also where there
are no lines between. -/

/-- Lines, each with its end. -/
def unlines (lines : List (List Char)) : List Char := lines.flatMap (· ++ ['\n'])

/-- Behind the end of a line, lines end with the end of one. -/
theorem exists_cons_unlines (lines : List (List Char)) :
    ∃ front, '\n' :: unlines lines = front ++ ['\n'] := by
  rcases List.eq_nil_or_concat lines with rfl | ⟨lines, line, rfl⟩
  · exact ⟨[], rfl⟩
  · refine ⟨'\n' :: (unlines lines ++ line), ?_⟩
    simp [unlines]

/-- A text behind lines that are not read. -/
def unread (lines : List (List Char)) (post : List Char) : List Char :=
  "#if false\n".toList ++ unlines lines ++ "#endif\n".toList ++ post

def closing (post : List Char) : List Char := "#endif".toList ++ '\n' :: post

/-- The text in the order in which it is cut: the opening directive, the lines with the line feed
before them, and the closing directive. -/
theorem unread_eq (lines : List (List Char)) (post : List Char) :
    unread lines post = "#if false".toList ++ ('\n' :: unlines lines ++ closing post) := by
  have hopening : "#if false\n".toList = "#if false".toList ++ ['\n'] := rfl
  have hclosing : "#endif\n".toList = "#endif".toList ++ ['\n'] := rfl
  unfold unread closing
  rw [hopening, hclosing]
  simp only [List.append_assoc, List.cons_append, List.nil_append]

/-- The bytes up to where the closing directive starts. -/
theorem byteSize_opened (lines : List (List Char)) :
    byteSize ("#if false\n".toList ++ unlines lines) = 9 + byteSize ('\n' :: unlines lines) := by
  have hopening : byteSize "#if false\n".toList = 9 + '\n'.utf8Size := rfl
  rw [byteSize_append, hopening, byteSize_cons]
  omega

/-- The bytes before the text that is read. -/
theorem byteSize_unread_nil (lines : List (List Char)) :
    byteSize (unread lines []) =
      9 + byteSize ('\n' :: unlines lines) + byteSize "#endif".toList + 1 := by
  have hopening : byteSize "#if false".toList = 9 := rfl
  have hclosing : byteSize (closing []) = byteSize "#endif".toList + 1 := rfl
  rw [unread_eq, byteSize_append "#if false".toList, byteSize_append _ (closing []), hopening,
    hclosing]
  omega

theorem byteSize_unread (lines : List (List Char)) (post : List Char) :
    byteSize (unread lines post) = byteSize (unread lines []) + byteSize post := by
  unfold unread
  rw [byteSize_append, List.append_nil]

/-- The opening directive is the first piece. -/
theorem exists_opening (lines : List (List Char)) (post : List Char) :
    ∃ rs, Raw.ofText (unread lines post) = ⟨some .directive, "#if false".toList, ⟨0, 9⟩⟩ :: rs ∧
      Raw.Cut 9 rs ('\n' :: unlines lines ++ closing post) := by
  have h := Raw.cut_ofText (unread lines post)
  rw [unread_eq] at h ⊢
  exact h.of_hit (by decide) (Raw.munch_directive (w := "if false".toList) (by decide) (by simp))

/-- What the opening directive does: text behind it is not read. -/
theorem take_opening :
    Progress.initial.take (.directive (Directive.parse ("#if false".toList.drop 1)) ⟨0, 9⟩) =
    { Progress.initial with regions := ⟨[⟨true, false, false⟩], []⟩ } := rfl

/-- What the closing directive does: all is as at the start. -/
theorem take_closing (span : Span) :
    Progress.take { Progress.initial with regions := ⟨[⟨true, false, false⟩], []⟩ }
      (.directive (Directive.parse ("#endif".toList.drop 1)) span) = .initial := rfl

/-- **Where the closing directive is a piece, the lines before it have no effect.** -/
theorem ofText_unread {lines : List (List Char)} {post : List Char} {rs : List Raw}
    (hline : ¬ HasDirectiveLine (unlines lines))
    (hrs : Raw.ofText (unread lines post) = ⟨some .directive, "#if false".toList, ⟨0, 9⟩⟩ :: rs)
    (hcut : Raw.Cut 9 rs ('\n' :: unlines lines ++ closing post))
    (hparted : Raw.Parted 9 rs ('\n' :: unlines lines) (closing post)) :
    ofText (unread lines post) = (ofText post).moved (byteSize (unread lines [])) := by
  obtain ⟨rs₁, rs₂, rfl, htexts, hclosing⟩ := hparted
  have hnone := directive_not_mem hline htexts
    (fun r hr => hash_of_cut hcut (List.mem_append_left rs₂ hr)) false
  have hlineStart : lineStartAfterAll false rs₁ = true := by
    obtain ⟨front, hfront⟩ := exists_cons_unlines lines
    rw [lineStartAfterAll_eq, htexts, hfront, List.foldl_append]
    rfl
  obtain ⟨rs₃, rfl, hpost⟩ := hclosing.of_hit (by decide)
    (Raw.munch_directive (w := "endif".toList) (by decide) (by simp))
  have hparts := parts_behind_lineFeed hpost false
  rw [← byteSize_unread_nil] at hparts
  rw [ofText_eq, ofText_eq, hrs, byteSize_unread, ← Progress.finish_moved,
    ← Progress.foldl_take_moved, ← hparts, Progress.moved_initial]
  -- the two directives undo each other, and nothing between them counts
  show Progress.finish ((parts false (rs₁ ++ _)).foldl _ _) _ = _
  rw [take_opening, parts_append, List.foldl_append, hlineStart,
    Progress.foldl_take_of_inactive rfl hnone]
  show Progress.finish ((parts false rs₃).foldl _ _) _ = _
  rw [take_closing]

/-- No opener starts with a line feed, so one behind it is in what follows. -/
theorem isInfix_of_opener {o : String} {cs : List Char} (ho : o ∈ Rule.openers)
    (h : o.toList <:+: '\n' :: cs) : o.toList <:+: cs := by
  have hfirst : ∀ o ∈ Rule.openers, ∃ c rest, o.toList = c :: rest ∧ c ≠ '\n' := by
    simp [Rule.openers]
  rcases List.infix_cons_iff.1 h with hpre | hinside
  · obtain ⟨c, rest, hcons, hc⟩ := hfirst o ho
    rw [hcons, List.cons_prefix_cons] at hpre
    exact absurd hpre.1 hc
  · exact hinside

/-- **Without an opener no piece reaches over the closing directive.** -/
theorem parted_of_no_opener {lines : List (List Char)} {post : List Char} {offset : Nat}
    {rs : List Raw} (hcut : Raw.Cut offset rs ('\n' :: unlines lines ++ closing post))
    (hopen : ∀ s ∈ Rule.openers, ¬ s.toList <:+: unlines lines) :
    Raw.Parted offset rs ('\n' :: unlines lines) (closing post) := by
  refine hcut.parted_of_stop fun s hne hsuffix => ?_
  by_contra hlt
  have hhash : closing post = '#' :: ("endif".toList ++ '\n' :: post) := rfl
  rw [hhash] at hlt
  obtain ⟨r, hr, v, hmatches⟩ := Raw.opens_of_munch hne (by decide) (Nat.lt_of_not_le hlt)
  -- a piece that reaches over would go over the end of the line before
  obtain ⟨front, hfront⟩ := exists_cons_unlines lines
  rw [hfront] at hsuffix
  obtain ⟨u, rfl, hu⟩ := (List.suffix_concat_iff.1 hsuffix).resolve_left hne
  rw [List.append_assoc, List.append_assoc] at hmatches
  rcases Rule.opener_of_crossing hr hmatches with hblank | ⟨o, ho, hheld⟩
  · exact absurd (hblank '#' (by simp)) (by decide)
  · have hwithin : o.toList <:+: '\n' :: unlines lines :=
      hfront ▸ hheld.trans (hu.isInfix.trans (List.prefix_append front _).isInfix)
    exact hopen o ho (isInfix_of_opener ho hwithin)

/-- **Lines that are not read have no effect.** Of lines that do not start with `#`, between
`#if false` and `#endif`, nothing is left: what follows has the lexemes and errors that it has
alone, further on by the bytes before it. For this the closing directive has to be a piece, which it
is if nothing is opened that may go over several lines. -/
theorem unread_without_effect (lines : List (List Char)) (post : List Char)
    (hline : ¬ HasDirectiveLine (unlines lines))
    (hclosing : (∃ r ∈ Raw.ofText (unread lines post), r.span.start =
      byteSize ("#if false\n".toList ++ unlines lines)) ∨
      ∀ s ∈ Rule.openers, ¬ s.toList <:+: unlines lines) :
    ofText (unread lines post) = (ofText post).moved (byteSize (unread lines [])) := by
  obtain ⟨rs, hrs, hcut⟩ := exists_opening lines post
  refine ofText_unread hline hrs hcut ?_
  rcases hclosing with ⟨r, hr, hstart⟩ | hopen
  · rw [byteSize_opened] at hstart
    rw [hrs] at hr
    rcases List.mem_cons.1 hr with rfl | hr
    · have hzero : 0 = 9 + byteSize ('\n' :: unlines lines) := hstart
      omega
    · exact hcut.parted_of_start ⟨r, hr, hstart⟩
  · exact parted_of_no_opener hcut hopen

/-- A line with a comment and a string in it, and no line at all. -/
theorem unread_without_effect_comment :
    ofText (unread ["don't /* read */ @\"this\"".toList] "class C \x7b \x7d".toList) =
        (ofText "class C \x7b \x7d".toList).moved
        (byteSize (unread ["don't /* read */ @\"this\"".toList] [])) ∧
      ofText (unread [] "class C \x7b \x7d".toList) =
        (ofText "class C \x7b \x7d".toList).moved (byteSize (unread [] [])) :=
  ⟨unread_without_effect _ _ (not_hasDirectiveLine (by decide)) (.inl (by decide +kernel)),
    unread_without_effect _ _ (not_hasDirectiveLine (by decide)) (.inr (by decide))⟩

/-- A string that is opened in a line that is not read hides the closing directive, and nothing
behind it is read. -/
theorem unread_hides_closing :
    ¬ HasDirectiveLine (unlines ["@\"".toList]) ∧
      ofText (unread ["@\"".toList] "class C \x7b \x7d".toList) =
      ⟨[], [(.unbalancedConditional, .point 31)]⟩ ∧
      (ofText "class C \x7b \x7d".toList).lexemes.map (·.text) = ["class", "C", "\x7b", "\x7d"] ∧
      (ofText "class C \x7b \x7d".toList).errors = [] :=
  ⟨not_hasDirectiveLine (by decide), by decide +kernel, by decide +kernel, by decide +kernel⟩

end Lexed

end SharpTokens
