import Mathlib.Data.List.Forall2
import SharpTokens.Proofs.Directive.Operands
import SharpTokens.Proofs.Directive.Unread
import SharpTokens.Proofs.Lexeme.Returns

/-!
# Line ends and lexemes

A text has the same lexemes with and without carriage returns before its line feeds, each with the
carriage returns that fall into it (`Lexed.kin_crlf`). The pieces of the two texts differ at the
ends of some lines (`Raw.FirstPieces`), but in nothing that a reader heeds: a directive that takes a
carriage return says the same, and an error says nothing.

The proof goes through the two texts at once, piece by piece, and says at each place that the rest
has the same parts (`Lexed.SameFrom`). Where the pieces of the two texts are the same up to carriage
returns, one step does it. At the end of a line a piece may take the carriage return and leave the
line feed, and then the blanks behind it are cut at another place.
-/

namespace SharpTokens

open Text

variable {text : List Char}

/-! ## Directives

A directive goes up to the line feed, so it may have a carriage return at its end. Blanks there do
not count, nor does a comment. -/

/-- One more blank at the end is trimmed away. -/
theorem Text.trim_append_blank {c : Char} (hc : isBlank c = true) (cs : List Char) :
    trim (cs ++ [c]) = trim cs := by
  rw [trim, trim, List.dropWhile_append]
  split
  · next h => simp [List.isEmpty_iff.1 h, hc]
  · rw [List.reverse_append, List.reverse_singleton, List.singleton_append,
      List.dropWhile_cons_of_pos hc]

namespace Directive

/-- A carriage return at the end is in the comment or behind the text before it. -/
theorem beforeComment_return (cs : List Char) :
    beforeComment (cs ++ ['\r']) = beforeComment cs ∨
      beforeComment (cs ++ ['\r']) = beforeComment cs ++ ['\r'] := by
  fun_induction beforeComment cs with
  | case1 => exact .inr rfl
  | case2 cs => exact .inl rfl
  | case3 c cs hslash ih =>
      have hcons : beforeComment (c :: cs ++ ['\r']) = c :: beforeComment (cs ++ ['\r']) := by
        refine beforeComment.eq_3 c (cs ++ ['\r']) fun rest hc hrest => ?_
        cases cs with
        | nil => cases hrest
        | cons d cs => exact hslash cs hc (by rw [(List.cons.inj hrest).1])
      rw [hcons]
      exact ih.imp (congrArg (c :: ·)) (congrArg (c :: ·))

/-- A carriage return at its end does not change a directive. -/
theorem parse_return (cs : List Char) : parse (cs ++ ['\r']) = parse cs := by
  have htrim : trim (beforeComment (cs ++ ['\r'])) = trim (beforeComment cs) := by
    rcases beforeComment_return cs with h | h
    · rw [h]
    · rw [h, trim_append_blank (by decide)]
  simp only [parse, htrim]

end Directive

/-! ## Parts that are the same

Errors are left out of the comparison: they may be cut differently, and nothing is read of them. -/

/-- The same lexeme of a text, without and with carriage returns before line feeds. -/
structure Lexeme.Kin (text : List Char) (l l' : Lexeme) : Prop where
  kind_eq : l'.kind = l.kind
  /-- Only strings go over the end of a line. -/
  text_eq : l'.text = l.text ∨ l.kind = .string
  place : ∃ pre post, text = pre ++ (l.text.toList ++ post) ∧
    l.span = ⟨byteSize pre, byteSize (pre ++ l.text.toList)⟩ ∧
    l'.span = ⟨byteSize (crlf pre), byteSize (crlf (pre ++ l.text.toList))⟩

namespace Lexed

/-- Parts that are the same one by one, apart from errors. -/
inductive Kindred (text : List Char) : List Part → List Part → Prop
  | nil : Kindred text [] []
  | lexeme {l l' ps ps'} : l.Kin text l' → Kindred text ps ps' → Kindred text (.lexeme l :: ps)
      (.lexeme l' :: ps')
  | directive {d s s' ps ps'} : Kindred text ps ps' → Kindred text (.directive d s :: ps)
      (.directive d s' :: ps')
  | strayLeft {e s ps ps'} : Kindred text ps ps' → Kindred text (.stray e s :: ps) ps'
  | strayRight {e s ps ps'} : Kindred text ps ps' → Kindred text ps (.stray e s :: ps')

namespace Progress

/-- As far through a text with carriage returns as without them. -/
structure Kin (text : List Char) (p p' : Progress) : Prop where
  regions_eq : p'.regions = p.regions
  lexemes : List.Forall₂ (Lexeme.Kin text) p.lexemes.toList p'.lexemes.toList

namespace Kin

variable {p p' : Progress}

/-- Kin lexemes are kept or left out together. -/
theorem keep (h : p.Kin text p') {l l' : Lexeme} (hl : l.Kin text l') :
    (p.keep l).Kin text (p'.keep l') := by
  rw [Progress.keep, Progress.keep, h.regions_eq]
  split
  · refine ⟨rfl, ?_⟩
    rw [Array.toList_push, Array.toList_push]
    exact List.rel_append h.lexemes (.cons hl .nil)
  · exact h

/-- A directive does the same in both texts. -/
theorem directive (h : p.Kin text p') (d : Directive) (s s' : Span) :
    (p.take (.directive d s)).Kin text (p'.take (.directive d s')) := by
  rw [Progress.take, Progress.take, h.regions_eq]
  cases p.regions.apply d with
  | ok regions => exact ⟨rfl, h.lexemes⟩
  | error e => exact ⟨h.regions_eq, h.lexemes⟩

/-- An error without a counterpart does no harm. -/
theorem strayLeft (h : p.Kin text p') (e : SyntaxError) (s : Span) :
    (p.take (.stray e s)).Kin text p' := by
  rw [Progress.take, Progress.failIfActive]
  split
  · exact ⟨h.regions_eq, h.lexemes⟩
  · exact h

theorem strayRight (h : p.Kin text p') (e : SyntaxError) (s : Span) :
    p.Kin text (p'.take (.stray e s)) := by
  rw [Progress.take, Progress.failIfActive]
  split
  · exact ⟨h.regions_eq, h.lexemes⟩
  · exact h

/-- **Parts that are the same come to the same.** -/
theorem foldl_take (h : p.Kin text p') {ps ps' : List Part} (hparts : Kindred text ps ps') :
    (ps.foldl Progress.take p).Kin text (ps'.foldl Progress.take p') := by
  induction hparts generalizing p p' with
  | nil => exact h
  | lexeme hl _ ih => exact ih (h.keep hl)
  | directive _ ih => exact ih (h.directive _ _ _)
  | strayLeft _ ih => exact ih (h.strayLeft _ _)
  | strayRight _ ih => exact ih (h.strayRight _ _)

end Kin

end Progress

/-! ## Parts of a text with and without carriage returns

The position in the text without them is `pre`, and `crlf pre` is the one in the other text. -/

/-- Lines start at the same places. -/
theorem foldl_lineStartAfter_crlf (lineStart : Bool) (cs : List Char) :
    (crlf cs).foldl lineStartAfter lineStart = cs.foldl lineStartAfter lineStart := by
  induction cs generalizing lineStart with
  | nil => rfl
  | cons c cs ih =>
      by_cases hc : c = '\n'
      · subst hc
        rw [crlf_lineFeed, List.foldl_cons, List.foldl_cons, List.foldl_cons, ih]
        rfl
      · rw [crlf_cons hc, List.foldl_cons, List.foldl_cons, ih]

variable {pre u s : List Char} {rs rs' : List Raw} {ps ps' : List Part} {span span' : Span}
  {lineStart : Bool}

/-- A piece that gets its carriage returns inside. -/
theorem Kindred.piece {kind : Option Kind} (htext : text = pre ++ (u ++ s))
    (hstarts : Raw.Starts (u ++ s) u kind) (h : Kindred text ps ps') :
    Kindred text
      ((partOf lineStart ⟨kind, u, ⟨byteSize pre, byteSize pre + byteSize u⟩⟩).toList ++ ps)
      ((partOf lineStart ⟨kind, crlf u, ⟨byteSize (crlf pre), byteSize (crlf pre) +
        byteSize (crlf u)⟩⟩).toList ++ ps') := by
  cases kind with
  | none => exact .strayLeft (.strayRight h)
  | some k =>
      -- only blanks, comments and strings hold a line feed
      have hfeed : '\n' ∉ u ∨ k = .whitespace ∨ k = .blockComment ∨ k = .string := by
        by_cases hu : '\n' ∈ u
        · exact .inr (hstarts.kind_of_lineFeed hu)
        · exact .inl hu
      by_cases hk : k = .directive
      · subst hk
        rw [crlf_eq_self (hfeed.resolve_right (by simp))]
        cases lineStart with
        | true => exact .directive h
        | false => exact .strayLeft (.strayRight h)
      · rw [partOf_of_ne_directive rfl hk, partOf_of_ne_directive rfl hk]
        split
        · exact h
        · next htrivia =>
          refine .lexeme ⟨rfl, ?_, pre, s, ?_, ?_, ?_⟩ h
          · rcases hfeed with hu | rfl | rfl | rfl
            · exact .inl (by rw [crlf_eq_self hu])
            · exact absurd rfl htrivia
            · exact absurd rfl htrivia
            · exact .inr rfl
          · rwa [String.toList_ofList]
          · rw [String.toList_ofList, byteSize_append]
          · rw [String.toList_ofList, crlf_append, byteSize_append]

/-- A piece that ends with a carriage return. -/
theorem Kindred.lineEnd {kind : Option Kind} (hu : u ≠ [])
    (hkind : kind = none ∨ kind = some .lineComment ∨ kind = some .directive ∧ '\n' ∉ u)
    (h : Kindred text ps ps') :
    Kindred text ((partOf lineStart ⟨kind, u, span⟩).toList ++ ps)
      ((partOf lineStart ⟨kind, crlf u ++ ['\r'], span'⟩).toList ++ ps') := by
  rcases hkind with rfl | rfl | ⟨rfl, hfeed⟩
  · exact .strayLeft (.strayRight h)
  · exact h
  · have hparse : Directive.parse ((crlf u ++ ['\r']).drop 1) = Directive.parse (u.drop 1) := by
      rw [crlf_eq_self hfeed, List.drop_append_of_le_length (List.length_pos_iff.2 hu),
        Directive.parse_return]
    cases lineStart with
    | true =>
        simp only [partOf, hparse]
        exact .directive h
    | false => exact .strayLeft (.strayRight h)

/-- A text has the same parts with carriage returns from some place on, whatever stands before it on
its line. -/
def SameFrom (text pre t : List Char) : Prop :=
  ∀ {rs rs' : List Raw}, Raw.Cut (byteSize pre) rs t → Raw.Cut (byteSize (crlf pre)) rs' (crlf t) →
    ∀ lineStart, Kindred text (parts lineStart rs) (parts lineStart rs')

theorem sameFrom_nil : SameFrom text pre [] := by
  intro rs rs' hcut hcut' lineStart
  cases hcut with
  | nil =>
      cases hcut' with
      | nil => exact .nil
      | cons hne _ => exact absurd rfl hne
  | cons hne _ => exact absurd rfl hne

/-! ### Piece by piece

A piece that is the same in both texts, the end of a line, or a backslash before it: these are the
ways in which both texts can go on. -/

/-- A piece that is the same in both texts, and then the rest. -/
theorem sameFrom_piece {kind : Option Kind} (htext : text = pre ++ (u ++ s)) (hu : u ≠ [])
    (hstarts : Raw.Starts (u ++ s) u kind) (hstarts' : Raw.Starts (crlf (u ++ s)) (crlf u) kind)
    (h : SameFrom text (pre ++ u) s) : SameFrom text pre (u ++ s) := by
  intro rs rs' hcut hcut' lineStart
  rw [crlf_append] at hcut' hstarts'
  obtain ⟨rs, rfl, hrest⟩ := hcut.of_starts hu hstarts
  obtain ⟨rs', rfl, hrest'⟩ := hcut'.of_starts (fun hnil => hu (crlf_injective hnil)) hstarts'
  rw [← byteSize_append] at hrest hrest'
  rw [← crlf_append] at hrest'
  rw [parts, parts, foldl_lineStartAfter_crlf]
  exact Kindred.piece htext hstarts (h hrest hrest' _)

/-- Behind a carriage return that some piece took, the line feed is one piece with the blanks that
follow it. -/
theorem kindred_at_lineFeed (hcut : Raw.Cut (byteSize pre) rs ('\n' :: s))
    (hcut' : Raw.Cut (byteSize (crlf pre ++ ['\r'])) rs' ('\n' :: crlf s))
    (h : ∀ gap rest, s = gap ++ rest → SameFrom text (pre ++ '\n' :: gap) rest)
    (lineStart lineStart' : Bool) :
    Kindred text (parts lineStart rs) (parts lineStart' rs') := by
  -- blanks behind the line feed are one piece with it in both texts
  obtain ⟨gap, rest, rfl, hgap, hrest⟩ := exists_blanks s
  have hgap' : ∀ c ∈ crlf gap, Rule.blanks.mem c = true := by
    intro c hc
    rcases eq_or_mem_of_mem_crlf hc with rfl | hc
    · decide
    · exact hgap c hc
  have hrest' : ∀ d tail, crlf rest = d :: tail → Rule.blanks.mem d = false := by
    intro d tail heq
    cases rest with
    | nil => cases heq
    | cons c rest =>
        have hc := hrest c rest rfl
        have hne : c ≠ '\n' := by
          rintro rfl
          cases hc
        rw [crlf_cons hne] at heq
        rwa [← (List.cons.inj heq).1]
  rw [← List.cons_append] at hcut
  rw [crlf_append, ← List.cons_append] at hcut'
  obtain ⟨rs₁, hcut₁, hparts₁⟩ := parts_behind_blanks hcut
    (List.forall_mem_cons.2 ⟨by decide, hgap⟩) hrest
  obtain ⟨rs₂, hcut₂, hparts₂⟩ := parts_behind_blanks hcut'
    (List.forall_mem_cons.2 ⟨by decide, hgap'⟩) hrest'
  rw [← byteSize_append] at hcut₁ hcut₂
  rw [hparts₁, hparts₂, List.foldl_cons, List.foldl_cons, foldl_lineStartAfter_crlf]
  refine h gap rest rfl hcut₁ ?_ _
  rwa [crlf_append, crlf_lineFeed, List.append_cons]

/-- A piece that takes the carriage return of its line, and then the rest of the text from the line
feed on. -/
theorem sameFrom_lineEnd {kind : Option Kind} (hu : u ≠ [])
    (hkind : kind = none ∨ kind = some .lineComment ∨ kind = some .directive ∧ '\n' ∉ u)
    (hstarts : Raw.Starts (u ++ '\n' :: s) u kind)
    (hstarts' : Raw.Starts (crlf (u ++ '\n' :: s)) (crlf u ++ ['\r']) kind)
    (h : ∀ gap rest, s = gap ++ rest → SameFrom text ((pre ++ u) ++ '\n' :: gap) rest) :
    SameFrom text pre (u ++ '\n' :: s) := by
  intro rs rs' hcut hcut' lineStart
  have hcrlf : crlf (u ++ '\n' :: s) = (crlf u ++ ['\r']) ++ '\n' :: crlf s := by
    rw [crlf_append, crlf_lineFeed, List.append_cons]
  rw [hcrlf] at hcut' hstarts'
  obtain ⟨rs, rfl, hrest⟩ := hcut.of_starts hu hstarts
  obtain ⟨rs', rfl, hrest'⟩ := hcut'.of_starts (by simp) hstarts'
  rw [← byteSize_append] at hrest hrest'
  rw [← List.append_assoc, ← crlf_append] at hrest'
  exact Kindred.lineEnd hu hkind (kindred_at_lineFeed hrest hrest' h _ _)

/-- A backslash that is an error of its own without the carriage return. -/
theorem sameFrom_escape (hu : u ≠ []) (hstarts : Raw.Starts (u ++ '\\' :: '\n' :: s) u none)
    (hstarts' : Raw.Starts (crlf (u ++ '\\' :: '\n' :: s)) (crlf u ++ ['\\', '\r']) none)
    (h : ∀ gap rest, s = gap ++ rest → SameFrom text (((pre ++ u) ++ ['\\']) ++ '\n' :: gap) rest) :
    SameFrom text pre (u ++ '\\' :: '\n' :: s) := by
  intro rs rs' hcut hcut' lineStart
  have hcrlf : crlf (u ++ '\\' :: '\n' :: s) = (crlf u ++ ['\\', '\r']) ++ '\n' :: crlf s := by
    rw [crlf_append, crlf_cons (by decide), crlf_lineFeed, List.append_assoc]
    rfl
  rw [hcrlf] at hcut' hstarts'
  obtain ⟨rs, rfl, hbackslash⟩ := hcut.of_starts hu hstarts
  obtain ⟨rs, rfl, hrest⟩ := Raw.Cut.of_starts (s := ['\\']) hbackslash (by simp)
    (Raw.starts_backslash _)
  obtain ⟨rs', rfl, hrest'⟩ := hcut'.of_starts (by simp) hstarts'
  rw [← byteSize_append, ← byteSize_append] at hrest
  have hfront : crlf pre ++ (crlf u ++ ['\\', '\r']) = crlf ((pre ++ u) ++ ['\\']) ++ ['\r'] := by
    simp [crlf_cons]
  rw [← byteSize_append, hfront] at hrest'
  exact .strayLeft (.strayLeft (.strayRight (kindred_at_lineFeed hrest hrest' h _ _)))

/-- **A text has the same parts with carriage returns**, from every place on. -/
theorem sameFrom {t : List Char} (htext : text = pre ++ t) : SameFrom text pre t := by
  induction hn : t.length using Nat.strongRecOn generalizing t pre with
  | ind n ih =>
      subst hn
      by_cases ht : t = []
      · subst ht
        exact sameFrom_nil
      · -- what a piece leaves is shorter, since no piece is empty
        have hbehind : ∀ v rest : List Char, text = v ++ rest → rest.length < t.length →
            SameFrom text v rest :=
          fun v rest hv hlt => ih rest.length hlt hv rfl
        cases Raw.firstPieces ht with
        | @same u s kind hsplit hu hstarts hstarts' =>
            subst hsplit
            refine sameFrom_piece htext hu hstarts hstarts'
              (hbehind _ _ (by rw [htext, List.append_assoc]) ?_)
            rw [List.length_append]
            exact Nat.lt_add_of_pos_left (List.length_pos_iff.2 hu)
        | @lineEnd u s kind hsplit hu hkind hstarts hstarts' =>
            subst hsplit
            refine sameFrom_lineEnd hu hkind hstarts hstarts' fun gap rest hs => hbehind _ _ ?_ ?_
            · simp only [htext, hs, List.append_assoc, List.cons_append]
            · simp only [hs, List.length_append, List.length_cons]
              omega
        | @escape u s hsplit hu hstarts hstarts' =>
            subst hsplit
            refine sameFrom_escape hu hstarts hstarts' fun gap rest hs => hbehind _ _ ?_ ?_
            · simp only [htext, hs, List.append_assoc, List.cons_append, List.nil_append]
            · simp only [hs, List.length_append, List.length_cons]
              omega

/-- **A text has the same lexemes with carriage returns before its line feeds.** -/
theorem kin_crlf (text : List Char) :
    List.Forall₂ (Lexeme.Kin text) (ofText text).lexemes (ofText (crlf text)).lexemes := by
  rw [ofText_eq, ofText_eq]
  have hinitial : Progress.initial.Kin text .initial := ⟨rfl, .nil⟩
  have hparts := sameFrom (List.nil_append text).symm (Raw.cut_ofText text)
    (Raw.cut_ofText (crlf text)) true
  exact (hinitial.foldl_take hparts).lexemes

end Lexed

end SharpTokens
