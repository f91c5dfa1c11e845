import Mathlib.Data.List.TakeDrop
import SharpTokens.Json.Reader
import SharpTokens.Json.Writer
import SharpTokens.Proofs.Text.Bytes

/-!
# Numbers and strings are read back

What is written of a number or a string is read as the same one, with whatever follows it left over.
After a number nothing may follow that could be part of it (`Ends`); a string says itself where it
ends.

Numbers are the easier part: `numeral_spec` says that digits are digits and what number they make.
In a string each character is written on its own, and `Json.ReadBack` says of what is written for
some characters that it is read as their bytes. It holds for one character by cases on how it is
written, and for a text by appending.
-/

namespace SharpTokens.Json

open Text

/-! ## Numbers

Digits are written by the standard library, the highest first. -/

/-- No number goes on with what follows. -/
def Ends (rest : Bytes) : Prop :=
  ∀ b ∈ rest.head?, isDigit b = false ∧ b ≠ byte '.' ∧ b ≠ byte 'e' ∧ b ≠ byte 'E'

def numeral (n : Nat) : Bytes := ascii (toString n)

theorem numeral_eq (n : Nat) : numeral n = (Nat.toDigits 10 n).map byte := by
  show ascii (Nat.repr n) = _
  rw [Nat.repr_eq_ofList_toDigits, ascii, String.toList_ofList]

/-- The digit that a number below ten is, as a byte. -/
theorem byte_digitChar {d : Nat} (h : d < 10) :
    isDigit (byte d.digitChar) = true ∧ (byte d.digitChar - byte '0').toNat = d ∧
      (byte d.digitChar = byte '0' → d = 0) := by
  have hall : ∀ d < 10, isDigit (byte (Nat.digitChar d)) = true ∧
      (byte (Nat.digitChar d) - byte '0').toNat = d ∧
      (byte (Nat.digitChar d) = byte '0' → d = 0) := by
    decide
  exact hall d h

theorem numeral_lt {n : Nat} (h : n < 10) : numeral n = [byte n.digitChar] := by
  rw [numeral_eq, Nat.toDigits_of_lt_base h]
  rfl

/-- The last digit is the remainder by ten. -/
theorem numeral_ge {n : Nat} (h : 10 ≤ n) :
    numeral n = numeral (n / 10) ++ [byte (n % 10).digitChar] := by
  rw [numeral_eq, Nat.toDigits_of_base_le (by decide) h, List.map_append, ← numeral_eq]
  rfl

/-- The digits of a number have its value, and the first of them is a zero only if there is no
other. -/
theorem numeral_spec (n : Nat) :
    (∀ b ∈ numeral n, isDigit b = true) ∧ decimal (numeral n) = n ∧
      ∃ b bs, numeral n = b :: bs ∧ (b = byte '0' → n = 0) := by
  induction n using Nat.strongRecOn with
  | ind n ih =>
      cases Nat.lt_or_ge n 10 with
      | inl hlt =>
          obtain ⟨hdigit, hvalue, hzero⟩ := byte_digitChar hlt
          rw [numeral_lt hlt]
          refine ⟨?_, ?_, _, [], rfl, hzero⟩
          · intro b hb
            rw [List.mem_singleton.1 hb]
            exact hdigit
          · show 10 * 0 + (byte n.digitChar - byte '0').toNat = n
            omega
      | inr hge =>
          -- the digits of the tenth, and then the last one
          obtain ⟨hdigits, hdecimal, b, bs, hcons, hzero⟩ := ih (n / 10) (by omega)
          obtain ⟨hdigit, hvalue, -⟩ := byte_digitChar (Nat.mod_lt n (by decide : 0 < 10))
          rw [numeral_ge hge]
          refine ⟨?_, ?_, b, bs ++ [byte (n % 10).digitChar], by rw [hcons]; rfl, ?_⟩
          · intro c hc
            rcases List.mem_append.1 hc with hc | hc
            · exact hdigits c hc
            · rw [List.mem_singleton.1 hc]
              exact hdigit
          · rw [decimal, List.foldl_append]
            show 10 * decimal (numeral (n / 10)) + (byte (n % 10).digitChar - byte '0').toNat = n
            rw [hdecimal, hvalue]
            omega
          · intro hb
            have := hzero hb
            omega

/-- A number starts with a digit. -/
theorem numeral_head (n : Nat) : ∃ b bs, numeral n = b :: bs ∧ isDigit b = true := by
  obtain ⟨hdigits, -, b, bs, hcons, -⟩ := numeral_spec n
  exact ⟨b, bs, hcons, hdigits b (by rw [hcons]; exact List.mem_cons_self)⟩

theorem ne_of_isDigit {b : UInt8} {c : Char} (hb : isDigit b = true)
    (hc : isDigit (byte c) = false) :
    b ≠ byte c := by
  rintro rfl
  rw [hb] at hc
  cases hc

theorem isSpace_of_isDigit {b : UInt8} (hb : isDigit b = true) : isSpace b = false := by
  have hne : ∀ c : Char, isDigit (byte c) = false → (b == byte c) = false :=
    fun c hc => beq_false_of_ne (ne_of_isDigit hb hc)
  rw [isSpace, hne ' ' rfl, hne '\t' rfl, hne '\n' rfl, hne '\r' rfl]
  rfl

/-- All digits of a number are taken, and what follows it is left. -/
theorem span_digits {digits rest : Bytes} (hdigits : ∀ b ∈ digits, isDigit b = true)
    (hrest : Ends rest) :
    (digits ++ rest).span isDigit = (digits, rest) := by
  have hstop : rest.takeWhile isDigit = [] ∧ rest.dropWhile isDigit = rest := by
    cases rest with
    | nil => exact ⟨rfl, rfl⟩
    | cons b rest =>
        have hb := (hrest b rfl).1
        exact ⟨by rw [List.takeWhile_cons, hb]; rfl, by rw [List.dropWhile_cons, hb]; rfl⟩
  rw [List.span_eq_takeWhile_dropWhile, List.takeWhile_append_of_pos hdigits,
    List.dropWhile_append_of_pos hdigits, hstop.1, hstop.2, List.append_nil]

/-- No number that is written starts with a zero, unless it is zero. -/
theorem integerPart?_numeral (n : Nat) {rest : Bytes} (hrest : Ends rest) :
    integerPart? (numeral n ++ rest) = some (numeral n, rest) := by
  obtain ⟨hdigits, -, b, bs, hcons, hzero⟩ := numeral_spec n
  have hdigits? : digits? (numeral n ++ rest) = some (numeral n, rest) := by
    have hb : isDigit b = true := hdigits b (by rw [hcons]; exact List.mem_cons_self)
    rw [digits?, span_digits hdigits hrest, hcons]
    simp [hb]
  cases hb : decide (b = byte '0') with
  | true =>
      have hn := hzero (of_decide_eq_true hb)
      subst hn
      have hhead : rest.head?.any isDigit = false := by
        cases rest with
        | nil => rfl
        | cons c rest => exact (hrest c rfl).1
      rw [numeral_lt (by decide : 0 < 10)]
      show (if rest.head?.any isDigit = true then none else some ([byte '0'], rest)) = _
      rw [hhead]
      rfl
  | false =>
      rw [← hdigits?, hcons]
      exact if_neg (of_decide_eq_false hb)

/-- A number is read back. -/
theorem unsigned?_numeral (n : Nat) {rest : Bytes} (hrest : Ends rest) :
    unsigned? (numeral n ++ rest) = some (.natural n, rest) := by
  have hends : goesOn rest = false := by
    cases rest with
    | nil => rfl
    | cons b rest =>
        obtain ⟨-, hpoint, he, hE⟩ := hrest b rfl
        show (b == byte '.' || b == byte 'e' || b == byte 'E') = false
        rw [beq_false_of_ne hpoint, beq_false_of_ne he, beq_false_of_ne hE]
        rfl
  rw [unsigned?, integerPart?_numeral n hrest]
  simp [hends, (numeral_spec n).2.1]

/-- A number is read back. -/
theorem number?_numeral (n : Nat) {rest : Bytes} (hrest : Ends rest) :
    number? (numeral n ++ rest) = some (.natural n, rest) := by
  have hunsigned := unsigned?_numeral n hrest
  obtain ⟨b, bs, hcons, hb⟩ := numeral_head n
  rw [hcons] at hunsigned ⊢
  exact (if_neg (ne_of_isDigit hb rfl)).trans hunsigned

/-! ## Strings

Most bytes stand for themselves. A few are written as two characters, and other control characters
as a code unit in four digits. -/

/-- A byte that stands for itself in a string. -/
def IsPlain (b : UInt8) : Prop := b ≠ byte '"' ∧ b ≠ byte '\\' ∧ ¬ b < 0x20

/-- Plain bytes are read one by one. -/
theorem readPieces_plain (bs rest : Bytes) (found : Array Piece) (h : ∀ b ∈ bs, IsPlain b) :
    readPieces (bs ++ rest) found = readPieces rest (found ++ bs.map Piece.byte) := by
  induction bs generalizing found with
  | nil => simp
  | cons b bs ih =>
      obtain ⟨hquote, hbackslash, hcontrol⟩ := h b List.mem_cons_self
      rw [List.cons_append, readPieces.eq_def]
      simp only [if_neg hquote, if_neg hbackslash, if_neg hcontrol]
      rw [ih _ fun b hb => h b (List.mem_cons_of_mem _ hb)]
      simp

/-- A quote is the end. -/
theorem readPieces_quote (rest : Bytes) (found : Array Piece) :
    readPieces (byte '"' :: rest) found = some (found, rest) := by
  rw [readPieces.eq_def]
  rfl

/-- A code unit is read from its four digits. -/
theorem readPieces_unit {h₁ h₂ h₃ h₄ : UInt8} {n : Nat} (h : unit? h₁ h₂ h₃ h₄ = some n)
    (rest : Bytes) (found : Array Piece) :
    readPieces (byte '\\' :: byte 'u' :: h₁ :: h₂ :: h₃ :: h₄ :: rest) found
      = readPieces rest (found.push (.unit n)) := by
  rw [readPieces.eq_def]
  simp only [if_neg (by decide : byte '\\' ≠ byte '"'), ↓reduceIte, h]

/-- Pieces that are bytes stand for these bytes. -/
theorem pieceBytes?_bytes (bs : Bytes) (rest : List Piece) (found : Array UInt8) :
    pieceBytes? (bs.map Piece.byte ++ rest) found = pieceBytes? rest (found ++ bs) := by
  induction bs generalizing found with
  | nil => simp
  | cons b bs ih =>
      rw [List.map_cons, List.cons_append, pieceBytes?, ih]
      simp

/-- The bytes of a character that is not escaped stand for themselves. -/
theorem isPlain_of_mem {c : Char} (hquote : c ≠ '"') (hbackslash : c ≠ '\\')
    (hcontrol : ¬ c.toNat < 0x20) {b : UInt8} (hb : b ∈ String.utf8EncodeChar c) : IsPlain b := by
  have hlarge : ∀ {n : Nat}, 128 ≤ n → n < 256 → IsPlain (UInt8.ofNat n) := by
    intro n hn hlt
    have htoNat : (UInt8.ofNat n).toNat = n := UInt8.toNat_ofNat_of_lt' hlt
    refine ⟨?_, ?_, ?_⟩
    · intro h
      rw [h] at htoNat
      exact absurd (htoNat ▸ hn) (by decide)
    · intro h
      rw [h] at htoNat
      exact absurd (htoNat ▸ hn) (by decide)
    · rw [UInt8.lt_iff_toNat_lt, htoNat]
      exact Nat.not_lt.2 (Nat.le_trans (by decide) hn)
  rw [String.utf8EncodeChar.eq_1] at hb
  split at hb
  · -- one byte: that of the character itself
    rename_i hsmall
    rw [List.mem_singleton.1 hb]
    have htoNat : (UInt8.ofNat c.val.toNat).toNat = c.toNat :=
      UInt8.toNat_ofNat_of_lt' (Nat.lt_of_le_of_lt hsmall (by decide))
    have hchar : ∀ d : Char, UInt8.ofNat c.val.toNat = byte d →
        (byte d).toNat = d.toNat → c = d := by
      intro d hd hbyte
      rw [← Char.ofNat_toNat c, ← htoNat, hd, hbyte, Char.ofNat_toNat]
    refine ⟨fun h => hquote (hchar _ h rfl), fun h => hbackslash (hchar _ h rfl), ?_⟩
    rw [UInt8.lt_iff_toNat_lt, htoNat]
    exact hcontrol
  · -- several bytes: each has its highest bit set
    repeat' split at hb
    all_goals
      simp only [List.mem_cons, List.not_mem_nil, or_false] at hb
      rcases hb with rfl | rfl | rfl | rfl
      all_goals exact hlarge (by omega) (by omega)

theorem appendList_assoc {α : Type} (found : Array α) (xs ys : List α) :
    found ++ xs ++ ys = found ++ (xs ++ ys) := by
  apply Array.ext'
  simp

/-- What is written of a character is read as pieces that stand for its bytes. -/
def ReadBack (written bytes : Bytes) : Prop :=
  ∃ pieces : List Piece,
    (∀ rest found, readPieces (written ++ rest) found = readPieces rest (found ++ pieces)) ∧
      ∀ rest found, pieceBytes? (pieces ++ rest) found = pieceBytes? rest (found ++ bytes)

namespace ReadBack

theorem nil : ReadBack [] [] := ⟨[], fun _ _ => by simp, fun _ _ => by simp⟩

/-- What is read back of two texts is read back of both, one after the other. -/
theorem append {written written' bytes bytes' : Bytes} (h : ReadBack written bytes)
    (h' : ReadBack written' bytes') : ReadBack (written ++ written') (bytes ++ bytes') := by
  obtain ⟨pieces, hread, hbytes⟩ := h
  obtain ⟨pieces', hread', hbytes'⟩ := h'
  refine ⟨pieces ++ pieces', ?_, ?_⟩
  · intro rest found
    rw [List.append_assoc, hread, hread', appendList_assoc]
  · intro rest found
    rw [List.append_assoc, hbytes, hbytes', appendList_assoc]

/-- Bytes that stand for themselves. -/
theorem plain {bs : Bytes} (h : ∀ b ∈ bs, IsPlain b) : ReadBack bs bs :=
  ⟨bs.map .byte, fun rest found => readPieces_plain bs rest found h, pieceBytes?_bytes bs⟩

/-- An escape with one letter. -/
theorem short {letter b : UInt8} (hu : letter ≠ byte 'u') (h : shortEscape? letter = some b) :
    ReadBack [byte '\\', letter] [b] := by
  refine ⟨[.byte b], ?_, pieceBytes?_bytes [b]⟩
  intro rest found
  show readPieces (byte '\\' :: letter :: rest) found = _
  rw [readPieces.eq_def]
  simp only [if_neg (by decide : byte '\\' ≠ byte '"'), ↓reduceIte, if_neg hu, h]
  simp

/-- A control character, with the digits of its number. -/
theorem control {c : Char} (h : c.toNat < 0x20) :
    ReadBack [byte '\\', byte 'u', byte '0', byte '0', hexDigit (c.toNat / 16),
      hexDigit (c.toNat % 16)]
      (String.utf8EncodeChar c) := by
  have hhex : ∀ n < 16, hexValue? (hexDigit n) = some n := by decide
  have hunit : unit? (byte '0') (byte '0') (hexDigit (c.toNat / 16)) (hexDigit (c.toNat % 16))
      = some c.toNat := by
    have hzero : hexValue? (byte '0') = some 0 := rfl
    rw [unit?, hzero, hhex _ (by omega), hhex _ (by omega)]
    show some (((0 * 16 + 0) * 16 + c.toNat / 16) * 16 + c.toNat % 16) = some c.toNat
    congr 1
    omega
  refine ⟨[.unit c.toNat], ?_, ?_⟩
  · intro rest found
    refine (readPieces_unit hunit rest found).trans ?_
    simp
  · intro rest found
    show pieceBytes? (.unit c.toNat :: rest) found = _
    rw [pieceBytes?.eq_def]
    simp only
    rw [if_neg (by omega), if_neg (by omega), Char.ofNat_toNat]

end ReadBack

/-- A character in a string is read back. -/
theorem escaped_readBack (c : Char) : ReadBack (escaped c) (String.utf8EncodeChar c) := by
  unfold escaped
  split
  case h_8 hquote hbackslash _ _ _ _ _ =>
    split
    · exact .control ‹_›
    · exact .plain fun b hb => isPlain_of_mem hquote hbackslash ‹_› hb
  all_goals exact .short (by decide) rfl

/-- All characters of a text are read back. -/
theorem flatMap_escaped_readBack (cs : List Char) :
    ReadBack (cs.flatMap escaped) (cs.flatMap String.utf8EncodeChar) := by
  induction cs with
  | nil => exact .nil
  | cons c cs ih => exact (escaped_readBack c).append ih

def quotedBody (s : String) : Bytes := s.toList.flatMap escaped

/-- A string is read back, up to its closing quote. -/
theorem string?_quotedBody (s : String) (rest : Bytes) :
    string? (quotedBody s ++ byte '"' :: rest) = some (some s, rest) := by
  obtain ⟨pieces, hread, hbytes⟩ := flatMap_escaped_readBack s.toList
  have hpieces := hbytes [] #[]
  rw [List.append_nil, pieceBytes?, flatMap_utf8EncodeChar] at hpieces
  rw [string?, quotedBody, hread, readPieces_quote]
  simp [pieceText?, hpieces]

end SharpTokens.Json
