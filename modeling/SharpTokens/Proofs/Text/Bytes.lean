import SharpTokens.Proofs.Text.Places
import SharpTokens.Text.Utf8

/-!
# Bytes of characters

The bytes of a text are those of its characters, one character after another. A character is told by
its bytes wherever they stand, so bytes that start like a text are the bytes of one that does
(`exists_of_bytes_prefix`).

The encoding itself is that of the standard library. What is used of it is that the first byte says
how long a character is, so that no encoding is the start of another.
-/

namespace SharpTokens.Text

variable {c d : Char} {cs ds : List Char} {b : Bytes}

/-- Encoding a text is encoding its characters. -/
theorem flatMap_utf8EncodeChar (s : String) :
    s.toList.flatMap String.utf8EncodeChar = encodeUtf8 s := by
  have h : ∀ cs : List Char, cs.utf8Encode.data.toList = cs.flatMap String.utf8EncodeChar := by
    intro cs
    induction cs with
    | nil => rfl
    | cons c cs ih =>
        rw [List.utf8Encode_cons, ByteArray.data_append, Array.toList_append, ih,
          List.utf8Encode_singleton, List.data_toByteArray]
        rfl
  rw [← h, ← String.toByteArray_ofList, String.ofList_toList]
  rfl

/-! ## Bytes of a text -/

def bytes (cs : List Char) : Bytes := encodeUtf8 (String.ofList cs)

theorem bytes_eq (cs : List Char) : bytes cs = cs.flatMap String.utf8EncodeChar := by
  rw [bytes, ← flatMap_utf8EncodeChar, String.toList_ofList]

@[simp] theorem bytes_nil : bytes [] = [] := by rw [bytes_eq, List.flatMap_nil]

@[simp] theorem bytes_cons (c : Char) (cs : List Char) :
    bytes (c :: cs) = String.utf8EncodeChar c ++ bytes cs := by
  rw [bytes_eq, bytes_eq, List.flatMap_cons]

@[simp] theorem bytes_append (cs ds : List Char) : bytes (cs ++ ds) = bytes cs ++ bytes ds := by
  rw [bytes_eq, bytes_eq, bytes_eq, List.flatMap_append]

@[simp] theorem length_bytes (cs : List Char) : (bytes cs).length = byteSize cs := by
  rw [bytes, length_encodeUtf8, ← byteSize_toList, String.toList_ofList]

/-- A character is told by its bytes, whatever follows them. -/
theorem char_eq_of_bytes {rest rest' : Bytes}
    (h : String.utf8EncodeChar c ++ rest = String.utf8EncodeChar d ++ rest') : c = d := by
  have hdecode : ∀ (c : Char) (rest : Bytes),
      (String.utf8EncodeChar c ++ rest).toByteArray.utf8DecodeChar? 0 = some c := by
    intro c rest
    rw [List.toByteArray_append, ← List.utf8Encode_singleton]
    exact ByteArray.utf8DecodeChar?_append_eq_some List.utf8DecodeChar?_utf8Encode_singleton _
  have hd := hdecode d rest'
  rw [← h, hdecode c rest] at hd
  exact Option.some.inj hd

/-- What starts like the bytes of a text goes on with the bytes of what follows. -/
theorem exists_of_bytes_prefix (h : bytes cs ++ b <+: bytes ds) :
    ∃ es, ds = cs ++ es ∧ b <+: bytes es := by
  induction cs generalizing ds with
  | nil => exact ⟨ds, rfl, h⟩
  | cons c cs ih =>
      rw [bytes_cons, List.append_assoc] at h
      obtain ⟨rest, hrest⟩ := h
      cases ds with
      | nil =>
          have hlength := congrArg List.length hrest
          have hpos := c.utf8Size_pos
          simp only [bytes_nil, List.length_append, String.length_utf8EncodeChar,
            List.length_nil] at hlength
          omega
      | cons d ds =>
          rw [bytes_cons, List.append_assoc] at hrest
          cases char_eq_of_bytes hrest
          obtain ⟨es, rfl, hes⟩ := ih ⟨rest, List.append_cancel_left hrest⟩
          exact ⟨es, rfl, hes⟩

end SharpTokens.Text
