/-!
# Bytes of a text

Texts travel as their UTF-8 bytes. Not every list of bytes is a text.
-/

namespace SharpTokens

/-- What travels on a channel. -/
abbrev Bytes := List UInt8

namespace Text

def encodeUtf8 (s : String) : Bytes := s.toUTF8.data.toList

def decodeUtf8? (bytes : Bytes) : Option String := String.fromUTF8? ⟨bytes.toArray⟩

theorem length_encodeUtf8 (s : String) : (encodeUtf8 s).length = s.utf8ByteSize := by
  rw [encodeUtf8, Array.length_toList]
  rfl

@[simp] theorem decodeUtf8?_encodeUtf8 (s : String) : decodeUtf8? (encodeUtf8 s) = some s := by
  have h : (⟨s.toUTF8.data.toList.toArray⟩ : ByteArray) = s.toByteArray := by
    simp [String.toUTF8]
  simp only [decodeUtf8?, encodeUtf8, h, String.fromUTF8?, s.isValidUTF8, dite_true]
  rfl

theorem eq_encodeUtf8_of_decodeUtf8? {bytes : Bytes} {s : String} (h : decodeUtf8? bytes = some s) :
    bytes = encodeUtf8 s := by
  simp only [decodeUtf8?, String.fromUTF8?] at h
  split at h
  · cases h
    simp [encodeUtf8, String.toUTF8, String.fromUTF8]
  · cases h

end Text

end SharpTokens
