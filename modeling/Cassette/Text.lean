/-!
# Texts as bytes

A text is typed, checked and measured as its bytes in UTF-8.  `ofBytes?_bytes` and
`bytes_of_ofBytes?` say that bytes stand for a text exactly if they are its bytes.
-/

namespace Cassette.Text

def bytes (text : String) : List UInt8 :=
  text.toUTF8.data.toList

/-- The text of which these are the bytes, if there is one. -/
def ofBytes? (bytes : List UInt8) : Option String :=
  String.fromUTF8? ⟨bytes.toArray⟩

theorem ofBytes?_bytes (text : String) : ofBytes? (bytes text) = some text := by
  have h : (⟨(bytes text).toArray⟩ : ByteArray) = text.toUTF8 := by
    simp [bytes]
  rw [ofBytes?, h, String.fromUTF8?, String.toUTF8_eq_toByteArray, dif_pos text.isValidUTF8]
  rfl

theorem bytes_of_ofBytes? {given : List UInt8} {text : String}
    (h : ofBytes? given = some text) : bytes text = given := by
  unfold ofBytes? String.fromUTF8? at h
  split at h
  · cases h
    rfl
  · cases h

end Cassette.Text
