/-!
# Bytes of a text

The bytes of a text in UTF-8, and the text that bytes stand for if they are valid.
-/

namespace AccessControl.Text

def bytes (s : String) : List UInt8 := s.toUTF8.data.toList

def ofBytes? (bs : List UInt8) : Option String := String.fromUTF8? ⟨bs.toArray⟩

@[simp] theorem ofBytes?_bytes (s : String) : ofBytes? (bytes s) = some s := by
  have h : (⟨(bytes s).toArray⟩ : ByteArray) = s.toUTF8 := by simp [bytes]
  have hv : s.toUTF8.IsValidUTF8 := s.isValidUTF8
  rw [ofBytes?, h, String.fromUTF8?, dif_pos hv]
  rfl

theorem bytes_injective {s t : String} (h : bytes s = bytes t) : s = t := by
  have h' := congrArg ofBytes? h
  simpa using h'

end AccessControl.Text
