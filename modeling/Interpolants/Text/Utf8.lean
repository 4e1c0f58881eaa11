/-!
# Interpolants — texts as bytes

The UTF-8 form of a text, as a list of bytes, and its inverse.
-/

namespace Interpolants.Text

/-- The bytes of a text. -/
def utf8 (cs : List Char) : List UInt8 :=
  cs.flatMap String.utf8EncodeChar

/-- The text that some bytes are the UTF-8 form of. -/
def ofUtf8? (bytes : List UInt8) : Option (List Char) :=
  (String.fromUTF8? bytes.toByteArray).map String.toList

theorem toByteArray_utf8 (cs : List Char) :
    (utf8 cs).toByteArray = (String.ofList cs).toByteArray := by
  rw [String.toByteArray_ofList]
  rfl

/-- Bytes made of a text give that text back. -/
theorem ofUtf8?_utf8 (cs : List Char) : ofUtf8? (utf8 cs) = some cs := by
  have valid := (String.ofList cs).isValidUTF8
  rw [ofUtf8?, toByteArray_utf8, String.fromUTF8?, dif_pos valid]
  change some (String.ofList cs).toList = some cs
  rw [String.toList_ofList]

end Interpolants.Text
