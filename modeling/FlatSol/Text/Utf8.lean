import FlatSol.Text.Basic

/-!
# UTF-8

The bytes of a text, and the text of bytes. Main statement: a text is read back from its bytes,
and only from them.
-/

namespace FlatSol.Text

/-- The UTF-8 form of a text. -/
def toBytes (t : Text) : ByteArray :=
  (String.ofList t).toByteArray

/-- The text that bytes are the UTF-8 form of, if there is one. -/
def ofBytes? (b : ByteArray) : Option Text :=
  (String.fromUTF8? b).map String.toList

@[simp] theorem ofBytes?_toBytes (t : Text) : ofBytes? (toBytes t) = some t := by
  have h : String.fromUTF8? (String.ofList t).toByteArray = some (String.ofList t) := by
    unfold String.fromUTF8?
    rw [dif_pos (String.ofList t).isValidUTF8]
    rfl
  rw [ofBytes?, toBytes, h, Option.map_some, String.toList_ofList]

theorem toBytes_of_ofBytes? {b : ByteArray} {t : Text} (h : ofBytes? b = some t) :
    toBytes t = b := by
  simp only [ofBytes?, String.fromUTF8?, Option.map_eq_some_iff] at h
  obtain ⟨s, hs, rfl⟩ := h
  split at hs
  · obtain rfl := Option.some.inj hs
    simp [toBytes, String.fromUTF8]
  · simp at hs

end FlatSol.Text
