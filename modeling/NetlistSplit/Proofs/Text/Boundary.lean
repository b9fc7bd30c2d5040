import NetlistSplit.Text

/-!
# Character boundaries

Offsets count bytes, and some of them lie inside of the encoding of a character.  An
ASCII byte of a well-formed text is a character of its own, so there is a boundary
in front of it and one behind it (`isBoundary_succ`).
-/

namespace NetlistSplit.Text

/-- Whether an offset lies between two characters of a text, or at one of its ends.
In a text that is not the encoding of a string, nothing is said about it. -/
def IsBoundary (text : Text) (offset : Nat) : Prop :=
  ∀ string : String, text = ofString string → (⟨offset⟩ : String.Pos.Raw).IsValid string

theorem length_ofString (string : String) : (ofString string).length = string.utf8ByteSize := by
  simp [ofString]

theorem isBoundary_zero (text : Text) : text.IsBoundary 0 := by
  intro string _
  exact String.Pos.Raw.isValid_zero

variable {text : Text} {offset : Nat} {b : UInt8}

theorem isBoundary_of_ascii (hb : text[offset]? = some b) (hascii : b &&& 0x80 = 0) :
    text.IsBoundary offset := by
  rintro string rfl
  obtain ⟨hlt, hget⟩ := List.getElem?_eq_some_iff.mp hb
  rw [length_ofString] at hlt
  refine String.Pos.Raw.isValid_iff_isUTF8FirstByte.mpr (.inr ⟨hlt, .inl ?_⟩)
  calc string.getUTF8Byte ⟨offset⟩ hlt &&& 0x80
      = b &&& 0x80 := congrArg (· &&& 0x80) hget
    _ = 0 := hascii

theorem isBoundary_succ (hb : text[offset]? = some b) (hascii : b &&& 0x80 = 0) :
    text.IsBoundary (offset + 1) := by
  rintro string rfl
  obtain ⟨hlt, hget⟩ := List.getElem?_eq_some_iff.mp hb
  rw [length_ofString] at hlt
  let pos : string.Pos := ⟨⟨offset⟩, isBoundary_of_ascii hb hascii string rfl⟩
  have hne : pos ≠ string.endPos := by
    intro heq
    have hoffset : offset = string.utf8ByteSize :=
      congrArg (fun pos : string.Pos => pos.offset.byteIdx) heq
    omega
  -- The next position is one byte further on, since the character has one byte.
  have hbyte : pos.byte hne = b := by
    rw [← hget]
    simp [String.Pos.byte, String.Slice.Pos.byte, String.Slice.getUTF8Byte,
      String.getUTF8Byte_eq_getElem, ofString, ByteArray.getElem_eq_getElem_data, pos]
  have hsize : (pos.get hne).utf8Size = 1 := by
    rw [← String.Pos.utf8ByteSize_byte, UInt8.utf8ByteSize, if_pos (by rw [hbyte, hascii])]
  have hnext : (pos.next hne).offset = ⟨offset + 1⟩ := by
    apply String.Pos.Raw.ext
    rw [String.Pos.byteIdx_offset_next, hsize]
  exact hnext ▸ (pos.next hne).isValid

end NetlistSplit.Text
