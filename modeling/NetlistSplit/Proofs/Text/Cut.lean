import NetlistSplit.Proofs.Text.Boundary

/-!
# Cuts between characters

A string cannot be cut inside of a character, though offsets count bytes.  `cut?` cuts a
text only where a character begins or the text ends (`MayCut`).  In the encoding of a
string these are the places between two characters (`mayCut_ofString_iff`), and what is
cut out between two of them is the encoding of a string again (`IsString.slice`).
-/

namespace NetlistSplit.Text

/-- Whether a text may be cut at an offset, which is one of its ends or the place of a byte
that begins a character. -/
def MayCut (text : Text) (offset : Nat) : Prop :=
  offset = 0 ∨ offset = text.length ∨ ∃ b ∈ text[offset]?, b.IsUTF8FirstByte

instance (text : Text) (offset : Nat) : Decidable (text.MayCut offset) :=
  inferInstanceAs (Decidable (_ ∨ _ ∨ _))

/-- The bytes between two offsets, if the text may be cut at both. -/
def cut? (text : Text) (start stop : Nat) : Option Text :=
  if start ≤ stop ∧ text.MayCut start ∧ text.MayCut stop then some (text.slice start stop)
  else none

/-- The line of the byte at an offset, if the text may be cut there. -/
def lineAt? (text : Text) (offset : Nat) : Option Nat :=
  (text.cut? 0 offset).map fun front => front.count Byte.newline + 1

/-- Whether a text is the encoding of a string. -/
def IsString (text : Text) : Prop :=
  ∃ string : String, text = ofString string

variable {text : Text} {start stop offset : Nat}

/-! ## Where a text may be cut -/

theorem mayCut_zero (text : Text) : text.MayCut 0 :=
  .inl rfl

theorem mayCut_length (text : Text) : text.MayCut text.length :=
  .inr (.inl rfl)

theorem MayCut.le_length (hoffset : text.MayCut offset) : offset ≤ text.length := by
  rcases hoffset with rfl | rfl | ⟨b, hb, -⟩
  · exact Nat.zero_le _
  · exact Nat.le_refl _
  · exact Nat.le_of_lt (List.getElem?_eq_some_iff.mp hb).1

theorem mayCut_of_ascii {b : UInt8} (hb : text[offset]? = some b) (hascii : b &&& 0x80 = 0) :
    text.MayCut offset :=
  .inr (.inr ⟨b, hb, .inl hascii⟩)

theorem mayCut_ofString_iff {string : String} :
    (ofString string).MayCut offset ↔ (⟨offset⟩ : String.Pos.Raw).IsValid string := by
  constructor
  · rintro (rfl | rfl | ⟨b, hb, hfirst⟩)
    · exact String.Pos.Raw.isValid_zero
    · rw [length_ofString]
      exact String.Pos.Raw.isValid_rawEndPos
    · obtain ⟨hlt, rfl⟩ := List.getElem?_eq_some_iff.mp hb
      rw [length_ofString] at hlt
      exact String.Pos.Raw.isValid_iff_isUTF8FirstByte.mpr (.inr ⟨hlt, hfirst⟩)
  · intro hvalid
    rcases String.Pos.Raw.isValid_iff_isUTF8FirstByte.mp hvalid with hend | ⟨hlt, hfirst⟩
    · have hoffset : offset = string.utf8ByteSize := congrArg String.Pos.Raw.byteIdx hend
      exact .inr (.inl (hoffset.trans (length_ofString string).symm))
    · have hlength : offset < (ofString string).length := by
        rw [length_ofString]
        exact hlt
      exact .inr (.inr ⟨_, List.getElem?_eq_getElem hlength, hfirst⟩)

/-- What lies between two characters of a string is a place where it may be cut. -/
theorem IsString.mayCut (hstring : text.IsString) (hoffset : text.IsBoundary offset) :
    text.MayCut offset := by
  obtain ⟨string, rfl⟩ := hstring
  exact mayCut_ofString_iff.mpr (hoffset string rfl)

theorem IsString.mayCut_succ (hstring : text.IsString) {b : UInt8} (hb : text[offset]? = some b)
    (hascii : b &&& 0x80 = 0) : text.MayCut (offset + 1) :=
  hstring.mayCut (isBoundary_succ hb hascii)

theorem cut?_eq_slice (hle : start ≤ stop) (hstart : text.MayCut start) (hstop : text.MayCut stop) :
    text.cut? start stop = some (text.slice start stop) :=
  if_pos ⟨hle, hstart, hstop⟩

theorem cut?_zero (hoffset : text.MayCut offset) : text.cut? 0 offset = some (text.take offset) :=
  cut?_eq_slice (Nat.zero_le _) (mayCut_zero text) hoffset

theorem cut?_length (hoffset : text.MayCut offset) :
    text.cut? offset text.length = some (text.drop offset) := by
  rw [cut?_eq_slice hoffset.le_length hoffset (mayCut_length text), slice,
    List.take_of_length_le (Nat.le_of_eq List.length_drop)]

theorem lineAt?_eq (hoffset : text.MayCut offset) :
    text.lineAt? offset = some (text.lineAt offset) := by
  rw [lineAt?, cut?_zero hoffset]
  rfl

/-! ## Encodings of strings -/

theorem isString_iff : text.IsString ↔ (⟨text.toArray⟩ : ByteArray).IsValidUTF8 := by
  constructor
  · rintro ⟨string, rfl⟩
    have hbytes : (⟨(ofString string).toArray⟩ : ByteArray) = string.toByteArray := by
      simp [ofString]
    rw [hbytes]
    exact string.isValidUTF8
  · intro hvalid
    exact ⟨String.ofByteArray _ hvalid, by simp [ofString]⟩

theorem isString_nil : IsString [] :=
  ⟨"", rfl⟩

theorem isString_newline : IsString [Byte.newline] :=
  ⟨"\n", rfl⟩

theorem IsString.append {other : Text} (hstring : text.IsString) (hother : other.IsString) :
    (text ++ other).IsString := by
  obtain ⟨string, rfl⟩ := hstring
  obtain ⟨string', rfl⟩ := hother
  exact ⟨string ++ string', by simp [ofString]⟩

theorem IsString.slice (hstring : text.IsString) (hle : start ≤ stop)
    (hstart : text.MayCut start) (hstop : text.MayCut stop) : (text.slice start stop).IsString := by
  obtain ⟨string, rfl⟩ := hstring
  have hvalid : (string.toByteArray.extract start stop).IsValidUTF8 := by
    refine (String.Pos.Raw.isValidUTF8_extract_iff ⟨start⟩ ⟨stop⟩ hle ?_).mpr (.inr ⟨?_, ?_⟩)
    · have hle := hstop.le_length
      rwa [length_ofString] at hle
    · exact mayCut_ofString_iff.mp hstart
    · exact mayCut_ofString_iff.mp hstop
  have hbytes : (⟨((ofString string).slice start stop).toArray⟩ : ByteArray) =
      string.toByteArray.extract start stop := by
    simp [ByteArray.ext_iff, ← Array.toList_inj, ofString, Text.slice, List.extract_eq_take_drop]
  rw [isString_iff, hbytes]
  exact hvalid

end NetlistSplit.Text
