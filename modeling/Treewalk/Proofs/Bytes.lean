import Mathlib
import Treewalk.Text.Utf8

/-!
# Bytes of text

The bytes of a text are read as its characters, each from its own bytes. A byte below 128 is a
character of its own and no part of another one, so a text that is divided at such a byte is divided
into texts.
-/

namespace Treewalk.Text.Utf8

-- ---------------------------------------------------------------------------
-- The bytes of one character
-- ---------------------------------------------------------------------------

/-- The bounds as numbers. -/
theorem lengthOf_toNat (lead : UInt8) : lengthOf lead =
    if lead.toNat < 128 then 1 else if lead.toNat < 194 then 0 else if lead.toNat < 224 then 2
    else if lead.toNat < 240 then 3 else if lead.toNat < 245 then 4 else 0 := by
  simp only [lengthOf, UInt8.lt_iff_toNat_lt]
  rfl

theorem continues_iff {b : UInt8} : continues b = true ↔ 128 ≤ b.toNat ∧ b.toNat ≤ 191 := by
  simp [continues, UInt8.le_iff_toNat_le]

theorem follows_iff {lead b : UInt8} : follows lead b = true ↔
    (128 ≤ b.toNat ∧ b.toNat ≤ 191) ∧ (lead.toNat = 224 → 160 ≤ b.toNat) ∧
      (lead.toNat = 237 → b.toNat ≤ 159) ∧ (lead.toNat = 240 → 144 ≤ b.toNat) ∧
      (lead.toNat = 244 → b.toNat ≤ 143) := by
  simp only [follows, ← UInt8.toNat_inj]
  split_ifs <;> simp_all [UInt8.le_iff_toNat_le, continues]
  all_goals omega

theorem piece_one {lead : UInt8} (h : lead.toNat < 128) (rest : List UInt8) :
    piece lead rest = (.char (Char.ofNat lead.toNat), rest) := by
  have hlength : lengthOf lead = 1 := by rw [lengthOf_toNat, if_pos h]
  simp only [piece, hlength]

theorem piece_two {lead b : UInt8} (hlead : lead.toNat = v / 64 + 192)
    (hb : b.toNat = v % 64 + 128) (hlow : 127 < v) (hhigh : v ≤ 2047)
    (rest : List UInt8) : piece lead (b :: rest) = (.char (Char.ofNat v), rest) := by
  have hlength : lengthOf lead = 2 := by
    rw [lengthOf_toNat, hlead]
    split_ifs <;> omega
  have hfollows : follows lead b = true := by
    rw [follows_iff, hlead, hb]
    omega
  have hcode : lead.toNat % 32 * 64 + low b = v := by
    rw [low, hlead, hb]
    omega
  simp only [piece, hlength, two, hfollows, if_true, hcode]

theorem piece_three {lead b c : UInt8} (hlead : lead.toNat = v / 4096 + 224)
    (hb : b.toNat = v / 64 % 64 + 128) (hc : c.toNat = v % 64 + 128) (hlow : 2047 < v)
    (hhigh : v ≤ 65535) (hvalid : v < 0xD800 ∨ 0xDFFF < v) (rest : List UInt8) :
    piece lead (b :: c :: rest) = (.char (Char.ofNat v), rest) := by
  have hlength : lengthOf lead = 3 := by
    rw [lengthOf_toNat, hlead]
    split_ifs <;> omega
  have hfollows : follows lead b = true := by
    rw [follows_iff, hlead, hb]
    omega
  have hcontinues : continues c = true := by
    rw [continues_iff, hc]
    omega
  have hcode : lead.toNat % 16 * 4096 + low b * 64 + low c = v := by
    rw [low, low, hlead, hb, hc]
    omega
  simp only [piece, hlength, three, hfollows, hcontinues, if_true, hcode]

theorem piece_four {lead b c d : UInt8} (hlead : lead.toNat = v / 262144 + 240)
    (hb : b.toNat = v / 4096 % 64 + 128) (hc : c.toNat = v / 64 % 64 + 128)
    (hd : d.toNat = v % 64 + 128) (hlow : 65535 < v) (hhigh : v < 0x110000) (rest : List UInt8) :
    piece lead (b :: c :: d :: rest) = (.char (Char.ofNat v), rest) := by
  have hlength : lengthOf lead = 4 := by
    rw [lengthOf_toNat, hlead]
    split_ifs <;> omega
  have hfollows : follows lead b = true := by
    rw [follows_iff, hlead, hb]
    omega
  have hcontinues : continues c = true := by
    rw [continues_iff, hc]
    omega
  have hcontinues' : continues d = true := by
    rw [continues_iff, hd]
    omega
  have hcode : lead.toNat % 8 * 262144 + low b * 4096 + low c * 64 + low d = v := by
    rw [low, low, low, hlead, hb, hc, hd]
    omega
  simp only [piece, hlength, four, hfollows, hcontinues, hcontinues', if_true, hcode]

theorem byte_toNat (h : n < 256) : (UInt8.ofNat n).toNat = n := by
  rw [UInt8.toNat_ofNat']
  omega

/-- The bytes of a character are read as that character, whatever comes behind them. -/
theorem piece_encodeChar (c : Char) (rest : List UInt8) :
    ∃ lead tail, String.utf8EncodeChar c = lead :: tail ∧
      piece lead (tail ++ rest) = (.char c, rest) := by
  have hvalid : c.val.toNat < 0xD800 ∨ 0xDFFF < c.val.toNat ∧ c.val.toNat < 0x110000 := c.valid
  have hback : Char.ofNat c.val.toNat = c := Char.ofNat_toNat c
  unfold String.utf8EncodeChar
  dsimp only
  split_ifs with h₁ h₂ h₃
  · refine ⟨_, _, rfl, ?_⟩
    have hlead : (UInt8.ofNat c.val.toNat).toNat = c.val.toNat := byte_toNat (by omega)
    rw [List.nil_append, piece_one (by omega), hlead, hback]
  · refine ⟨_, _, rfl, (piece_two ?_ (byte_toNat (by omega)) (by omega) h₂ rest).trans ?_⟩
    · rw [byte_toNat (by omega)]
      omega
    · rw [hback]
  · refine ⟨_, _, rfl, (piece_three ?_ (byte_toNat (by omega)) (byte_toNat (by omega)) (by omega)
      h₃ (by omega) rest).trans ?_⟩
    · rw [byte_toNat (by omega)]
      omega
    · rw [hback]
  · refine ⟨_, _, rfl, (piece_four ?_ (byte_toNat (by omega)) (byte_toNat (by omega))
      (byte_toNat (by omega)) (by omega) (by omega) rest).trans ?_⟩
    · rw [byte_toNat (by omega)]
      omega
    · rw [hback]

theorem byte_high (h : 128 ≤ n) (h' : n < 256) : 128 ≤ (UInt8.ofNat n).toNat := by
  rwa [byte_toNat h']

/-- A character of more than one byte has none below 128. -/
theorem encodeChar_bytes (c : Char) : (∃ b, String.utf8EncodeChar c = [b]) ∨
    ∀ b ∈ String.utf8EncodeChar c, 128 ≤ b.toNat := by
  unfold String.utf8EncodeChar
  dsimp only
  split_ifs
  · exact .inl ⟨_, rfl⟩
  · refine .inr (List.forall_mem_cons.2 ⟨byte_high (by omega) (by omega), ?_⟩)
    exact List.forall_mem_singleton.2 (byte_high (by omega) (by omega))
  · refine .inr (List.forall_mem_cons.2 ⟨byte_high (by omega) (by omega), ?_⟩)
    refine List.forall_mem_cons.2 ⟨byte_high (by omega) (by omega), ?_⟩
    exact List.forall_mem_singleton.2 (byte_high (by omega) (by omega))
  · refine .inr (List.forall_mem_cons.2 ⟨byte_high (by omega) (by omega), ?_⟩)
    refine List.forall_mem_cons.2 ⟨byte_high (by omega) (by omega), ?_⟩
    refine List.forall_mem_cons.2 ⟨byte_high (by omega) (by omega), ?_⟩
    exact List.forall_mem_singleton.2 (byte_high (by omega) (by omega))

-- ---------------------------------------------------------------------------
-- The bytes of a text
-- ---------------------------------------------------------------------------

theorem byteArray_toList_loop (bytes : ByteArray) (i : Nat) (r : List UInt8) :
    ByteArray.toList.loop bytes i r = r.reverse ++ bytes.data.toList.drop i := by
  fun_induction ByteArray.toList.loop bytes i r with
  | case1 i r h ih =>
    have hi : i < bytes.data.toList.length := by simpa using h
    rw [ih, List.drop_eq_getElem_cons hi]
    simp [ByteArray.get!, h]
  | case2 i r h =>
    rw [List.drop_eq_nil_of_le (by simpa using Nat.le_of_not_lt h)]
    simp

theorem encode_ofList (chars : List Char) :
    encode (String.ofList chars) = chars.flatMap String.utf8EncodeChar := by
  rw [encode, String.toUTF8, String.toByteArray_ofList, List.utf8Encode, ByteArray.toList,
    byteArray_toList_loop]
  simp

theorem pieces_encode (chars : List Char) :
    pieces (chars.flatMap String.utf8EncodeChar) = chars.map .char := by
  induction chars with
  | nil => rw [List.flatMap_nil, pieces, List.map_nil]
  | cons c chars ih =>
    obtain ⟨lead, tail, hc, hpiece⟩ := piece_encodeChar c (chars.flatMap String.utf8EncodeChar)
    rw [List.flatMap_cons, hc, List.cons_append, pieces, hpiece, ih, List.map_cons]

/-- The bytes are those of a text. -/
def Valid (bytes : List UInt8) : Prop :=
  ∃ text, bytes = encode text

theorem valid_iff :
    Valid bytes ↔ ∃ chars : List Char, bytes = chars.flatMap String.utf8EncodeChar := by
  constructor
  · rintro ⟨text, rfl⟩
    exact ⟨text.toList, by rw [← encode_ofList, String.ofList_toList]⟩
  · rintro ⟨chars, rfl⟩
    exact ⟨String.ofList chars, (encode_ofList chars).symm⟩

/-- The lenient reading of a text loses nothing. -/
theorem encode_lossy (h : Valid bytes) : encode (lossy bytes) = bytes := by
  obtain ⟨chars, rfl⟩ := valid_iff.1 h
  rw [lossy, pieces_encode, List.map_map, encode_ofList]
  exact congrArg (List.flatMap String.utf8EncodeChar) (List.map_id chars)

theorem Valid.append (h : Valid bytes) (h' : Valid bytes') : Valid (bytes ++ bytes') := by
  obtain ⟨chars, rfl⟩ := valid_iff.1 h
  obtain ⟨chars', rfl⟩ := valid_iff.1 h'
  exact valid_iff.2 ⟨chars ++ chars', List.flatMap_append.symm⟩

theorem lossy_ascii (h : ∀ b ∈ bytes, b.toNat < 128) :
    lossy bytes = String.ofList (bytes.map fun b => Char.ofNat b.toNat) := by
  have hpieces : pieces bytes = bytes.map fun b => .char (Char.ofNat b.toNat) := by
    induction bytes with
    | nil => rw [pieces, List.map_nil]
    | cons b rest ih =>
      rw [pieces, piece_one (h b (by simp)), ih fun b hb => h b (by simp [hb]), List.map_cons]
  rw [lossy, hpieces, List.map_map]
  rfl

theorem encodeChar_ascii {b : UInt8} (hb : b.toNat < 128) :
    String.utf8EncodeChar (Char.ofNat b.toNat) = [b] := by
  have hval : (Char.ofNat b.toNat).val.toNat = b.toNat := by
    rw [Char.ofNat, dif_pos (.inl (by omega))]
    rfl
  unfold String.utf8EncodeChar
  dsimp only
  rw [hval, if_pos (by omega), UInt8.ofNat_toNat]

theorem valid_ascii (h : ∀ b ∈ bytes, b.toNat < 128) : Valid bytes := by
  refine valid_iff.2 ⟨bytes.map fun b => Char.ofNat b.toNat, ?_⟩
  induction bytes with
  | nil => rfl
  | cons b rest ih =>
    rw [List.map_cons, List.flatMap_cons, encodeChar_ascii (h b (by simp)),
      ← ih fun b hb => h b (by simp [hb]), List.singleton_append]

/-- A text divides at a byte below 128. -/
theorem Valid.split (h : Valid (left ++ b :: right)) (hb : b.toNat < 128) :
    Valid left ∧ Valid right := by
  obtain ⟨chars, hchars⟩ := valid_iff.1 h
  induction chars generalizing left with
  | nil => simp at hchars
  | cons c chars ih =>
    rw [List.flatMap_cons] at hchars
    have hc : Valid (String.utf8EncodeChar c) := valid_iff.2 ⟨[c], by simp⟩
    obtain ⟨more, rfl, hmore⟩ | ⟨more, hc', hmore⟩ := List.append_eq_append_iff.1 hchars.symm
    · obtain ⟨hleft, hright⟩ := ih (hmore ▸ valid_iff.2 ⟨chars, rfl⟩) hmore.symm
      exact ⟨hc.append hleft, hright⟩
    · obtain _ | ⟨next, more⟩ := more
      · rw [List.nil_append] at hmore
        rw [List.append_nil] at hc'
        have hnext : Valid ([] ++ b :: right) := hmore ▸ valid_iff.2 ⟨chars, rfl⟩
        obtain ⟨-, hright⟩ := ih hnext hmore
        exact ⟨hc' ▸ hc, hright⟩
      -- The byte is one of the first character, which is no other then.
      · obtain ⟨rfl, hright⟩ := List.cons.inj hmore
        obtain ⟨only, honly⟩ | hhigh := encodeChar_bytes c
        · rw [hc', List.append_eq_singleton_iff] at honly
          obtain ⟨rfl, hmore⟩ | ⟨-, hmore⟩ := honly
          · obtain rfl : more = [] := (List.cons.inj hmore).2
            exact ⟨valid_iff.2 ⟨[], rfl⟩, valid_iff.2 ⟨chars, by simpa using hright⟩⟩
          · cases hmore
        · have hnot := hhigh b (by simp [hc'])
          omega

end Treewalk.Text.Utf8
