import Mathlib
import Treewalk.Number.Binary

/-!
# Numbers as bit patterns

What is known of a number is its bit pattern. A finite number has one mantissa and one exponent, and
the pattern is put together from them and the sign; taken apart it gives them back.
-/

namespace Treewalk.Number

open Float.Model (Format UnpackedFloat)
open Float.Model.UnpackedFloat

-- ---------------------------------------------------------------------------
-- Patterns that are packed
-- ---------------------------------------------------------------------------

theorem toNat_packComponents (s : Sign) (e : BitVec 11) (m : BitVec 52) :
    (packComponents .binary64 s e m).toNat =
      (s.toBitVec.toNat * 2 ^ 11 + e.toNat) * 2 ^ 52 + m.toNat := by
  simp only [packComponents, BitVec.toNat_append]
  rw [← Nat.shiftLeft_add_eq_or_of_lt m.isLt, ← Nat.shiftLeft_add_eq_or_of_lt e.isLt,
    Nat.shiftLeft_eq, Nat.shiftLeft_eq]

theorem toNat_unpackMantissa (b : BitVec 64) :
    (@unpackMantissa .binary64 b).toNat = b.toNat % 2 ^ 52 := by
  simp [unpackMantissa, BitVec.extractLsb]

theorem toNat_unpackExponent (b : BitVec 64) :
    (@unpackExponent .binary64 b).toNat = b.toNat / 2 ^ 52 % 2 ^ 11 := by
  simp [unpackExponent, BitVec.extractLsb, Nat.shiftRight_eq_div_pow]

theorem toNat_unpackSign (b : BitVec 64) : (@unpackSign .binary64 b).toNat = b.toNat / 2 ^ 63 := by
  have := b.isLt
  simp [unpackSign, BitVec.extractLsb, Nat.shiftRight_eq_div_pow]
  omega

theorem toBitVec_ofBitVec : ∀ s : BitVec 1, (Sign.ofBitVec s).toBitVec = s := by
  decide

/-- The same number with another sign. -/
def resign (s : Sign) : UnpackedFloat → UnpackedFloat
  | .notANumber => .notANumber
  | .infinity _ => .infinity s
  | .zero _ => .zero s
  | .finite _ m e hm => .finite s m e hm

theorem resign_unpack (b : BitVec 64) :
    resign (.ofBitVec (@unpackSign .binary64 b)) (unpack .binary64 b) = unpack .binary64 b := by
  unfold unpack
  dsimp only
  split_ifs <;> rfl

theorem neg_unpack (b : BitVec 64) :
    (unpack .binary64 b).neg =
      resign (-.ofBitVec (@unpackSign .binary64 b)) (unpack .binary64 b) := by
  unfold unpack
  dsimp only
  split_ifs <;> rfl

theorem implicit_append (m : BitVec 52) : (1#1 ++ m).toNat = 2 ^ 52 + m.toNat := by
  rw [BitVec.toNat_append, ← Nat.shiftLeft_add_eq_or_of_lt m.isLt]
  rfl

theorem pack_subnormal (s : Sign) (m : BitVec 52) (hm : 0 < m.toNat) {e : Int} (he : e = -1074) :
    pack .binary64 (.finite s m.toNat e hm) = packComponents .binary64 s 0 m := by
  subst he
  have hlog : m.toNat.log2 < 52 := (Nat.log2_lt (Nat.ne_of_gt hm)).2 m.isLt
  have hnormal : ¬ m.toNat.log2 + 1 = 53 := by omega
  simp [pack, Format.exponentBias, Format.mantissaBits, hnormal]

theorem pack_normal (s : Sign) (m : BitVec 52) (f : BitVec 11) (hf : f ≠ -1#11)
    (hm : 0 < (1#1 ++ m).toNat) {e : Int} (he : e = f.toNat - 1075) :
    pack .binary64 (.finite s (1#1 ++ m).toNat e hm) = packComponents .binary64 s f m := by
  have hlt := m.isLt
  have hlog : (1#1 ++ m).toNat.log2 + 1 = 53 := by
    rw [implicit_append, Nat.succ_inj, Nat.log2_eq_iff (by omega)]
    omega
  have hbiased : (e + Format.binary64.exponentBias + (52 : Nat)).toNat = f.toNat := by
    rw [he, show Format.binary64.exponentBias = 1023 from rfl]
    omega
  have hlt' := f.isLt
  have hfield : f.toNat ≠ 2047 := fun h => hf (BitVec.eq_of_toNat_eq h)
  simp only [pack, hbiased]
  split_ifs with hover hlong
  · exact absurd (hover : 2 ^ 11 ≤ f.toNat + 1) (by omega)
  · congr 1
    · simp
    · refine BitVec.eq_of_toNat_eq ?_
      rw [BitVec.toNat_ofNat, implicit_append]
      omega
  · exact absurd hlog hlong

/-- A pattern is packed from what it unpacks to, unless it stands for no number. -/
theorem pack_resign_unpack (s : Sign) (b : BitVec 64) (hb : b.toNat % 2 ^ 63 ≤ 2047 * 2 ^ 52) :
    pack .binary64 (resign s (unpack .binary64 b)) =
      packComponents .binary64 s (@unpackExponent .binary64 b) (@unpackMantissa .binary64 b) := by
  have hexponent := toNat_unpackExponent b
  have hmantissa := toNat_unpackMantissa b
  unfold unpack
  dsimp only
  split_ifs with hinf hzero hsub hzero'
  · rw [hinf, hzero]
    rfl
  · have hfield : (@unpackExponent .binary64 b).toNat = 2047 := by rw [hinf]; rfl
    refine absurd (BitVec.eq_of_toNat_eq ?_) hzero
    rw [hmantissa, BitVec.toNat_zero]
    omega
  · rw [hsub, hzero']
    rfl
  · rw [resign, pack_subnormal, hsub]
    · rfl
    · rw [hsub]
      rfl
  · exact pack_normal _ _ _ hinf _ rfl

-- ---------------------------------------------------------------------------
-- Patterns that are kept
-- ---------------------------------------------------------------------------

theorem eq_of_toBits {x y : Float} (h : x.toBits = y.toBits) : x = y := by
  obtain ⟨⟨bits, _⟩⟩ := x
  obtain ⟨⟨bits', _⟩⟩ := y
  obtain rfl : bits = bits' := h
  rfl

theorem toBits_ofBits {bits : UInt64} (h : bits.toNat % 2 ^ 63 ≤ 2047 * 2 ^ 52) :
    (Float.ofBits bits).toBits = bits := by
  refine UInt64.toNat_inj.1 ?_
  show (pack .binary64 (unpack .binary64 bits.toBitVec)).toNat = bits.toNat
  have hlt := bits.toNat_lt
  rw [← resign_unpack, pack_resign_unpack _ _ h, toNat_packComponents, toBitVec_ofBitVec,
    toNat_unpackSign, toNat_unpackExponent, toNat_unpackMantissa, UInt64.toNat_toBitVec]
  omega

/-- Another sign is another highest bit. -/
theorem toBits_neg {x : Float} (h : x.toBits.toNat % 2 ^ 63 ≤ 2047 * 2 ^ 52) :
    (-x).toBits.toNat = (x.toBits.toNat + 2 ^ 63) % 2 ^ 64 := by
  show (pack .binary64 (unpack .binary64 x.toBits.toBitVec).neg).toNat = _
  have hlt := x.toBits.toNat_lt
  have hsign : ∀ s : BitVec 1, (-Sign.ofBitVec s).toBitVec = s + 1#1 := by decide
  rw [neg_unpack, pack_resign_unpack _ _ h, toNat_packComponents, hsign, BitVec.toNat_add,
    toNat_unpackSign, toNat_unpackExponent, toNat_unpackMantissa, UInt64.toNat_toBitVec,
      BitVec.toNat_ofNat]
  omega

-- ---------------------------------------------------------------------------
-- Finite numbers
-- ---------------------------------------------------------------------------

/-- A mantissa and an exponent of a finite number. -/
structure Legal (mantissa : Nat) (exponent : Int) : Prop where
  lt : mantissa < 2 ^ 53
  least : leastExponent ≤ exponent
  most : exponent ≤ 971
  normal : leastExponent < exponent → 2 ^ 52 ≤ mantissa

/-- The bit pattern of a finite number, without its sign. -/
def pattern (mantissa : Nat) (exponent : Int) : Nat :=
  (exponent - leastExponent).toNat * 2 ^ 52 + mantissa

def signed (negative : Bool) (bits : Nat) : Nat :=
  if negative then 2 ^ 63 + bits else bits

theorem signed_false (bits : Nat) : signed false bits = bits :=
  rfl

theorem signed_true (bits : Nat) : signed true bits = 2 ^ 63 + bits :=
  rfl

theorem Legal.pattern_lt (h : Legal m e) : pattern m e < 2047 * 2 ^ 52 := by
  obtain ⟨hlt, hleast, hmost, -⟩ := h
  rw [leastExponent] at hleast
  rw [pattern, leastExponent]
  omega

theorem ofFloat_eq_finite {x : Float} : Binary.ofFloat x = .finite negative m e ↔
    Legal m e ∧ x.toBits.toNat = signed negative (pattern m e) := by
  have hlt := x.toBits.toNat_lt
  rw [pattern, leastExponent]
  simp only [Binary.ofFloat, leastExponent]
  constructor
  · intro h
    have hsign : x.toBits.toNat =
        signed (decide (x.toBits.toNat / 2 ^ 63 = 1)) (x.toBits.toNat % 2 ^ 63) := by
      unfold signed
      split_ifs with hnegative
      · have := of_decide_eq_true hnegative
        omega
      · have := of_decide_eq_false (Bool.eq_false_iff.2 hnegative)
        omega
    split_ifs at h with hfield hfraction hzero
    · cases h
      refine ⟨⟨by omega, Int.le_refl _, by decide, fun h => absurd h (Int.lt_irrefl _)⟩,
        hsign.trans ?_⟩
      congr 1
      omega
    · cases h
      refine ⟨⟨by omega, by rw [leastExponent]; omega, by omega, by omega⟩, hsign.trans ?_⟩
      congr 1
      omega
  · rintro ⟨⟨hm, hleast, hmost, hnormal⟩, hbits⟩
    rw [leastExponent] at hleast hnormal
    have hnegative : decide (x.toBits.toNat / 2 ^ 63 = 1) = negative := by
      cases negative
      · exact decide_eq_false (by rw [hbits, signed_false]; omega)
      · exact decide_eq_true (by rw [hbits, signed_true]; omega)
    have hrest : x.toBits.toNat % 2 ^ 63 = (e + 1074).toNat * 2 ^ 52 + m := by
      cases negative
      · rw [hbits, signed_false]
        omega
      · rw [hbits, signed_true]
        omega
    rw [if_neg (by omega), hnegative]
    split_ifs with hzero
    · congr 1 <;> omega
    · congr 1 <;> omega

theorem finite_inj {x y : Float} (hx : Binary.ofFloat x = .finite negative m e)
    (hy : Binary.ofFloat y = .finite negative m e) : x = y :=
  eq_of_toBits (UInt64.toNat_inj.1
    ((ofFloat_eq_finite.1 hx).2.trans (ofFloat_eq_finite.1 hy).2.symm))

theorem ofFloat_neg {x : Float} (h : Binary.ofFloat x = .finite negative m e) :
    Binary.ofFloat (-x) = .finite (!negative) m e := by
  obtain ⟨hlegal, hbits⟩ := ofFloat_eq_finite.1 h
  have hlt := hlegal.pattern_lt
  have hsmall : x.toBits.toNat % 2 ^ 63 ≤ 2047 * 2 ^ 52 := by
    rw [hbits, signed]
    split_ifs <;> omega
  refine ofFloat_eq_finite.2 ⟨hlegal, ?_⟩
  rw [toBits_neg hsmall, hbits]
  cases negative
  · rw [Bool.not_false, signed_false, signed_true]
    omega
  · rw [Bool.not_true, signed_false, signed_true]
    omega

theorem nearestBits_le (numerator denominator : Nat) :
    nearestBits numerator denominator ≤ 2047 * 2 ^ 52 := by
  unfold nearestBits
  split_ifs
  · exact Nat.zero_le _
  · exact Nat.min_le_left ..

theorem toBits_nearest (negative : Bool) (numerator denominator : Nat) :
    (nearest negative numerator denominator).toBits.toNat =
      signed negative (nearestBits numerator denominator) := by
  have hle := nearestBits_le numerator denominator
  have hbits : (UInt64.ofNat (signed negative (nearestBits numerator denominator))).toNat =
      signed negative (nearestBits numerator denominator) := by
    rw [UInt64.toNat_ofNat', Nat.mod_eq_of_lt]
    rw [signed]
    split_ifs <;> omega
  show (Float.ofBits
      (.ofNat (signed negative (nearestBits numerator denominator)))).toBits.toNat = _
  rw [toBits_ofBits, hbits]
  rw [hbits, signed]
  split_ifs <;> omega

theorem ofFloat_nearest (hlegal : Legal m e) (h : nearestBits numerator denominator = pattern m e)
    (negative : Bool) :
    Binary.ofFloat (nearest negative numerator denominator) = .finite negative m e :=
  ofFloat_eq_finite.2 ⟨hlegal, by rw [toBits_nearest, h]⟩

/-- Without a sign nothing negative comes out. -/
theorem not_negative_of_nearest
    (h : Binary.ofFloat (nearest false numerator denominator) = .finite negative m e) :
    negative = false := by
  have hbits := (ofFloat_eq_finite.1 h).2
  have hle := nearestBits_le numerator denominator
  rw [toBits_nearest, signed_false] at hbits
  cases negative with
  | false => rfl
  | true =>
    rw [signed_true] at hbits
    omega

end Treewalk.Number
