import Mathlib.Data.Int.Log
import Mathlib.Tactic.FieldSimp
import Mathlib.Tactic.Linarith
import Mathlib.Tactic.Positivity
import Mathlib.Algebra.Order.Field.Power
import Mathlib.Data.Rat.Floor
import Treewalk.Proofs.Doubles
import Treewalk.Number.Decimal

/-!
# Rounding to the closest number

Around every finite number lie the values that are rounded to it: up to the midpoints between it and
its neighbours, and these too if its mantissa is even. Whatever quotient stands for such a value,
the number is what it comes to.
-/

namespace Treewalk.Number

-- ---------------------------------------------------------------------------
-- Powers and quotients
-- ---------------------------------------------------------------------------

/-- The value of a mantissa and an exponent. -/
def value (mantissa : Nat) (exponent : Int) : ℚ :=
  mantissa * 2 ^ exponent

theorem zpow_eq_div (base : Nat) (k : Int) :
    (base : ℚ) ^ k = (base ^ k.toNat : Nat) / (base ^ (-k).toNat : Nat) := by
  obtain ⟨n, rfl | rfl⟩ := k.eq_nat_or_neg
  · simp
  · simp

theorem fraction_value (m : Nat) (e : Int) :
    ((fraction m e).1 : ℚ) / (fraction m e).2 = value m e := by
  have hpow := zpow_eq_div 2 e
  rw [Nat.cast_two] at hpow
  rw [value, hpow, fraction, Nat.cast_mul, mul_div_assoc]

theorem fraction_pos (m : Nat) (e : Int) : 0 < (fraction m e).2 :=
  Nat.pow_pos two_pos

/-- A power is compared with a quotient in natural numbers. -/
theorem zpow_le_div_iff {base n d : Nat} (hbase : 0 < base) (hd : 0 < d) (k : Int) :
    (base : ℚ) ^ k ≤ n / d ↔ d * base ^ k.toNat ≤ n * base ^ (-k).toNat := by
  have hpow : (0 : ℚ) < (base ^ (-k).toNat : Nat) := by exact_mod_cast Nat.pow_pos hbase
  have hd' : (0 : ℚ) < d := by exact_mod_cast hd
  rw [zpow_eq_div base, div_le_div_iff₀ hpow hd', mul_comm (_ : ℚ) (d : ℚ)]
  exact_mod_cast Iff.rfl

/-- A logarithm that is known up to one. -/
theorem log_of_estimate {base : Nat} (hbase : 1 < base) {q : ℚ} (hq : 0 < q) {k : Int}
    (hlow : (base : ℚ) ^ (k - 1) ≤ q) (hhigh : q < (base : ℚ) ^ (k + 1)) :
    (if (base : ℚ) ^ k ≤ q then k else k - 1) = Int.log base q := by
  rw [Int.zpow_le_iff_le_log hbase hq] at hlow
  rw [Int.lt_zpow_iff_log_lt hbase hq] at hhigh
  split_ifs with hk
  all_goals
    rw [Int.zpow_le_iff_le_log hbase hq] at hk
    omega

/-- The estimate that the sizes of a numerator and a denominator give. -/
theorem log_of_sizes {base n d a b : Nat} (hbase : 1 < base) (hn : base ^ a ≤ n)
    (hn' : n < base ^ (a + 1))
    (hd : base ^ b ≤ d) (hd' : d < base ^ (b + 1)) {k : Int} (hk : k = a - b) :
    (if d * base ^ k.toNat ≤ n * base ^ (-k).toNat then k else k - 1) =
      Int.log base (n / d : ℚ) := by
  have hpos : (0 : ℚ) < base := by exact_mod_cast Nat.zero_lt_of_lt hbase
  have hnpos : 0 < n := (Nat.pow_pos (Nat.zero_lt_of_lt hbase)).trans_le hn
  have hdpos : 0 < d := (Nat.pow_pos (Nat.zero_lt_of_lt hbase)).trans_le hd
  have hnq : (0 : ℚ) < n := by exact_mod_cast hnpos
  have hdq : (0 : ℚ) < d := by exact_mod_cast hdpos
  have hlow : (base : ℚ) ^ (a : Int) ≤ n := by exact_mod_cast hn
  have hhigh : (n : ℚ) < (base : ℚ) ^ (a + 1 : Int) := by exact_mod_cast hn'
  have hlow' : (base : ℚ) ^ (b : Int) ≤ d := by exact_mod_cast hd
  have hhigh' : (d : ℚ) < (base : ℚ) ^ (b + 1 : Int) := by exact_mod_cast hd'
  simp only [← zpow_le_div_iff (Nat.zero_lt_of_lt hbase) hdpos]
  refine log_of_estimate hbase (div_pos hnq hdq) ?_ ?_
  · rw [le_div_iff₀ hdq]
    calc (base : ℚ) ^ (k - 1) * d ≤ base ^ (k - 1) * base ^ (b + 1 : Int) := by gcongr
      _ = base ^ (a : Int) := by
        rw [← zpow_add₀ hpos.ne', hk]
        congr 1
        omega
      _ ≤ n := hlow
  · rw [div_lt_iff₀ hdq]
    calc (n : ℚ) < base ^ (a + 1 : Int) := hhigh
      _ = base ^ (k + 1) * base ^ (b : Int) := by
        rw [← zpow_add₀ hpos.ne', hk]
        congr 1
        omega
      _ ≤ base ^ (k + 1) * d := by gcongr

theorem quotientLog2_eq {n d : Nat} (hn : 0 < n) (hd : 0 < d) :
    quotientLog2 n d = Int.log 2 (n / d : ℚ) :=
  log_of_sizes one_lt_two (Nat.log2_self_le hn.ne') Nat.lt_log2_self (Nat.log2_self_le hd.ne')
    Nat.lt_log2_self rfl

theorem digits_length (h : 0 < n) :
    10 ^ ((digits n).length - 1) ≤ n ∧ n < 10 ^ ((digits n).length - 1 + 1) := by
  have hpos : 0 < (digits n).length := Nat.length_toDigits_pos
  rw [Nat.sub_add_cancel hpos]
  refine ⟨?_, (Nat.length_toDigits_le_iff (by decide) hpos).1 le_rfl⟩
  obtain hone | hlong := Nat.eq_zero_or_pos ((digits n).length - 1)
  · rw [hone]
    exact h
  · refine not_lt.1 fun hlt => ?_
    have hle := (Nat.length_toDigits_le_iff (by decide) hlong).2 hlt
    exact absurd (show (digits n).length ≤ (digits n).length - 1 from hle) (by omega)

theorem quotientLog10_eq {n d : Nat} (hn : 0 < n) (hd : 0 < d) :
    quotientLog10 n d = Int.log 10 (n / d : ℚ) := by
  obtain ⟨hnlow, hnhigh⟩ := digits_length hn
  obtain ⟨hdlow, hdhigh⟩ := digits_length hd
  have hnpos : 0 < (digits n).length := Nat.length_toDigits_pos
  have hdpos : 0 < (digits d).length := Nat.length_toDigits_pos
  exact log_of_sizes (by decide) hnlow hnhigh hdlow hdhigh (by omega)

-- ---------------------------------------------------------------------------
-- Quotients that are rounded
-- ---------------------------------------------------------------------------

theorem half_below_iff {n d m : Nat} (hd : 0 < d) :
    ((m : ℚ) - 1 / 2 ≤ n / d ↔ 2 * (d * m) ≤ 2 * n + d) ∧
      ((m : ℚ) - 1 / 2 = n / d ↔ 2 * (d * m) = 2 * n + d) := by
  have hd' : (0 : ℚ) < d := by exact_mod_cast hd
  rw [le_div_iff₀ hd', eq_div_iff hd'.ne', ← @Nat.cast_le ℚ, ← Nat.cast_inj (R := ℚ)]
  push_cast
  constructor
  · constructor <;> intro h <;> linarith
  · constructor <;> intro h <;> linarith

theorem half_above_iff {n d m : Nat} (hd : 0 < d) :
    ((n : ℚ) / d ≤ m + 1 / 2 ↔ 2 * n ≤ 2 * (d * m) + d) ∧
      ((n : ℚ) / d = m + 1 / 2 ↔ 2 * n = 2 * (d * m) + d) := by
  have hd' : (0 : ℚ) < d := by exact_mod_cast hd
  rw [div_le_iff₀ hd', div_eq_iff hd'.ne', ← @Nat.cast_le ℚ, ← Nat.cast_inj (R := ℚ)]
  push_cast
  constructor
  · constructor <;> intro h <;> linarith
  · constructor <;> intro h <;> linarith

/-- A quotient that is at most one half away from an integer, and from an odd one less. -/
theorem roundDiv_eq {n d m : Nat} (hd : 0 < d) (hlow : (m : ℚ) - 1 / 2 ≤ n / d)
    (hhigh : (n : ℚ) / d ≤ m + 1 / 2)
    (hodd : m % 2 = 1 → (m : ℚ) - 1 / 2 ≠ n / d ∧ (n : ℚ) / d ≠ m + 1 / 2) : roundDiv n d = m := by
  rw [(half_below_iff hd).1] at hlow
  rw [(half_above_iff hd).1] at hhigh
  rw [ne_eq, ne_eq, (half_below_iff hd).2, (half_above_iff hd).2] at hodd
  have hdiv := Nat.div_add_mod n d
  have hmod := Nat.mod_lt n hd
  rw [roundDiv]
  generalize n / d = q at *
  generalize n % d = r at *
  obtain hm | rfl | rfl | hm : m < q ∨ m = q ∨ m = q + 1 ∨ q + 2 ≤ m := by omega
  · have := Nat.mul_le_mul_left d (Nat.succ_le_of_lt hm)
    rw [Nat.mul_succ] at this
    omega
  · split_ifs <;> omega
  · rw [Nat.mul_succ] at *
    split_ifs <;> omega
  · have := Nat.mul_le_mul_left d hm
    rw [Nat.mul_add] at this
    omega

/-- A quotient in steps of a power of two. -/
theorem scaled_eq (n d : Nat) (e : Int) :
    ((n * 2 ^ (-e).toNat : Nat) : ℚ) / (d * 2 ^ e.toNat : Nat) = n / d / 2 ^ e := by
  have hpow := zpow_eq_div 2 e
  rw [Nat.cast_two] at hpow
  rw [hpow, Nat.cast_mul, Nat.cast_mul, div_div_div_eq, mul_comm (d : ℚ)]

theorem zero_lt_scaled {d : Nat} (hd : 0 < d) (e : Int) : 0 < d * 2 ^ e.toNat :=
  Nat.mul_pos hd (Nat.pow_pos two_pos)

-- ---------------------------------------------------------------------------
-- Numbers and what is rounded to them
-- ---------------------------------------------------------------------------

/-- The value is rounded to the number of a mantissa and an exponent. In quarters of the step
between numbers there, it is between the midpoints to the neighbours, or on one of them and the
mantissa is even. -/
def Rounds (m : Nat) (e : Int) (q : ℚ) : Prop :=
  (4 * m - stepBelow m e : Nat) ≤ 4 * (q / 2 ^ e) ∧ 4 * (q / 2 ^ e) ≤ (4 * m + 2 : Nat) ∧
    (m % 2 = 1 → (4 * m - stepBelow m e : Nat) ≠ 4 * (q / 2 ^ e) ∧
      4 * (q / 2 ^ e) ≠ (4 * m + 2 : Nat))

theorem stepBelow_cases (m : Nat) (e : Int) :
    stepBelow m e = 2 ∨ m = 2 ^ 52 ∧ leastExponent < e ∧ stepBelow m e = 1 := by
  rw [stepBelow]
  split_ifs with h
  · exact .inr ⟨h.1, h.2, rfl⟩
  · exact .inl rfl

theorem log_eq {q : ℚ} {k : Int} (hlow : 2 ^ k ≤ q) (hhigh : q < 2 ^ (k + 1)) :
    Int.log 2 q = k := by
  have hq : 0 < q := (zpow_pos two_pos k).trans_le hlow
  have hlow' := (Int.zpow_le_iff_le_log (R := ℚ) one_lt_two hq).1 hlow
  have hhigh' := (Int.lt_zpow_iff_log_lt (R := ℚ) one_lt_two hq).1 hhigh
  omega

section
variable {n d : Nat} {x : ℚ}

theorem nearestBits_of_log (hn : 0 < n) (hd : 0 < d) (hlt : pattern m e < 2047 * 2 ^ 52)
    (hlog : max leastExponent (Int.log 2 (n / d : ℚ) - 52) = e) (hx : (n : ℚ) / d = x * 2 ^ e)
    (hlow : (m : ℚ) - 1 / 2 ≤ x) (hhigh : x ≤ m + 1 / 2)
    (hodd : m % 2 = 1 → (m : ℚ) - 1 / 2 ≠ x ∧ x ≠ m + 1 / 2) : nearestBits n d = pattern m e := by
  have hscaled := scaled_eq n d e
  rw [hx, mul_div_cancel_right₀ _ (zpow_pos two_pos e).ne'] at hscaled
  rw [← hscaled] at hlow hhigh hodd
  have hround := roundDiv_eq (zero_lt_scaled hd e) hlow hhigh hodd
  rw [nearestBits, if_neg hn.ne', quotientLog2_eq hn hd, hlog]
  dsimp only
  rw [hround, ← pattern, min_eq_right hlt.le]

theorem zpow_le_scaled {k : Nat} (h : (2 : ℚ) ^ k ≤ x) (e : Int) : 2 ^ (k + e) ≤ x * 2 ^ e := by
  rw [zpow_add₀ two_ne_zero, zpow_natCast]
  gcongr

theorem scaled_lt_zpow {k : Nat} (h : x < 2 ^ k) (e : Int) : x * 2 ^ e < 2 ^ (k + e) := by
  rw [zpow_add₀ two_ne_zero, zpow_natCast]
  gcongr

/-- A quotient among the numbers that the steps of `2 ^ e` are for. -/
theorem nearestBits_of_steps (hd : 0 < d) (hlegal : Legal m e) (hx : (n : ℚ) / d = x * 2 ^ e)
    (hpos : 0 < x) (hnormal : leastExponent < e → 2 ^ 52 ≤ x) (hlow : (m : ℚ) - 1 / 2 ≤ x)
    (hhigh : x ≤ m + 1 / 2) (hodd : m % 2 = 1 → (m : ℚ) - 1 / 2 ≠ x ∧ x ≠ m + 1 / 2) :
    nearestBits n d = pattern m e := by
  have hq : (0 : ℚ) < n / d := by
    rw [hx]
    positivity
  have hn : 0 < n := Nat.pos_of_ne_zero fun h => by simp [h] at hq
  have hmlt : (m : ℚ) + 1 ≤ 2 ^ 53 := by exact_mod_cast hlegal.lt
  have htop : (n : ℚ) / d < 2 ^ (52 + e + 1) := by
    rw [hx, show 52 + e + 1 = (53 : Nat) + e by omega]
    exact scaled_lt_zpow (by linarith) e
  refine nearestBits_of_log hn hd hlegal.pattern_lt ?_ hx hlow hhigh hodd
  obtain heq | hlt := hlegal.least.eq_or_lt
  · have hlog := (Int.lt_zpow_iff_log_lt (R := ℚ) one_lt_two hq).1 htop
    omega
  · rw [log_eq (k := 52 + e) ?_ htop]
    · omega
    · rw [hx]
      exact zpow_le_scaled (hnormal hlt) e

/-- Right below a power of two the steps are half as large, and rounding carries to the power. -/
theorem nearestBits_of_carry (hd : 0 < d) (hlegal : Legal (2 ^ 52) e) (hleast : leastExponent < e)
    (hx : (n : ℚ) / d = x * 2 ^ e) (hlow : 2 ^ 52 - 1 / 4 ≤ x) (hhigh : x < 2 ^ 52) :
    nearestBits n d = pattern (2 ^ 52) e := by
  have hn : 0 < n := Nat.pos_of_ne_zero fun h => by
    have hpow : (0 : ℚ) < 2 ^ e := zpow_pos two_pos e
    have hzero : x * 2 ^ e ≠ 0 := mul_ne_zero (by linarith) hpow.ne'
    simp [← hx, h] at hzero
  have hhalf : (n : ℚ) / d = 2 * x * 2 ^ (e - 1) := by
    rw [hx, zpow_sub_one₀ two_ne_zero]
    field_simp
  have hpattern : pattern (2 ^ 53) (e - 1) = pattern (2 ^ 52) e := by
    rw [pattern, pattern, leastExponent] at *
    omega
  have hlog : Int.log 2 (n / d : ℚ) = 51 + e := by
    refine log_eq ?_ ?_
    · rw [hx]
      exact zpow_le_scaled (by linarith) e
    · rw [hx, show 51 + e + 1 = (52 : Nat) + e by omega]
      exact scaled_lt_zpow hhigh e
  rw [← hpattern]
  refine nearestBits_of_log hn hd (by rw [hpattern]; exact hlegal.pattern_lt) ?_ hhalf ?_ ?_
    (fun h => absurd h (by norm_num))
  · rw [hlog]
    omega
  · push_cast
    linarith
  · push_cast
    linarith

end

theorem Legal.eq_least (h : Legal 0 e) : e = leastExponent :=
  (h.least.eq_or_lt.resolve_right fun hlt => by have := h.normal hlt; omega).symm

theorem nearestBits_zero {n d : Nat} (hd : 0 < d) (hlegal : Legal 0 e) (h : Rounds 0 e (n / d)) :
    nearestBits n d = pattern 0 e := by
  obtain rfl := hlegal.eq_least
  obtain rfl | hn := Nat.eq_zero_or_pos n
  · rfl
  · have hnq : (0 : ℚ) < n := by exact_mod_cast hn
    have hdq : (0 : ℚ) < d := by exact_mod_cast hd
    have hpow : (0 : ℚ) < 2 ^ leastExponent := zpow_pos two_pos _
    have hpos : (0 : ℚ) < n / d / 2 ^ leastExponent := by positivity
    have hhigh := h.2.1
    push_cast at hhigh
    refine nearestBits_of_steps hd hlegal (div_mul_cancel₀ _ hpow.ne').symm hpos
      (fun h => absurd h (lt_irrefl _)) ?_ ?_ (fun h => absurd h (by decide))
    · push_cast
      linarith
    · push_cast
      linarith

/-- The quotient of a value that is rounded to a number comes to it. -/
theorem nearestBits_eq {n d : Nat} (hd : 0 < d) (hlegal : Legal m e) (h : Rounds m e (n / d)) :
    nearestBits n d = pattern m e := by
  obtain rfl | hm := Nat.eq_zero_or_pos m
  · exact nearestBits_zero hd hlegal h
  obtain ⟨hlow, hhigh, hodd⟩ := h
  have hx : ((n : ℚ) / d) = n / d / 2 ^ e * 2 ^ e :=
    (div_mul_cancel₀ _ (zpow_pos two_pos e).ne').symm
  have hcases := stepBelow_cases m e
  have hsteps : ((4 * m - stepBelow m e : Nat) : ℚ) = 4 * m - stepBelow m e := by
    rw [Nat.cast_sub (by omega)]
    push_cast
    rfl
  rw [hsteps] at hlow hodd
  push_cast at hhigh hodd
  have hmq : (1 : ℚ) ≤ m := by exact_mod_cast hm
  generalize (n : ℚ) / d / 2 ^ e = x at *
  obtain htwo | ⟨rfl, hleast, hone⟩ := hcases
  · rw [htwo] at hlow hodd
    push_cast at hlow hodd
    refine nearestBits_of_steps hd hlegal hx (by linarith) (fun hleast => ?_) (by linarith)
      (by linarith)
      fun h => ⟨fun h' => (hodd h).1 (by linarith), fun h' => (hodd h).2 (by linarith)⟩
    -- Only above a power of two the lower midpoint is half a step away.
    have hne : m ≠ 2 ^ 52 := fun h => by
      rw [stepBelow, if_pos ⟨h, hleast⟩] at htwo
      cases htwo
    have hnormal := hlegal.normal hleast
    have hlt : (2 ^ 52 + 1 : ℚ) ≤ m := by exact_mod_cast (show 2 ^ 52 + 1 ≤ m by omega)
    linarith
  · rw [hone] at hlow
    push_cast at hlow hhigh
    obtain hlt | hle := lt_or_ge x (2 ^ 52)
    · exact nearestBits_of_carry hd hlegal hleast hx (by linarith) hlt
    · refine nearestBits_of_steps hd hlegal hx (by linarith) (fun _ => hle) ?_ ?_
        (fun h => absurd h (by norm_num))
      · push_cast
        linarith
      · push_cast
        linarith

theorem rounds_value (m : Nat) (e : Int) : Rounds m e (value m e) := by
  have hvalue : value m e / 2 ^ e = m := by
    rw [value, mul_div_cancel_right₀ _ (zpow_pos two_pos e).ne']
  have hpos : 0 < stepBelow m e := by
    unfold stepBelow
    split_ifs <;> decide
  rw [Rounds, hvalue]
  norm_cast
  omega

theorem ofFloat_nearest_value {n d : Nat} (hd : 0 < d) (hlegal : Legal m e)
    (h : (n : ℚ) / d = value m e) (negative : Bool) :
    Binary.ofFloat (nearest negative n d) = .finite negative m e :=
  ofFloat_nearest hlegal (nearestBits_eq hd hlegal (h ▸ rounds_value m e)) negative

/-- A count has a mantissa of full length. -/
theorem exists_legal {n : Nat} (hn : 0 < n) (h : n ≤ 2 ^ 53) :
    ∃ m e, Legal m e ∧ value m e = n := by
  obtain rfl | hlt := h.eq_or_lt
  · refine ⟨2 ^ 52, 1, ⟨by decide, by decide, by decide, fun _ => le_rfl⟩, ?_⟩
    rw [value]
    norm_num
  · have hlog : n.log2 < 53 := (Nat.log2_lt hn.ne').2 hlt
    have hsplit : 2 ^ n.log2 * 2 ^ (52 - n.log2) = 2 ^ 52 := by
      rw [← pow_add]
      congr 1
      omega
    have hlow : 2 ^ 52 ≤ n * 2 ^ (52 - n.log2) := by
      rw [← hsplit]
      exact Nat.mul_le_mul_right _ (Nat.log2_self_le hn.ne')
    have hhigh : n * 2 ^ (52 - n.log2) < 2 ^ 53 := by
      have hmul := Nat.mul_lt_mul_of_pos_right (Nat.lt_log2_self (n := n))
        (Nat.pow_pos (n := 52 - n.log2) two_pos)
      rw [pow_succ, mul_right_comm, hsplit] at hmul
      exact hmul
    refine ⟨n * 2 ^ (52 - n.log2), -(52 - n.log2 : Nat), ⟨hhigh, ?_, by omega, fun _ => hlow⟩, ?_⟩
    · rw [leastExponent]
      omega
    · rw [value, zpow_neg, zpow_natCast, Nat.cast_mul, Nat.cast_pow, Nat.cast_ofNat]
      exact mul_inv_cancel_right₀ (pow_ne_zero _ two_ne_zero) _

/-- Counts are exact as far as mantissas reach. -/
theorem ofFloat_ofCount {n : Nat} (h : n ≤ 2 ^ 53) :
    ∃ m e, Binary.ofFloat (ofCount n) = .finite false m e ∧ value m e = n := by
  have hone : (n : ℚ) / (1 : Nat) = n := by rw [Nat.cast_one, div_one]
  obtain rfl | hn := Nat.eq_zero_or_pos n
  · have hzero : value 0 leastExponent = (0 : Nat) := by rw [value, Nat.cast_zero, zero_mul]
    have hlegal : Legal 0 leastExponent :=
      ⟨by decide, le_rfl, by decide, fun h => absurd h (lt_irrefl _)⟩
    exact ⟨0, leastExponent,
      ofFloat_nearest_value one_pos hlegal (hone.trans hzero.symm) false, hzero⟩
  · obtain ⟨m, e, hlegal, hvalue⟩ := exists_legal hn h
    exact ⟨m, e, ofFloat_nearest_value one_pos hlegal (hone.trans hvalue.symm) false, hvalue⟩

end Treewalk.Number
