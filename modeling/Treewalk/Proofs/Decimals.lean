import Mathlib.Algebra.Order.Floor.Semifield
import Treewalk.Proofs.Roundings

/-!
# Shortest decimals

The decimal that is chosen for a number is rounded to it again. There always is one: with seventeen
digits the decimals lie so close that one of the two around the number is between its midpoints.
-/

namespace Treewalk.Number

variable {m : Nat} {e : Int}

-- ---------------------------------------------------------------------------
-- Decimals that are read
-- ---------------------------------------------------------------------------

def Decimal.value (d : Decimal) : ℚ :=
  d.coefficient * 10 ^ d.exponent

theorem Decimal.quotient_eq (d : Decimal) :
    ((d.coefficient * 10 ^ d.exponent.toNat : Nat) : ℚ) / (10 ^ (-d.exponent).toNat : Nat) =
      d.value := by
  have hpow := zpow_eq_div 10 d.exponent
  rw [Nat.cast_ofNat] at hpow
  rw [value, hpow, Nat.cast_mul, mul_div_assoc]

/-- Four times a decimal, in steps of a power of two, as natural numbers are compared with it. -/
theorem point_eq (c : Nat) (p e : Int) :
    ((4 * (c * 10 ^ p.toNat * 2 ^ (-e).toNat) : Nat) : ℚ) / (2 ^ e.toNat * 10 ^ (-p).toNat : Nat) =
      4 * (c * 10 ^ p / 2 ^ e) := by
  have hten := zpow_eq_div 10 p
  have htwo := zpow_eq_div 2 e
  rw [Nat.cast_ofNat] at hten htwo
  rw [hten, htwo]
  push_cast
  field_simp

theorem readsBack_iff (c : Nat) (p : Int) : readsBack m e c p = true ↔ Rounds m e (c * 10 ^ p) := by
  have hscale : 0 < 2 ^ e.toNat * 10 ^ (-p).toNat :=
    Nat.mul_pos (Nat.pow_pos two_pos) (Nat.pow_pos (by decide))
  have hscale' : (0 : ℚ) < (2 ^ e.toNat * 10 ^ (-p).toNat : Nat) := by exact_mod_cast hscale
  rw [Rounds, ← point_eq, readsBack]
  generalize 2 ^ e.toNat * 10 ^ (-p).toNat = scale at *
  generalize 4 * (c * 10 ^ p.toNat * 2 ^ (-e).toNat) = point
  generalize 4 * m - stepBelow m e = low
  rw [le_div_iff₀ hscale', div_le_iff₀ hscale', ne_eq, ne_eq, eq_div_iff hscale'.ne',
    div_eq_iff hscale'.ne']
  norm_cast
  split_ifs with heven
  · simp [heven]
  · have hodd : m % 2 = 1 := by omega
    simp [hodd]
    omega

/-- A decimal that is rounded to a number is read as it. -/
theorem Decimal.ofFloat_toFloat {d : Decimal} (hlegal : Legal m e) (h : Rounds m e d.value) :
    Binary.ofFloat d.toFloat = .finite false m e := by
  refine ofFloat_nearest hlegal (nearestBits_eq (Nat.pow_pos (by decide)) hlegal ?_) false
  rw [d.quotient_eq]
  exact h

theorem Decimal.strip_value (d : Decimal) (fuel : Nat) : (d.strip fuel).value = d.value := by
  induction fuel generalizing d with
  | zero => rfl
  | succ fuel ih =>
    rw [strip]
    split_ifs with h
    · obtain ⟨k, hk⟩ := Nat.dvd_of_mod_eq_zero h.2
      rw [ih, value, value, hk, Nat.mul_div_cancel_left k (by decide), zpow_add_one₀ (by norm_num)]
      push_cast
      ring
    · rfl

-- ---------------------------------------------------------------------------
-- Decimals that are found
-- ---------------------------------------------------------------------------

theorem onGrid_rounds {tie : Tie} {p : Int} (h : onGrid tie m e p = some d) :
    Rounds m e d.value := by
  unfold onGrid at h
  dsimp only at h
  split at h
  · next hbelow habove =>
    cases h
    split_ifs
    · exact (readsBack_iff _ _).1 habove
    · exact (readsBack_iff _ _).1 hbelow
  · next hbelow _ =>
    cases h
    exact (readsBack_iff _ _).1 hbelow
  · next _ habove =>
    cases h
    exact (readsBack_iff _ _).1 habove
  · cases h

theorem rounds_of_between {q : ℚ} (hlow : (4 * m - stepBelow m e : Nat) < 4 * (q / 2 ^ e))
    (hhigh : 4 * (q / 2 ^ e) < (4 * m + 2 : Nat)) : Rounds m e q :=
  ⟨hlow.le, hhigh.le, fun _ => ⟨hlow.ne, hhigh.ne⟩⟩

/-- On a grid that is fine enough, one of the two neighbours of a number is rounded to it. Right
above a power of two there is less room below the number, and the grid is finer. -/
theorem neighbour_rounds {g : ℚ} {below : Nat} (hm : m < 2 ^ 53) (hg : 10 ^ 16 * g ≤ value m e)
    (hgpos : 0 < g) (hbelow : below * g ≤ value m e) (habove : value m e < (below + 1) * g) :
    Rounds m e (below * g) ∨ Rounds m e ((below + 1 : Nat) * g) := by
  have hpow : (0 : ℚ) < 2 ^ e := zpow_pos two_pos e
  have hvalue : value m e / 2 ^ e = m := by rw [value, mul_div_cancel_right₀ _ hpow.ne']
  have hscale (k : ℚ) : k * g / 2 ^ e = k * (g / 2 ^ e) := mul_div_assoc ..
  have hfine : 10 ^ 16 * (g / 2 ^ e) ≤ m := by
    rw [← hvalue, ← hscale]
    gcongr
  have hbelow' : below * (g / 2 ^ e) ≤ m := by
    rw [← hvalue, ← hscale]
    gcongr
  have habove' : (m : ℚ) < (below + 1) * (g / 2 ^ e) := by
    rw [← hvalue, ← hscale]
    gcongr
  have hstep : 0 < g / 2 ^ e := div_pos hgpos hpow
  have hmq : (m : ℚ) + 1 ≤ 2 ^ 53 := by exact_mod_cast hm
  have hcases := stepBelow_cases m e
  have hmpos : 0 < m := by
    refine Nat.pos_of_ne_zero fun h => ?_
    rw [h, Nat.cast_zero] at hfine
    linarith
  have hlow : ((4 * m - stepBelow m e : Nat) : ℚ) = 4 * m - stepBelow m e := by
    rw [Nat.cast_sub (by omega)]
    push_cast
    rfl
  obtain htwo | ⟨hm52, -, hone⟩ := hcases
  · obtain hnear | hfar := le_or_gt ((m : ℚ) - below * (g / 2 ^ e)) (g / 2 ^ e / 2)
    · refine .inl (rounds_of_between ?_ ?_)
      · rw [hlow, htwo, hscale]
        push_cast
        linarith
      · rw [hscale]
        push_cast
        linarith
    · refine .inr (rounds_of_between ?_ ?_)
      · rw [hlow, htwo, hscale]
        push_cast
        linarith
      · rw [hscale]
        push_cast
        linarith
  · have hmq52 : (m : ℚ) = 2 ^ 52 := by exact_mod_cast hm52
    refine .inr (rounds_of_between ?_ ?_)
    · rw [hlow, hone, hscale]
      push_cast
      linarith
    · rw [hscale]
      push_cast
      linarith

theorem onGrid_isSome (tie : Tie) {p : Int} (hm : m < 2 ^ 53) (hp : 10 ^ (p + 16) ≤ value m e) :
    (onGrid tie m e p).isSome = true := by
  have hg : (0 : ℚ) < 10 ^ p := zpow_pos (by norm_num) p
  have hten := zpow_eq_div 10 p
  have htwo := zpow_eq_div 2 e
  rw [Nat.cast_ofNat] at hten htwo
  have hquotient :
      ((m * 2 ^ e.toNat * 10 ^ (-p).toNat : Nat) : ℚ) / (2 ^ (-e).toNat * 10 ^ p.toNat : Nat) =
      value m e / 10 ^ p := by
    rw [value, hten, htwo]
    push_cast
    field_simp
  unfold onGrid
  dsimp only
  rw [← Nat.floor_div_eq_div (K := ℚ), hquotient]
  have hnonneg : 0 ≤ value m e / 10 ^ p := div_nonneg ((zpow_pos (by norm_num) _).le.trans hp) hg.le
  have hbelow := (le_div_iff₀ hg).1 (Nat.floor_le hnonneg)
  have habove := (div_lt_iff₀ hg).1 (Nat.lt_floor_add_one (value m e / 10 ^ p))
  rw [zpow_add₀ (by norm_num), mul_comm] at hp
  have hrounds := neighbour_rounds hm (by exact_mod_cast hp) hg hbelow habove
  rw [← readsBack_iff, ← readsBack_iff] at hrounds
  obtain h | h := hrounds
  · rw [h]
    cases readsBack m e (⌊value m e / 10 ^ p⌋₊ + 1) p <;> rfl
  · rw [h]
    cases readsBack m e ⌊value m e / 10 ^ p⌋₊ p <;> rfl

/-- The chosen decimal is rounded to the number. -/
theorem shortest_rounds (tie : Tie) (hlegal : Legal m e) (hm : 0 < m) :
    Rounds m e (shortest tie m e).value := by
  have hvalue : 0 < value m e := mul_pos (by exact_mod_cast hm) (zpow_pos two_pos e)
  have hnumerator : 0 < (fraction m e).1 := Nat.mul_pos hm (Nat.pow_pos two_pos)
  have hlog := quotientLog10_eq hnumerator (fraction_pos m e)
  rw [fraction_value] at hlog
  have hfound : (onGrid tie m e (Int.log 10 (value m e) - (16 : Nat))).isSome = true := by
    refine onGrid_isSome tie hlegal.lt ?_
    rw [Nat.cast_ofNat, sub_add_cancel]
    exact Int.zpow_log_le_self (by decide) hvalue
  unfold shortest
  dsimp only
  rw [hlog]
  cases h : (List.range 17).findSome? fun (count : Nat) =>
      onGrid tie m e (Int.log 10 (value m e) - count) with
  | none =>
    rw [List.findSome?_eq_none_iff.1 h 16 (by decide)] at hfound
    cases hfound
  | some d =>
    obtain ⟨count, -, hgrid⟩ := List.exists_of_findSome?_eq_some h
    rw [Decimal.strip_value]
    exact onGrid_rounds hgrid

/-- The mantissa and the exponent of the number closest to one tenth. -/
example : shortest .up 7205759403792794 (-56) = ⟨1, -1⟩ := by
  decide

end Treewalk.Number
