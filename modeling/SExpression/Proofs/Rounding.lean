import Mathlib.Algebra.Group.Nat.Defs
import Mathlib.Data.Nat.Log
import SExpression.Number.Shortest

/-! # Magnitudes and their values

`units` gives the magnitudes their values in increasing order, and `floorMagnitude` finds the
magnitude of a value.  A fraction that equals the value of a finite magnitude is therefore rounded
to that magnitude (`nearest_of_units`), which the exact decimal of a magnitude shows to be read back
(`exact_nearest`), and the shortest one with it (`shortest_nearest`). -/
set_option autoImplicit false
namespace SExpression

namespace Binary64

section Values

theorem shift_eq (k : Nat) : shift k = k / 2 ^ 52 - 1 := rfl

theorem significand_eq (k : Nat) : significand k = k - shift k * 2 ^ 52 := rfl

theorem units_eq (k : Nat) : units k = significand k * 2 ^ shift k := rfl

theorem floorMagnitude_eq (n : Nat) :
    floorMagnitude n = (n.log2 - 52) * 2 ^ 52 + n / 2 ^ (n.log2 - 52) := rfl

theorem nearest_eq (p q scaled low : Nat) (hscaled : p * 2 ^ 1074 = scaled)
    (hlow : floorMagnitude (scaled / q) = low) :
    nearest p q =
      let middle := q * (units low + units (low + 1))
      min (if 2 * scaled < middle then low
        else if middle < 2 * scaled then low + 1
        else low + low % 2) infinity := by
  unfold nearest
  generalize 1074 = places at hscaled ⊢
  subst hscaled hlow
  rfl

theorem significand_small (k : Nat) (h : k < 2 ^ 52) : significand k = k ∧ shift k = 0 := by
  have hshift : shift k = 0 := by
    rw [shift_eq, Nat.div_eq_of_lt h]
  exact ⟨by rw [significand_eq, hshift]; omega, hshift⟩

/-- From `2 ^ 52` on the significand has its full 53 bits. -/
theorem significand_large (k : Nat) (h : 2 ^ 52 ≤ k) :
    2 ^ 52 ≤ significand k ∧ significand k < 2 ^ 53 := by
  rw [significand_eq, shift_eq]
  omega

theorem significand_add_shift (k : Nat) : shift k * 2 ^ 52 + significand k = k := by
  rw [significand_eq, shift_eq]
  omega

theorem log2_units (k : Nat) (h : 2 ^ 52 ≤ k) : (units k).log2 = 52 + shift k := by
  obtain ⟨hlow, hhigh⟩ := significand_large k h
  have hpos := Nat.two_pow_pos (shift k)
  have hlower : 2 ^ (52 + shift k) ≤ units k := by
    rw [units_eq, Nat.pow_add]
    exact Nat.mul_le_mul_right _ hlow
  have hupper : units k < 2 ^ (52 + shift k + 1) := by
    rw [units_eq, Nat.add_right_comm, Nat.pow_add]
    exact Nat.mul_lt_mul_of_pos_right hhigh hpos
  exact (Nat.log2_eq_iff (by omega)).mpr ⟨hlower, hupper⟩

theorem floorMagnitude_units (k : Nat) : floorMagnitude (units k) = k := by
  by_cases hsmall : k < 2 ^ 52
  · obtain ⟨hsignificand, hshift⟩ := significand_small k hsmall
    have hlog : k.log2 ≤ 52 := by
      by_cases hzero : k = 0
      · simp [hzero]
      · exact Nat.le_of_lt ((Nat.log2_lt hzero).mpr hsmall)
    have hunits : units k = k := by
      rw [units_eq, hsignificand, hshift, Nat.pow_zero, Nat.mul_one]
    have hbits : k.log2 - 52 = 0 := by omega
    simp only [hunits, floorMagnitude_eq, hbits, Nat.zero_mul, Nat.pow_zero, Nat.div_one, Nat.zero_add]
  · have hbits : (units k).log2 - 52 = shift k := by
      rw [log2_units k (by omega)]
      omega
    have hquotient : units k / 2 ^ shift k = significand k := by
      rw [units_eq, Nat.mul_div_cancel _ (Nat.two_pow_pos _)]
    simp only [floorMagnitude_eq, hbits, hquotient, significand_add_shift k]

theorem units_lt_succ (k : Nat) : units k < units (k + 1) := by
  have hpos := Nat.two_pow_pos (shift k)
  by_cases hsame : shift (k + 1) = shift k
  · have hsignificand : significand (k + 1) = significand k + 1 := by
      have h := significand_add_shift k
      have h' := significand_add_shift (k + 1)
      rw [hsame] at h'
      omega
    rw [units_eq, units_eq, hsame, hsignificand, Nat.add_mul]
    omega
  · -- the significand starts over, one power of two higher
    have hshift : shift (k + 1) = shift k + 1 := by
      rw [shift_eq, shift_eq] at hsame ⊢
      omega
    have hfull : significand k = 2 ^ 53 - 1 ∧ significand (k + 1) = 2 ^ 52 := by
      rw [significand_eq, significand_eq]
      rw [shift_eq, shift_eq] at hsame hshift ⊢
      omega
    rw [units_eq, units_eq, hfull.1, hfull.2, hshift, Nat.pow_succ']
    omega

end Values

theorem nearest_of_units (p q k : Nat) (hq : 0 < q) (hk : k < infinity)
    (h : p * 2 ^ 1074 = q * units k) : nearest p q = k := by
  have hlow : floorMagnitude (p * 2 ^ 1074 / q) = k := by
    rw [h, Nat.mul_div_cancel_left _ hq, floorMagnitude_units]
  have hbelow : 2 * (p * 2 ^ 1074) < q * (units k + units (k + 1)) := by
    have hnext : q * units k < q * units (k + 1) := Nat.mul_lt_mul_of_pos_left (units_lt_succ k) hq
    rw [h, Nat.mul_add]
    omega
  rw [nearest_eq p q _ k rfl hlow]
  simp only [if_pos hbelow]
  exact Nat.min_eq_left (Nat.le_of_lt hk)

theorem div_eq_of_cross (p q p' q' : Nat) (hq : 0 < q) (hq' : 0 < q') (h : p * q' = p' * q) :
    p / q = p' / q' := by
  rw [← Nat.mul_div_mul_right p q hq', h, Nat.mul_comm q q', Nat.mul_div_mul_right p' q' hq]

theorem compare_of_cross (p q p' q' : Nat) (hq : 0 < q) (hq' : 0 < q') (h : p * q' = p' * q)
    (k : Nat) : (p < q * k ↔ p' < q' * k) ∧ (q * k < p ↔ q' * k < p') := by
  have hk : q * k * q' = q' * k * q := by ac_rfl
  constructor
  · rw [← Nat.mul_lt_mul_right hq', h, hk, Nat.mul_lt_mul_right hq]
  · rw [← Nat.mul_lt_mul_right hq', h, hk, Nat.mul_lt_mul_right hq]

/-- Rounding depends on the fraction and not on how it is written. -/
theorem nearest_congr (p q p' q' : Nat) (hq : 0 < q) (hq' : 0 < q') (h : p * q' = p' * q) :
    nearest p q = nearest p' q' := by
  generalize hscale : 2 ^ 1074 = scale
  have hscaled : p * scale * q' = p' * scale * q := by
    rw [Nat.mul_right_comm, h, Nat.mul_right_comm]
  have hlow : p * scale / q = p' * scale / q' := div_eq_of_cross _ _ _ _ hq hq' hscaled
  have hdouble : 2 * (p * scale) * q' = 2 * (p' * scale) * q := by
    rw [Nat.mul_assoc, hscaled, ← Nat.mul_assoc]
  obtain ⟨hbelow, habove⟩ := compare_of_cross _ q _ q' hq hq' hdouble
    (units (floorMagnitude (p' * scale / q')) + units (floorMagnitude (p' * scale / q') + 1))
  rw [nearest_eq p q _ _ (by rw [hscale]) rfl, nearest_eq p' q' _ _ (by rw [hscale]) rfl]
  simp only [hlow, hbelow, habove]

end Binary64

namespace Decimal
open Binary64 (units shift significand infinity)

/-- The denominator of a decimal with `places` digits after the point. -/
theorem ratio_neg (coefficient places : Nat) :
    ratio ⟨coefficient, -(places : Int)⟩ = (coefficient, 10 ^ places) := by
  cases places with
  | zero => simp [ratio]
  | succ places => rfl

/-- What is missing from a power of two becomes a power of ten, with a factor of five for each. -/
theorem scale_to_ten (n s m : Nat) :
    n * 2 ^ (s - m) * 5 ^ (m - s) * 2 ^ m = 10 ^ (m - s) * (n * 2 ^ s) := by
  have hpowers : 2 ^ (s - m) * 2 ^ m = 2 ^ (m - s) * 2 ^ s := by
    rw [← Nat.pow_add, ← Nat.pow_add]
    congr 1
    omega
  have hten : 10 ^ (m - s) = 2 ^ (m - s) * 5 ^ (m - s) := by rw [← Nat.mul_pow]
  calc n * 2 ^ (s - m) * 5 ^ (m - s) * 2 ^ m
      = n * 5 ^ (m - s) * (2 ^ (s - m) * 2 ^ m) := by ac_rfl
    _ = n * 5 ^ (m - s) * (2 ^ (m - s) * 2 ^ s) := by rw [hpowers]
    _ = 2 ^ (m - s) * 5 ^ (m - s) * (n * 2 ^ s) := by ac_rfl
    _ = 10 ^ (m - s) * (n * 2 ^ s) := by rw [hten]

theorem exact_ratio (k : Nat) :
    (exact k).ratio.1 * 2 ^ 1074 = (exact k).ratio.2 * units k ∧ 0 < (exact k).ratio.2 := by
  have hratio : (exact k).ratio =
      (significand k * 2 ^ (shift k - 1074) * 5 ^ (1074 - shift k), 10 ^ (1074 - shift k)) :=
    ratio_neg _ _
  rw [hratio]
  exact ⟨scale_to_ten (significand k) (shift k) 1074, Nat.pow_pos (by decide)⟩

theorem exact_nearest (k : Nat) (hk : k < infinity) : (exact k).nearest = k := by
  obtain ⟨hratio, hpos⟩ := exact_ratio k
  exact Binary64.nearest_of_units _ _ k hpos hk hratio

theorem shortened?_nearest (k : Nat) (d : Decimal) (cut : Nat) (short : Decimal)
    (h : shortened? k d cut = some short) : short.nearest = k := by
  simp only [shortened?] at h
  split at h
  · rename_i hupper
    cases h
    simp only [Bool.and_eq_true, beq_iff_eq] at hupper
    exact hupper.1
  · split at h
    · rename_i hlower
      cases h
      exact eq_of_beq hlower
    · cases h

theorem shortest_nearest (k : Nat) (hk : k < infinity) : (shortest k).nearest = k := by
  unfold shortest
  simp only
  cases hfound : (List.range 17).findSome? fun i =>
      shortened? k (exact k) ((Nat.toDigits 10 (exact k).coefficient).length - (i + 1)) with
  | none => exact exact_nearest k hk
  | some short =>
      obtain ⟨i, _, hi⟩ := List.exists_of_findSome?_eq_some hfound
      exact shortened?_nearest k _ _ short hi

end Decimal

end SExpression
