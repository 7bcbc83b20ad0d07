import Mathlib.Algebra.Group.Nat.Defs
import Mathlib.Data.List.TakeWhile
import Mathlib.Data.Nat.Init
import SExpression.Number.Decimal
import SExpression.Number.Numeral

/-! # Decimal digits

A scan takes a whole run of digits, and the digits written for a number denote that number
(`natOfDigits_digits`).  Those after the point still do so once the zeros at the end are gone
(`fractionDigits_denotes`). -/
set_option autoImplicit false
namespace SExpression

section Runs

def AllDigits (ds : Bytes) : Prop := ∀ b ∈ ds, isDigit b = true

/-- No digit stands at the front. -/
def AtDigitsEnd (bs : Bytes) : Prop := ∀ b ∈ bs.head?, isDigit b = false

def digitValues (ds : Bytes) : List Nat := ds.map fun b => b.toNat - (byte '0').toNat

theorem digitValue?_of_isDigit {b : UInt8} (h : isDigit b = true) :
    digitValue? 10 b = some (b.toNat - (byte '0').toNat) := by
  have hbounds : 48 ≤ b.toNat ∧ b.toNat ≤ 57 := by
    simp only [isDigit, Bool.and_eq_true, decide_eq_true_eq, UInt8.le_iff_toNat_le] at h
    exact h
  have hzero : (byte '0').toNat = 48 := rfl
  have hsmall : b.toNat - 48 < 10 := by omega
  simp only [digitValue?, h, if_true, hzero, hsmall]

/-- Letters have values too, but not in this radix. -/
theorem digitValue?_of_not_isDigit {b : UInt8} (h : isDigit b = false) : digitValue? 10 b = none := by
  simp only [digitValue?, h, Bool.false_eq_true, if_false, ite_eq_right_iff]
  intro hsmall
  split at hsmall
  · omega
  · split at hsmall <;> omega

theorem digitRun_append (ds rest : Bytes) (hds : AllDigits ds) (hrest : AtDigitsEnd rest) :
    digitRun 10 (ds ++ rest) = digitValues ds := by
  induction ds with
  | nil =>
      cases rest with
      | nil => rfl
      | cons b rest =>
          rw [List.nil_append, digitRun, digitValue?_of_not_isDigit (hrest b rfl)]
          rfl
  | cons b ds ih =>
      have hb : isDigit b = true := hds b (by simp)
      have htail := ih fun x hx => hds x (by simp [hx])
      rw [List.cons_append, digitRun, digitValue?_of_isDigit hb, htail]
      rfl

theorem length_digitValues (ds : Bytes) : (digitValues ds).length = ds.length := by
  simp [digitValues]

theorem digitValues_append (ds es : Bytes) :
    digitValues (ds ++ es) = digitValues ds ++ digitValues es := by
  simp [digitValues]

theorem AllDigits.append {ds es : Bytes} (hds : AllDigits ds) (hes : AllDigits es) :
    AllDigits (ds ++ es) := by
  intro b hb
  rcases List.mem_append.mp hb with h | h
  · exact hds b h
  · exact hes b h

end Runs

section Numbers

theorem natOfDigits_append (radix : Nat) (ds es : List Nat) :
    natOfDigits radix (ds ++ es) = natOfDigits radix ds * radix ^ es.length + natOfDigits radix es := by
  suffices h : ∀ n : Nat, es.foldl (fun n d => n * radix + d) n =
      n * radix ^ es.length + es.foldl (fun n d => n * radix + d) 0 by
    rw [natOfDigits, List.foldl_append, h]
    rfl
  induction es with
  | nil => intro n; simp
  | cons d es ih =>
      intro n
      rw [List.foldl_cons, List.foldl_cons, ih (n * radix + d), ih (0 * radix + d), List.length_cons,
        Nat.pow_succ', Nat.add_mul, Nat.zero_mul, Nat.zero_add, Nat.mul_assoc, Nat.add_assoc]

theorem natOfDigits_replicate_zero (radix n : Nat) : natOfDigits radix (List.replicate n 0) = 0 := by
  induction n with
  | zero => rfl
  | succ n ih => simpa [natOfDigits, List.replicate_succ] using ih

end Numbers

theorem toNat_byte (c : Char) (h : c.toNat < 128) : (byte c).toNat = c.toNat := by
  show c.toNat % 256 = c.toNat
  omega

namespace Decimal

section Written

theorem toNat_digit (n : Nat) (c : Char) (h : c ∈ Nat.toDigits 10 n) :
    48 ≤ c.toNat ∧ c.toNat ≤ 57 := by
  have hdigit : c.isDigit = true := Nat.isDigit_of_mem_toDigits (by decide) (by decide) h
  simp only [Char.isDigit, Bool.and_eq_true, decide_eq_true_eq, ge_iff_le,
    UInt32.le_iff_toNat_le] at hdigit
  exact hdigit

theorem allDigits_digits (n : Nat) : AllDigits (digits n) := by
  intro b hb
  obtain ⟨c, hc, rfl⟩ := List.mem_map.mp hb
  obtain ⟨hlow, hhigh⟩ := toNat_digit n c hc
  have hcode := toNat_byte c (by omega)
  have hends : (byte '0').toNat = 48 ∧ (byte '9').toNat = 57 := ⟨rfl, rfl⟩
  simp only [isDigit, Bool.and_eq_true, decide_eq_true_eq, UInt8.le_iff_toNat_le]
  omega

theorem digits_ne_nil (n : Nat) : digits n ≠ [] := by
  simp [digits, Nat.toDigits_ne_nil]

theorem natOfDigits_digits (n : Nat) : natOfDigits 10 (digitValues (digits n)) = n := by
  suffices h : ∀ (cs : List Char) (m : Nat), (∀ c ∈ cs, c ∈ Nat.toDigits 10 n) →
      (digitValues (cs.map byte)).foldl (fun m d => m * 10 + d) m = Nat.ofDigitChars 10 cs m by
    rw [natOfDigits, digits, h _ 0 fun c hc => hc, Nat.ofDigitChars_ten_toDigits]
  intro cs
  induction cs with
  | nil => intro m _; rfl
  | cons c cs ih =>
      intro m hcs
      have hbounds := toNat_digit n c (hcs c (by simp))
      have hcode : (byte c).toNat = c.toNat := toNat_byte c (by omega)
      have htail := ih (10 * m + (c.toNat - '0'.toNat)) fun x hx => hcs x (by simp [hx])
      rw [Nat.ofDigitChars_cons, ← htail, Nat.mul_comm 10 m]
      simp only [digitValues, List.map_cons, List.foldl_cons, hcode]
      rfl

theorem length_digits_le (n places : Nat) (hn : n < 10 ^ places) :
    (digits n).length ≤ max places 1 := by
  rw [digits, List.length_map, Nat.length_toDigits_le_iff (by decide) (by omega)]
  exact Nat.lt_of_lt_of_le hn (Nat.pow_le_pow_right (by decide) (by omega))

end Written

section Fractions

theorem exists_zeros (ds : Bytes) : ∃ m,
    ds = (ds.reverse.dropWhile (· == byte '0')).reverse ++ List.replicate m (byte '0') := by
  let zeros := ds.reverse.takeWhile (· == byte '0')
  have hall : zeros.reverse = List.replicate zeros.length (byte '0') := by
    rw [List.eq_replicate_iff]
    refine ⟨List.length_reverse, ?_⟩
    intro b hb
    have hzero := List.mem_takeWhile_imp (p := (· == byte '0')) (List.mem_reverse.mp hb)
    exact eq_of_beq hzero
  refine ⟨zeros.length, ?_⟩
  rw [← hall, ← List.reverse_append, List.takeWhile_append_dropWhile, List.reverse_reverse]

theorem fractionDigits_padded (places n : Nat) (hn : n < 10 ^ places) :
    ∃ zeros m, List.replicate zeros (byte '0') ++ digits n =
      fractionDigits places n ++ List.replicate m (byte '0') ∧
      (fractionDigits places n).length + m = max places 1 := by
  obtain ⟨m, hm⟩ := exists_zeros (List.replicate (places - (digits n).length) (byte '0') ++ digits n)
  refine ⟨places - (digits n).length, m, hm, ?_⟩
  have hlength := congrArg List.length hm
  have hshort := length_digits_le n places hn
  have hpos := List.length_pos_iff.mpr (digits_ne_nil n)
  simp only [List.length_append, List.length_replicate] at hlength
  simp only [fractionDigits]
  omega

theorem allDigits_fractionDigits (places n : Nat) (hn : n < 10 ^ places) :
    AllDigits (fractionDigits places n) := by
  obtain ⟨zeros, m, hpadded, _⟩ := fractionDigits_padded places n hn
  have hzeros : AllDigits (List.replicate zeros (byte '0')) := by
    intro b hb
    rw [List.eq_of_mem_replicate hb]
    rfl
  intro b hb
  apply hzeros.append (allDigits_digits n) b
  rw [hpadded]
  exact List.mem_append_left _ hb

/-- The digits after the point denote the fraction `n / 10 ^ places`. -/
theorem fractionDigits_denotes (places n : Nat) (hn : n < 10 ^ places) :
    natOfDigits 10 (digitValues (fractionDigits places n)) * 10 ^ places =
      n * 10 ^ (fractionDigits places n).length := by
  obtain ⟨zeros, m, hpadded, hlength⟩ := fractionDigits_padded places n hn
  have hzero : ∀ k, digitValues (List.replicate k (byte '0')) = List.replicate k 0 := by
    intro k
    simp [digitValues]
  have hvalue : n = natOfDigits 10 (digitValues (fractionDigits places n)) * 10 ^ m := by
    have h := congrArg (fun ds => natOfDigits 10 (digitValues ds)) hpadded
    simpa only [digitValues_append, natOfDigits_append, hzero, natOfDigits_replicate_zero,
      natOfDigits_digits, Nat.zero_mul, Nat.zero_add, Nat.add_zero, List.length_replicate] using h
  generalize natOfDigits 10 (digitValues (fractionDigits places n)) = value at hvalue
  cases places with
  | zero =>
      have hnothing : n = 0 := by simpa using hn
      rw [hnothing] at hvalue
      rcases Nat.mul_eq_zero.mp hvalue.symm with h | h
      · rw [h, hnothing, Nat.zero_mul, Nat.zero_mul]
      · exact absurd h (Nat.pos_iff_ne_zero.mp (Nat.pow_pos (by decide)))
  | succ places =>
      have hplaces : places + 1 = m + (fractionDigits (places + 1) n).length := by omega
      calc value * 10 ^ (places + 1)
          = value * (10 ^ m * 10 ^ (fractionDigits (places + 1) n).length) := by
            rw [← Nat.pow_add, ← hplaces]
        _ = n * 10 ^ (fractionDigits (places + 1) n).length := by rw [← Nat.mul_assoc, ← hvalue]

end Fractions

end Decimal

end SExpression
