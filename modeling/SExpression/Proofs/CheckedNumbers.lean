import SExpression.Cursor.Span
import SExpression.Proofs.NumeralGrammar

/-! # Number scans stay inside their bytes

The scans by offsets cut the bytes a few times and add the lengths of what they find.  These are
stretches that lie in the bytes, so that none of this is a breach, and the offset reached is the
length that the scan by grammar gives (`pastSigned_ok`, `pastUnsigned_ok`, `pastFloat_ok`). -/
set_option autoImplicit false
namespace SExpression

section Checks

theorem ok_bind {ε α β : Type} (a : α) (f : α → Except ε β) : (Except.ok a >>= f) = f a := rfl

theorem checkedSum_ok {limit m n : Nat} (h : m + n ≤ limit) : checkedSum limit m n = .ok (m + n) :=
  if_pos h

theorem checkedDifference_ok {m n : Nat} (h : n ≤ m) : checkedDifference m n = .ok (m - n) := if_pos h

theorem Bytes.cut_ok {bs : Bytes} {i j : Nat} (hij : i ≤ j) (hj : j ≤ bs.length) :
    bs.cut i j = .ok ((bs.drop i).take (j - i)) := if_pos ⟨hij, hj⟩

theorem Bytes.cutFrom_ok {bs : Bytes} {i : Nat} (h : i ≤ bs.length) :
    bs.cutFrom i = .ok (bs.drop i) := by
  rw [cutFrom, cut_ok h (Nat.le_refl _), List.take_of_length_le (by rw [List.length_drop])]

end Checks

section Lengths

/-- An offset is beyond the bytes, or a byte stands there. -/
theorem drop_cases (bs : Bytes) (i : Nat) :
    (bs[i]? = none ∧ bs.drop i = []) ∨
      ∃ b rest, bs[i]? = some b ∧ bs.drop i = b :: rest ∧ bs.drop (i + 1) = rest ∧
        i + 1 + rest.length = bs.length := by
  cases hdrop : bs.drop i with
  | nil => exact Or.inl ⟨List.getElem?_eq_none_iff.mpr (List.drop_eq_nil_iff.mp hdrop), rfl⟩
  | cons b rest =>
      have hlength := congrArg List.length hdrop
      rw [List.length_drop, List.length_cons] at hlength
      refine Or.inr ⟨b, rest, ?_, rfl, ?_, by omega⟩
      · rw [← List.head?_drop, hdrop]
        rfl
      · rw [← List.tail_drop, hdrop]
        rfl

theorem blankLength_le (bs : Bytes) : blankLength bs ≤ bs.length :=
  (List.takeWhile_prefix isWhitespace).length_le

theorem length_digitRun_le (radix : Nat) (bs : Bytes) : (digitRun radix bs).length ≤ bs.length := by
  induction bs with
  | nil => exact Nat.le_refl 0
  | cons b bs ih =>
      rw [digitRun]
      split
      · exact Nat.succ_le_succ ih
      · exact Nat.zero_le _

theorem length_digitRun (bs : Bytes) : (digitRun 10 bs).length = (bs.takeWhile isDigit).length := by
  induction bs with
  | nil => rfl
  | cons b bs ih =>
      cases hdigit : isDigit b with
      | true => simp [digitRun, digitValue?_of_isDigit hdigit, hdigit, ih]
      | false => simp [digitRun, digitValue?_of_not_isDigit hdigit, hdigit]

theorem sign_le (bs : Bytes) : (Numeral.sign bs).2 ≤ bs.length := by
  cases bs with
  | nil => exact Nat.le_refl 0
  | cons b bs =>
      rw [Numeral.sign]
      split_ifs <;> simp

theorem length_scan_le {bs : Bytes} {r : Reading Numeral} (h : Numeral.scan bs = some r) :
    r.length ≤ bs.length := by
  obtain ⟨text, rest, rfl, hlength, _⟩ := Numeral.exists_of_scan h
  rw [← hlength, List.length_append]
  exact Nat.le_add_right _ _

theorem blankLength_le_of_scan {bs : Bytes} {r : Reading Numeral} (h : Numeral.scan bs = some r) :
    blankLength bs ≤ r.length := by
  simp only [Numeral.scan] at h
  split at h
  · cases h
  · cases h
    exact Nat.le_trans (Nat.le_add_right _ _) (Nat.le_add_right _ _)

theorem length_scanExponent_le {bs : Bytes} {r : Reading (Option Numeral)}
    (h : FloatLiteral.scanExponent bs = some r) : r.length ≤ bs.length := by
  rcases FloatLiteral.scanExponent_cases h with
    ⟨_, hlength, _⟩ | ⟨b, scale, rest, exponent, rfl, _, _, _, _, hlength⟩
  · rw [hlength]
    exact Nat.zero_le _
  · rw [hlength, List.length_cons, List.length_append]
    omega

end Lengths

section Scans
variable (bs : Bytes)

theorem pastSign_ok (i : Nat) :
    pastSign bs i = .ok (i + (Numeral.sign (bs.drop i)).2) := by
  rcases drop_cases bs i with ⟨hnone, hdrop⟩ | ⟨b, rest, hsome, hdrop, _, _⟩
  · rw [pastSign, hnone, hdrop]
    rfl
  · rw [pastSign, hsome, hdrop]
    have hsum : checkedSum (bs.length + 1) i 1 = .ok (i + 1) := checkedSum_ok (by omega)
    simp only [Numeral.sign]
    by_cases hminus : b = byte '-'
    · rw [if_pos (Or.inr hminus), if_pos hminus, hsum]
    by_cases hplus : b = byte '+'
    · rw [if_pos (Or.inl hplus), if_neg hminus, if_pos hplus, hsum]
    · rw [if_neg (by simp [hminus, hplus]), if_neg hminus, if_neg hplus]
      rfl

theorem pastDigits_ok (radix : Nat) {i : Nat} (h : i ≤ bs.length) :
    pastDigits bs radix i =
      .ok (if digitRun radix (bs.drop i) = [] then none
        else some (i + (digitRun radix (bs.drop i)).length)) := by
  have hfits := length_digitRun_le radix (bs.drop i)
  rw [List.length_drop] at hfits
  rw [pastDigits, Bytes.cutFrom_ok h, ok_bind]
  cases hdigits : digitRun radix (bs.drop i) with
  | nil => rfl
  | cons d ds =>
      rw [hdigits] at hfits
      have hsum : checkedSum (bs.length + 1) i (d :: ds).length = .ok (i + (d :: ds).length) :=
        checkedSum_ok (by omega)
      exact (congrArg (some <$> ·) hsum).trans rfl

theorem pastSigned_ok : pastSigned bs = .ok ((Numeral.scan bs).map (·.length)) := by
  have hblank := blankLength_le bs
  have hsign := sign_le (bs.drop (blankLength bs))
  rw [List.length_drop] at hsign
  rw [pastSigned, pastSign_ok bs, ok_bind, pastDigits_ok bs 10 (by omega), Numeral.scan]
  split <;> simp_all

theorem pastSigned_scanSigned (t : IntegerType) :
    pastSigned bs = .ok ((t.scanSigned bs).map (·.length)) := by
  rw [pastSigned_ok, IntegerType.scanSigned, Option.map_map]
  rfl

theorem pastUnsigned_ok (t : IntegerType) (radix : Nat) :
    pastUnsigned bs radix = .ok ((t.scanUnsigned radix bs).map (·.length)) := by
  rw [pastUnsigned, pastDigits_ok bs radix (blankLength_le bs), IntegerType.scanUnsigned]
  split <;> simp_all

theorem pastExponent_ok (i : Nat) :
    pastExponent bs i = .ok ((FloatLiteral.scanExponent (bs.drop i)).map (i + ·.length)) := by
  rcases drop_cases bs i with ⟨hnone, hdrop⟩ | ⟨b, rest, hsome, hdrop, hrest, hlength⟩
  · rw [pastExponent, hnone, hdrop]
    rfl
  · simp only [pastExponent, hsome, hdrop, FloatLiteral.scanExponent]
    by_cases hsign : b = byte 'e' ∨ b = byte 'E'
    · rw [if_pos hsign, if_pos hsign, checkedSum_ok (by omega), ok_bind,
        Bytes.cutFrom_ok (by omega), ok_bind, hrest, pastSigned_ok, ok_bind]
      cases hscan : Numeral.scan rest with
      | none => rfl
      | some r =>
          have hle := length_scan_le hscan
          have hsum : checkedSum (bs.length + 1) (i + 1) r.length = .ok (i + 1 + r.length) :=
            checkedSum_ok (by omega)
          simp only [Option.map_some, hsum, ← Nat.add_assoc]
          rfl
    · rw [if_neg hsign, if_neg hsign]
      rfl

theorem pastFloat_ok : pastFloat bs = .ok ((FloatLiteral.scan bs).map (·.length)) := by
  rw [pastFloat, pastSigned_ok, ok_bind]
  cases hscan : Numeral.scan bs with
  | none => simp [FloatLiteral.scan, hscan]
  | some whole =>
      have hblank := blankLength_le_of_scan hscan
      simp only [Option.map_some, FloatLiteral.scan, hscan, Option.bind_eq_bind, Option.bind_some]
      rcases drop_cases bs whole.length with ⟨hnone, hdrop⟩ | ⟨b, rest, hsome, hdrop, hrest, hlength⟩
      · simp [hnone, hdrop, FloatLiteral.scanFraction]
      by_cases hpoint : b = byte '.'
      · have hdigits := length_digitRun rest
        have hfits := length_digitRun_le 10 rest
        rw [if_pos (by rw [hsome, hpoint]), checkedSum_ok (by omega), ok_bind,
          Bytes.cutFrom_ok (by omega), ok_bind, hrest, ← hdigits, checkedSum_ok (by omega), ok_bind,
          pastExponent_ok, ok_bind, hdrop, FloatLiteral.scanFraction, if_pos hpoint]
        simp only [Option.bind_some]
        cases hexponent : FloatLiteral.scanExponent
            (bs.drop (whole.length + 1 + (digitRun 10 rest).length)) with
        | none => rfl
        | some e =>
            have hpast := length_scanExponent_le hexponent
            rw [List.length_drop] at hpast
            simp only [Option.map_some]
            rw [Bytes.cut_ok (by omega) (by omega)]
            rfl
      · simp [hsome, hdrop, hpoint, FloatLiteral.scanFraction]

theorem pastFloat_scanFloat : pastFloat bs = .ok ((scanFloat bs).map (·.length)) := by
  rw [pastFloat_ok, scanFloat, Option.map_map]
  rfl

end Scans

end SExpression
