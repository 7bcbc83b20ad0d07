import Mathlib.Algebra.Group.Nat.Defs
import Mathlib.Data.List.Basic
import SExpression.Bare
import SExpression.Proofs.NumeralGrammar
import SExpression.Proofs.Rounding

/-! # Numbers read back

What is written for a number is a numeral or a literal (`isNumeral_signed`), and so it is scanned
as a whole.  An integer therefore comes back wrapped to its type (`ofBare_integer`), and a finite
float comes back itself, with either policy (`ofBare_finite`). -/
set_option autoImplicit false
namespace SExpression

section Signs

/-- What stands before the digits of a number. -/
def signText (negative : Bool) : Bytes := if negative then [byte '-'] else []

theorem isSign_signText (negative : Bool) : IsSign negative (signText negative) := by
  cases negative with
  | false => exact .absent
  | true => exact .minus

theorem isNumeral_signed (negative : Bool) (ds : Bytes) (hne : ds ≠ []) (hds : AllDigits ds) :
    IsNumeral ⟨negative, digitValues ds⟩ (signText negative ++ ds) :=
  .intro negative [] (signText negative) ds (by simp [AllBlank]) (isSign_signText negative) hne hds

end Signs

section Integers

theorem ofString_append (s t : String) :
    Bytes.ofString (s ++ t) = Bytes.ofString s ++ Bytes.ofString t := by
  simp [Bytes.ofString, String.toByteArray_append]

theorem ofString_repr (n : Nat) : Bytes.ofString n.repr = Decimal.digits n := by
  have hascii : ∀ c ∈ Nat.toDigits 10 n, String.utf8EncodeChar c = [byte c] := by
    intro c hc
    obtain ⟨_, hhigh⟩ := Decimal.toNat_digit n c hc
    apply String.utf8EncodeChar_eq_singleton
    rw [Char.utf8Size_eq_one_iff, UInt32.le_iff_toNat_le]
    exact Nat.le_trans hhigh (by decide)
  rw [Bytes.ofString, Nat.repr_eq_ofList_toDigits, String.toUTF8_eq_toByteArray,
    String.toByteArray_ofList, List.utf8Encode, List.data_toByteArray, List.toList_toArray]
  rw [List.flatMap_congr hascii, ← List.map_eq_flatMap]
  rfl

theorem written_integer (n : Int) :
    (Token.integer n).written = signText (n < 0) ++ Decimal.digits n.natAbs := by
  rw [Token.written, Int.toString_eq_repr, Int.repr_eq_if]
  split
  · rename_i h
    have hnat : n.toNat = n.natAbs := by omega
    have hsign : ¬ n < 0 := by omega
    simp [signText, hsign, ofString_repr, hnat]
  · rename_i h
    have hnat : (-n).toNat = n.natAbs := by omega
    have hsign : n < 0 := by omega
    rw [ofString_append, ofString_repr, hnat]
    simp [signText, hsign]
    rfl

/-- The word of a number's numeral is the number, wrapped around. -/
theorem toWord_written (w : Nat) (n : Int) :
    Numeral.toWord w ⟨n < 0, digitValues (Decimal.digits n.natAbs)⟩ = BitVec.ofInt w n := by
  have hword : wordOfDigits w 10 (digitValues (Decimal.digits n.natAbs)) =
      BitVec.ofInt w n.natAbs := by
    rw [wordOfDigits_eq, Decimal.natOfDigits_digits, BitVec.ofInt_natCast]
  by_cases h : n < 0
  · have hnat : (n.natAbs : Int) = -n := by omega
    simp only [Numeral.toWord, h, decide_true, if_true, hword, hnat]
    rw [BitVec.ofInt_neg, BitVec.neg_neg]
  · have hnat : (n.natAbs : Int) = n := by omega
    simp only [Numeral.toWord, h, decide_false, Bool.false_eq_true, if_false, hword, hnat]

theorem scan_written_integer (n : Int) :
    Numeral.scan (Token.integer n).written =
      some ⟨⟨n < 0, digitValues (Decimal.digits n.natAbs)⟩, (Token.integer n).written.length⟩ := by
  have h := Numeral.scan_append (isNumeral_signed (n < 0) _ (Decimal.digits_ne_nil n.natAbs)
    (Decimal.allDigits_digits _)) [] (by simp [AtDigitsEnd])
  rw [List.append_nil] at h
  rw [written_integer, h]

theorem scanFloat_written_integer (n : Int) : scanFloat (Token.integer n).written = none := by
  simp [scanFloat, FloatLiteral.scan, scan_written_integer n, FloatLiteral.scanFraction]

theorem accepts_all {α : Type} (policy : NumericPolicy) (value : α) (length : Nat) :
    policy.accepts length (Reading.mk value length) = true := by
  cases policy with
  | leading => rfl
  | whole => exact BEq.rfl

/-- An integer comes back wrapped to 32 bits in two's complement. -/
theorem ofBare_integer (policy : NumericPolicy) (n : Int) :
    Token.ofBare policy (Token.integer n).written = .integer (n.bmod (2 ^ 32)) := by
  have hvalue : IntegerType.int32.ofWord (BitVec.ofInt 32 n) = n.bmod (2 ^ 32) :=
    BitVec.toInt_ofInt n
  have hscan : IntegerType.int32.scanSigned (Token.integer n).written =
      some ⟨n.bmod (2 ^ 32), (Token.integer n).written.length⟩ := by
    rw [IntegerType.scanSigned, scan_written_integer, Option.map_some, Reading.map, toWord_written]
    exact congrArg (fun v => some (Reading.mk v _)) hvalue
  simp only [Token.ofBare, scanFloat_written_integer, hscan, Option.filter_none, Option.filter_some,
    accepts_all, if_true]

end Integers

section Floats

theorem ratio_snd (d : Decimal) : d.ratio.2 = 10 ^ (-d.exponent).toNat := by
  obtain ⟨coefficient, exponent⟩ := d
  cases exponent with
  | ofNat e =>
      have h : (-(Int.ofNat e)).toNat = 0 := by
        rw [Int.ofNat_eq_natCast]
        omega
      rw [h]
      rfl
  | negSucc e => rfl

/-- The text of a decimal is two runs of digits with a point between them, and all these digits
denote the decimal together. -/
theorem Decimal.exists_text (d : Decimal) : ∃ whole fraction : Bytes,
    d.text = whole ++ byte '.' :: fraction ∧ whole ≠ [] ∧ AllDigits whole ∧ AllDigits fraction ∧
      natOfDigits 10 (digitValues (whole ++ fraction)) * d.ratio.2 =
        d.ratio.1 * 10 ^ fraction.length := by
  let places := (-d.exponent).toNat
  let f := fractionDigits places (d.ratio.1 % d.ratio.2)
  let fraction := if f = [] then [byte '0'] else f
  have hden : d.ratio.2 = 10 ^ places := ratio_snd d
  have hsmall : d.ratio.1 % d.ratio.2 < 10 ^ places := by
    rw [hden]
    exact Nat.mod_lt _ (Nat.pow_pos (by decide))
  have hdenotes := fractionDigits_denotes places _ hsmall
  refine ⟨digits (d.ratio.1 / d.ratio.2), fraction, rfl, digits_ne_nil _, allDigits_digits _, ?_, ?_⟩
  · show AllDigits (if f = [] then [byte '0'] else f)
    split
    · intro b hb
      rw [List.mem_singleton.mp hb]
      rfl
    · exact allDigits_fractionDigits places _ hsmall
  · -- an empty fraction is zero, and so is the digit that stands for it
    have hfraction : natOfDigits 10 (digitValues fraction) * 10 ^ places =
        d.ratio.1 % d.ratio.2 * 10 ^ fraction.length := by
      show natOfDigits 10 (digitValues (if f = [] then [byte '0'] else f)) * 10 ^ places =
        d.ratio.1 % d.ratio.2 * 10 ^ (if f = [] then [byte '0'] else f).length
      split
      · rename_i hempty
        change natOfDigits 10 (digitValues f) * 10 ^ places = _ * 10 ^ f.length at hdenotes
        rw [hempty] at hdenotes
        have hzero : d.ratio.1 % d.ratio.2 = 0 := by
          simpa [digitValues, natOfDigits] using hdenotes.symm
        rw [hzero, Nat.zero_mul]
        exact Nat.zero_mul _
      · exact hdenotes
    rw [← hden] at hfraction
    rw [digitValues_append, natOfDigits_append, natOfDigits_digits, length_digitValues, Nat.add_mul,
      hfraction, Nat.mul_right_comm, ← Nat.add_mul, Nat.div_add_mod']

/-- A literal that was written without an exponent is scanned as a whole. -/
theorem FloatLiteral.scan_written (negative : Bool) (whole fraction : Bytes) (hne : whole ≠ [])
    (hwhole : AllDigits whole) (hfraction : AllDigits fraction) :
    FloatLiteral.scan (signText negative ++ (whole ++ byte '.' :: fraction)) =
      some ⟨⟨⟨negative, digitValues whole⟩, digitValues fraction, none⟩,
        (signText negative ++ (whole ++ byte '.' :: fraction)).length⟩ := by
  have hliteral : IsLiteral [] ⟨⟨negative, digitValues whole⟩, digitValues fraction, none⟩
      (signText negative ++ whole ++ byte '.' :: fraction) :=
    .plain _ _ _ (isNumeral_signed negative whole hne hwhole) hfraction (by simp [AtDigitsEnd])
      (by simp)
  have h := FloatLiteral.scan_append hliteral
  rwa [List.append_nil, List.append_assoc] at h

theorem scanFloat_text (negative : Bool) (d : Decimal) :
    scanFloat (signText negative ++ d.text) =
      some ⟨⟨negative, d.nearest, Binary64.nearest_lt _ _⟩, (signText negative ++ d.text).length⟩ := by
  obtain ⟨whole, fraction, htext, hne, hwhole, hfraction, hdenotes⟩ := d.exists_text
  rw [htext, scanFloat, FloatLiteral.scan_written negative whole fraction hne hwhole hfraction]
  have hratio : (FloatLiteral.decimal
      ⟨⟨negative, digitValues whole⟩, digitValues fraction, none⟩).ratio =
      (natOfDigits 10 (digitValues (whole ++ fraction)), 10 ^ fraction.length) := by
    have hexponent : FloatLiteral.exponentValue none - ((digitValues fraction).length : Int) =
        -(fraction.length : Int) := by
      rw [length_digitValues]
      simp [FloatLiteral.exponentValue]
    rw [FloatLiteral.decimal, hexponent, Decimal.ratio_neg, digitValues_append]
  have hnearest : (FloatLiteral.decimal
      ⟨⟨negative, digitValues whole⟩, digitValues fraction, none⟩).nearest = d.nearest := by
    rw [Decimal.nearest, Decimal.nearest, hratio]
    apply Binary64.nearest_congr _ _ _ _ (Nat.pow_pos (by decide)) _ hdenotes
    rw [ratio_snd]
    exact Nat.pow_pos (by decide)
  simp [Reading.map, FloatLiteral.value, hnearest]

end Floats

section Kinds
variable (x : Binary64)

theorem kinds : x.isNaN = true ∨ x.isInfinite = true ∨ x.isFinite = true := by
  simp only [Binary64.isNaN, Binary64.isInfinite, Binary64.isFinite, decide_eq_true_eq, beq_iff_eq]
  omega

theorem text_nan (h : x.isNaN = true) : x.text = Bytes.ofString "NaN" := by
  rw [Binary64.text, if_pos h]

theorem text_infinite (h : x.isInfinite = true) :
    x.text = signText x.negative ++ Bytes.ofString "inf" := by
  have hnan : ¬ x.isNaN = true := by
    simp only [Binary64.isInfinite, Binary64.isNaN, beq_iff_eq, decide_eq_true_eq] at h ⊢
    omega
  rw [Binary64.text, if_neg hnan, if_pos h]
  rfl

theorem text_finite (h : x.isFinite = true) :
    x.text = signText x.negative ++ (Decimal.shortest x.magnitude).text := by
  have hnan : ¬ x.isNaN = true ∧ ¬ x.isInfinite = true := by
    simp only [Binary64.isFinite, Binary64.isNaN, Binary64.isInfinite, beq_iff_eq,
      decide_eq_true_eq] at h ⊢
    omega
  rw [Binary64.text, if_neg hnan.1, if_neg hnan.2]
  rfl

theorem ofBare_finite (policy : NumericPolicy) (h : x.isFinite = true) :
    Token.ofBare policy x.text = .float x := by
  have hfinite : x.magnitude < Binary64.infinity := of_decide_eq_true h
  have hscan : scanFloat x.text = some ⟨x, x.text.length⟩ := by
    rw [text_finite x h, scanFloat_text]
    congr
    exact Decimal.shortest_nearest x.magnitude hfinite
  simp only [Token.ofBare, hscan, Option.filter_some, accepts_all, if_true]

/-- What has no digits comes back as an atom. -/
theorem ofBare_nan (policy : NumericPolicy) (h : x.isNaN = true) :
    Token.ofBare policy x.text = .atom x.text := by
  rw [text_nan x h]
  cases policy <;> decide

theorem ofBare_infinite (policy : NumericPolicy) (h : x.isInfinite = true) :
    Token.ofBare policy x.text = .atom x.text := by
  rw [text_infinite x h]
  cases x.negative <;> cases policy <;> decide

end Kinds

section Runs

/-- A text that is one bare token wherever it stands between boundaries. -/
def IsRun (text : Bytes) : Prop := text ≠ [] ∧ ∀ b ∈ text, isBoundary b = false

theorem isBoundary_of_isDigit {b : UInt8} (h : isDigit b = true) : isBoundary b = false := by
  simp only [isBoundary, Bool.or_eq_false_iff, beq_eq_false_iff_ne]
  exact ⟨⟨⟨⟨ne_of_isDigit h rfl, ne_of_isDigit h rfl⟩, ne_of_isDigit h rfl⟩, ne_of_isDigit h rfl⟩,
    isWhitespace_of_isDigit h⟩

theorem isRun_of_all (text : Bytes) (hne : text ≠ [])
    (h : text.all (fun b => !isBoundary b) = true) : IsRun text := by
  refine ⟨hne, ?_⟩
  intro b hb
  simpa using List.all_eq_true.mp h b hb

theorem IsRun.append {text more : Bytes} (h : IsRun text) (hmore : ∀ b ∈ more, isBoundary b = false) :
    IsRun (text ++ more) := by
  refine ⟨by simp [h.1], ?_⟩
  intro b hb
  rcases List.mem_append.mp hb with hb | hb
  · exact h.2 b hb
  · exact hmore b hb

theorem IsRun.signed {text : Bytes} (negative : Bool) (h : IsRun text) :
    IsRun (signText negative ++ text) := by
  cases negative with
  | false => exact h
  | true =>
      have hminus : IsRun [byte '-'] := isRun_of_all _ (List.cons_ne_nil _ _) rfl
      exact hminus.append h.2

theorem AllDigits.isRun {ds : Bytes} (hne : ds ≠ []) (h : AllDigits ds) : IsRun ds :=
  ⟨hne, fun b hb => isBoundary_of_isDigit (h b hb)⟩

theorem Decimal.isRun_text (d : Decimal) : IsRun d.text := by
  obtain ⟨whole, fraction, htext, hne, hwhole, hfraction, _⟩ := d.exists_text
  rw [htext]
  apply (hwhole.isRun hne).append
  intro b hb
  rcases List.mem_cons.mp hb with rfl | hb
  · rfl
  · exact isBoundary_of_isDigit (hfraction b hb)

theorem isRun_written_integer (n : Int) : IsRun (Token.integer n).written := by
  rw [written_integer]
  exact ((Decimal.allDigits_digits _).isRun (Decimal.digits_ne_nil _)).signed _

theorem isRun_text (x : Binary64) : IsRun x.text := by
  rcases kinds x with h | h | h
  · rw [text_nan x h]
    exact isRun_of_all _ (List.cons_ne_nil _ _) rfl
  · rw [text_infinite x h]
    apply IsRun.signed
    exact isRun_of_all _ (List.cons_ne_nil _ _) rfl
  · rw [text_finite x h]
    exact (Decimal.isRun_text _).signed _

end Runs

end SExpression
