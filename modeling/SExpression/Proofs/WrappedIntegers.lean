import Mathlib.Data.Int.ModEq
import Mathlib.Data.List.Forall2
import Mathlib.Data.Nat.Digits.Defs
import SExpression.Proofs.NumberText
import SExpression.Proofs.NumericTokens

/-! # Integers modulo their width

A scan of an integer computes in words of the width of its type, digit by digit, and negates a word
at the end.  What comes out is the one number of the type that is congruent, modulo a power of two,
to the unbounded number that the literal denotes (`IntegerType.eq_ofWord_iff`).  A literal of any
length has a value therefore, and the text of a number of the type has this number
(`integers_modulo_width`).

Digits beyond nine are letters of either case; `IsDigitIn` says which byte stands for which digit. -/
set_option autoImplicit false
namespace SExpression

section Residues

/-- The number that a numeral denotes, of any size. -/
def Numeral.value (n : Numeral) : Int :=
  let size : Nat := Nat.ofDigits 10 n.digits.reverse
  if n.negative then -size else size

theorem natOfDigits_eq_ofDigits (radix : Nat) (ds : List Nat) :
    natOfDigits radix ds = Nat.ofDigits radix ds.reverse := by
  induction ds using List.reverseRecOn with
  | nil => rfl
  | append_singleton ds d ih =>
      have hlast : natOfDigits radix [d] = d := by simp [natOfDigits]
      rw [natOfDigits_append, ih, hlast, List.reverse_append, List.reverse_singleton,
        List.singleton_append, Nat.ofDigits_cons, List.length_singleton, Nat.pow_one, Nat.mul_comm,
        Nat.add_comm]

/-- The words of a scan are the residues of the unbounded numbers. -/
theorem wordOfDigits_eq_ofInt (w radix : Nat) (ds : List Nat) :
    wordOfDigits w radix ds = BitVec.ofInt w (Nat.ofDigits radix ds.reverse : Nat) := by
  rw [wordOfDigits_eq, natOfDigits_eq_ofDigits, BitVec.ofInt_natCast]

theorem Numeral.toWord_eq_ofInt (w : Nat) (n : Numeral) : n.toWord w = BitVec.ofInt w n.value := by
  rw [toWord, value, wordOfDigits_eq_ofInt]
  split
  · rw [BitVec.ofInt_neg]
  · rfl

namespace IntegerType
variable (t : IntegerType)

/-- The numbers of a type.  A signed type has as many of them below zero as from zero on. -/
def Holds (x : Int) : Prop :=
  if t.signed then -2 ^ t.width ≤ 2 * x ∧ 2 * x < 2 ^ t.width else 0 ≤ x ∧ x < 2 ^ t.width

/-- The type holds `v`, and `v` is congruent to `x` modulo the size of the type. -/
def IsWrapped (x v : Int) : Prop := t.Holds v ∧ v ≡ x [ZMOD 2 ^ t.width]

theorem natCast_size : ((2 ^ t.width : Nat) : Int) = 2 ^ t.width := by
  push_cast
  rfl

theorem ofWord_ofInt (x : Int) :
    t.ofWord (BitVec.ofInt t.width x) =
      if t.signed then x.bmod (2 ^ t.width) else x % 2 ^ t.width := by
  have hpos : (0 : Int) < 2 ^ t.width := by positivity
  unfold ofWord
  split
  · rw [BitVec.toInt_ofInt]
  · rw [BitVec.toNat_ofInt, t.natCast_size, Int.toNat_of_nonneg (Int.emod_nonneg _ hpos.ne')]

/-- A word is the residue of one number of the type. -/
theorem eq_ofWord_iff (x v : Int) : v = t.ofWord (BitVec.ofInt t.width x) ↔ t.IsWrapped x v := by
  have hsize := t.natCast_size
  rw [ofWord_ofInt, IsWrapped, Holds, Int.ModEq]
  cases hsigned : t.signed with
  | true =>
      simp only [if_true]
      constructor
      · rintro rfl
        have hlow := BitVec.le_two_mul_toInt (x := BitVec.ofInt t.width x)
        have hhigh := BitVec.two_mul_toInt_lt (x := BitVec.ofInt t.width x)
        have hresidue := Int.bmod_emod (x := x) (m := 2 ^ t.width)
        rw [BitVec.toInt_ofInt] at hlow hhigh
        rw [hsize] at hresidue
        exact ⟨⟨hlow, hhigh⟩, hresidue⟩
      · rintro ⟨⟨hlow, hhigh⟩, hresidue⟩
        have hv : v.bmod (2 ^ t.width) = v :=
          Int.bmod_eq_of_le_mul_two (by rw [hsize]; omega) (by rw [hsize]; omega)
        rw [← hv, ← Int.emod_bmod v, ← Int.emod_bmod x, hsize, hresidue]
  | false =>
      simp only [Bool.false_eq_true, if_false]
      have hpos : (0 : Int) < 2 ^ t.width := by positivity
      constructor
      · rintro rfl
        exact ⟨⟨Int.emod_nonneg _ hpos.ne', Int.emod_lt_of_pos _ hpos⟩,
          Int.emod_emod_of_dvd _ dvd_rfl⟩
      · rintro ⟨⟨hlow, hhigh⟩, hresidue⟩
        rw [← hresidue, Int.emod_eq_of_lt hlow hhigh]

end IntegerType

end Residues

section Digits
variable (radix : Nat)

/-- The byte stands for the digit: one of the ten numerals, or a letter of either case. -/
inductive IsDigitIn (b : UInt8) (d : Nat) : Prop where
  | numeral : d < radix → d < 10 → b.toNat = (byte '0').toNat + d → IsDigitIn b d
  | lower : d < radix → 10 ≤ d → d < 36 → b.toNat + 10 = (byte 'a').toNat + d → IsDigitIn b d
  | upper : d < radix → 10 ≤ d → d < 36 → b.toNat + 10 = (byte 'A').toNat + d → IsDigitIn b d

theorem toNat_letters : (byte '0').toNat = 48 ∧ (byte '9').toNat = 57 ∧ (byte 'a').toNat = 97 ∧
    (byte 'z').toNat = 122 ∧ (byte 'A').toNat = 65 ∧ (byte 'Z').toNat = 90 :=
  ⟨rfl, rfl, rfl, rfl, rfl, rfl⟩

theorem digitValue?_eq_some_iff (b : UInt8) (d : Nat) :
    digitValue? radix b = some d ↔ IsDigitIn radix b d := by
  obtain ⟨hzero, hnine, ha, hz, hA, hZ⟩ := toNat_letters
  constructor
  · intro h
    simp only [digitValue?, isDigit, Bool.and_eq_true, decide_eq_true_eq, UInt8.le_iff_toNat_le,
      Option.ite_none_right_eq_some, Option.some.injEq] at h
    obtain ⟨hlt, rfl⟩ := h
    split at hlt
    · rename_i hb
      simp only [if_pos hb]
      exact .numeral hlt (by omega) (by omega)
    · rename_i hnumeral
      simp only [if_neg hnumeral]
      split at hlt
      · rename_i hb
        simp only [if_pos hb]
        exact .lower hlt (by omega) (by omega) (by omega)
      · rename_i hlower
        simp only [if_neg hlower]
        split at hlt
        · rename_i hb
          simp only [if_pos hb]
          exact .upper hlt (by omega) (by omega) (by omega)
        · exact absurd hlt (Nat.lt_irrefl _)
  · intro h
    simp only [digitValue?, isDigit, Bool.and_eq_true, decide_eq_true_eq, UInt8.le_iff_toNat_le,
      Option.ite_none_right_eq_some, Option.some.injEq]
    cases h with
    | numeral hlt hten hb =>
        rw [if_pos (by omega)]
        omega
    | lower hlt hten hlast hb =>
        rw [if_neg (by omega), if_pos (by omega)]
        omega
    | upper hlt hten hlast hb =>
        rw [if_neg (by omega), if_neg (by omega), if_pos (by omega)]
        omega

/-- No digit stands at the front. -/
def DigitsEnd (bs : Bytes) : Prop := ∀ b ∈ bs.head?, ∀ d, ¬ IsDigitIn radix b d

variable {radix}

theorem IsDigitIn.isWhitespace {b : UInt8} {d : Nat} (h : IsDigitIn radix b d) :
    isWhitespace b = false := by
  have hspace : ∀ c : UInt8, SExpression.isWhitespace c = true → c.toNat ≤ 32 := by
    intro c hc
    simp only [SExpression.isWhitespace, Bool.or_eq_true, beq_iff_eq] at hc
    rcases hc with ((rfl | rfl) | rfl) | rfl <;> decide
  obtain ⟨hzero, -, ha, -, hA, -⟩ := toNat_letters
  rw [← Bool.not_eq_true]
  intro hb
  have hlow := hspace b hb
  cases h <;> omega

theorem digitRun_of_digits {ds : Bytes} {values : List Nat} {rest : Bytes}
    (hds : List.Forall₂ (IsDigitIn radix) ds values) (hrest : DigitsEnd radix rest) :
    digitRun radix (ds ++ rest) = values := by
  induction hds with
  | nil =>
      cases rest with
      | nil => rfl
      | cons b rest =>
          have hnone : digitValue? radix b = none := by
            rw [Option.eq_none_iff_forall_ne_some]
            intro d hd
            exact hrest b rfl d ((digitValue?_eq_some_iff radix b d).mp hd)
          rw [List.nil_append, digitRun, hnone]
  | cons hb _ ih =>
      rw [List.cons_append, digitRun, (digitValue?_eq_some_iff radix _ _).mpr hb, ih]

theorem exists_digitRun (radix : Nat) (bs : Bytes) :
    ∃ ds rest, bs = ds ++ rest ∧ List.Forall₂ (IsDigitIn radix) ds (digitRun radix bs) ∧
      DigitsEnd radix rest := by
  induction bs with
  | nil => exact ⟨[], [], rfl, .nil, by simp [DigitsEnd]⟩
  | cons b bs ih =>
      cases hb : digitValue? radix b with
      | none =>
          refine ⟨[], b :: bs, rfl, ?_, ?_⟩
          · rw [digitRun, hb]
            exact .nil
          · intro c hc d hd
            obtain rfl : b = c := by simpa using hc
            rw [(digitValue?_eq_some_iff radix b d).mpr hd] at hb
            cases hb
      | some d =>
          obtain ⟨ds, rest, rfl, hds, hrest⟩ := ih
          refine ⟨b :: ds, rest, rfl, ?_, hrest⟩
          rw [digitRun, hb]
          exact .cons ((digitValue?_eq_some_iff radix b d).mp hb) hds

end Digits

/-- Whitespace and digits. -/
inductive IsUnsigned (radix : Nat) : Nat → Bytes → Prop where
  | intro (blank ds : Bytes) (values : List Nat) :
      AllBlank blank → ds ≠ [] → List.Forall₂ (IsDigitIn radix) ds values →
      IsUnsigned radix (Nat.ofDigits radix values.reverse) (blank ++ ds)

theorem IsDigitIn.ascii {radix : Nat} {b : UInt8} {d : Nat} (h : IsDigitIn radix b d) : b < 0x80 := by
  obtain ⟨hzero, -, ha, -, hA, -⟩ := toNat_letters
  have hend : (0x80 : UInt8).toNat = 128 := rfl
  rw [UInt8.lt_iff_toNat_lt]
  cases h <;> omega

theorem IsUnsigned.isUtf8 {radix x : Nat} {text : Bytes} (h : IsUnsigned radix x text) :
    text.IsUtf8 := by
  obtain ⟨blank, ds, values, hblank, hne, hds⟩ := h
  apply hblank.isUtf8.append
  clear hne
  induction hds with
  | nil => exact ⟨[], rfl⟩
  | @cons b d ds values hb _ ih =>
      have hfirst : Bytes.IsUtf8 [b] := by
        apply Bytes.isUtf8_of_ascii
        simpa using hb.ascii
      exact hfirst.append ih

namespace IntegerType
variable (t : IntegerType)

section Signed

theorem scanSigned_eq_some_iff (s : Bytes) (v : Int) (length : Nat) :
    t.scanSigned s = some ⟨v, length⟩ ↔ ∃ text rest n, s = text ++ rest ∧ text.length = length ∧
      IsNumeral n text ∧ AtDigitsEnd rest ∧ t.IsWrapped n.value v := by
  constructor
  · intro h
    obtain ⟨text, rest, n, hs, hlength, hn, hrest, hv⟩ := exists_of_scanSigned t h
    rw [Numeral.toWord_eq_ofInt] at hv
    exact ⟨text, rest, n, hs, hlength, hn, hrest, (t.eq_ofWord_iff n.value v).mp hv.symm⟩
  · rintro ⟨text, rest, n, rfl, rfl, hn, hrest, hv⟩
    rw [scanSigned_append t hn hrest, Numeral.toWord_eq_ofInt, (t.eq_ofWord_iff n.value v).mpr hv]

/-- Only where no digit stands there is nothing to read. -/
theorem scanSigned_eq_none_iff (s : Bytes) :
    t.scanSigned s = none ↔ ∀ negative blank sign b rest, s = blank ++ (sign ++ b :: rest) →
      AllBlank blank → IsSign negative sign → isDigit b = false := by
  constructor
  · rintro hnone negative blank sign b rest rfl hblank hsign
    rw [← Bool.not_eq_true]
    intro hb
    obtain ⟨ds, past, hsplit, hds, hpast⟩ := exists_digits (b :: rest)
    have hne : ds ≠ [] := by
      rintro rfl
      have hfront := hpast b (by rw [← List.nil_append past, ← hsplit]; rfl)
      rw [hb] at hfront
      cases hfront
    have hread := scanSigned_append t (.intro negative blank sign ds hblank hsign hne hds) hpast
    rw [List.append_assoc, List.append_assoc, ← hsplit, hnone] at hread
    cases hread
  · intro h
    obtain ⟨negative, blank, sign, ds, rest, rfl, hblank, hsign, hds, _, hscan⟩ :=
      Numeral.exists_parts s
    rw [scanSigned, hscan]
    cases ds with
    | nil => rfl
    | cons b ds =>
        have hb := h negative blank sign b (ds ++ rest) rfl hblank hsign
        rw [hds b (List.mem_cons_self ..)] at hb
        cases hb

/-- The text of a number is read back, whatever follows that is no digit. -/
theorem scanSigned_toString (x : Int) (hx : t.Holds x) (rest : Bytes) (hrest : AtDigitsEnd rest) :
    t.scanSigned (Bytes.ofString (toString x) ++ rest) =
      some ⟨x, (Bytes.ofString (toString x)).length⟩ := by
  have hwritten : Bytes.ofString (toString x) = signText (x < 0) ++ Decimal.digits x.natAbs :=
    written_integer x
  have hnumeral := isNumeral_signed (x < 0) _ (Decimal.digits_ne_nil x.natAbs)
    (Decimal.allDigits_digits _)
  rw [hwritten, scanSigned_append t hnumeral hrest, toWord_written,
    ← (t.eq_ofWord_iff x x).mpr ⟨hx, Int.ModEq.refl x⟩]

end Signed

section Unsigned
variable {radix : Nat}

theorem scanUnsigned_digits {blank ds rest : Bytes} {values : List Nat} (hblank : AllBlank blank)
    (hds : List.Forall₂ (IsDigitIn radix) ds values) (hne : ds ≠ [])
    (hrest : DigitsEnd radix rest) :
    t.scanUnsigned radix (blank ++ (ds ++ rest)) =
      some ⟨t.ofWord (BitVec.ofInt t.width (Nat.ofDigits radix values.reverse : Nat)),
        blank.length + ds.length⟩ := by
  have hlength : values.length = ds.length := hds.length_eq.symm
  have hsome : values ≠ [] := by
    rintro rfl
    exact hne (List.length_eq_zero_iff.mp hlength.symm)
  have hfront : ∀ b ∈ (ds ++ rest).head?, isWhitespace b = false := by
    intro b hb
    cases hds with
    | nil => exact absurd rfl hne
    | cons hc _ =>
        obtain rfl := Option.some.inj hb
        exact hc.isWhitespace
  simp only [scanUnsigned, Numeral.blankLength_append blank _ hblank hfront, List.drop_left,
    digitRun_of_digits hds hrest, if_neg hsome, wordOfDigits_eq_ofInt, hlength]

/-- Every text begins with whitespace and digits, and a scan succeeds if there are digits. -/
theorem exists_unsignedParts (radix : Nat) (s : Bytes) : ∃ blank ds values rest,
    s = blank ++ (ds ++ rest) ∧ AllBlank blank ∧ List.Forall₂ (IsDigitIn radix) ds values ∧
      DigitsEnd radix rest ∧
      t.scanUnsigned radix s = if ds = [] then none
        else some ⟨t.ofWord (BitVec.ofInt t.width (Nat.ofDigits radix values.reverse : Nat)),
          blank.length + ds.length⟩ := by
  obtain ⟨blank, past, rfl, hblank, hpast⟩ := Numeral.exists_blank s
  obtain ⟨ds, rest, hsplit, hds, hrest⟩ := exists_digitRun radix past
  refine ⟨blank, ds, _, rest, by rw [hsplit], hblank, hds, hrest, ?_⟩
  split
  · rename_i hnil
    rw [hnil, List.forall₂_nil_left_iff] at hds
    simp only [scanUnsigned, Numeral.blankLength_append blank _ hblank hpast, List.drop_left, hds,
      if_true]
  · rename_i hne
    rw [hsplit] at hds ⊢
    exact t.scanUnsigned_digits hblank hds hne hrest

theorem scanUnsigned_eq_some_iff (s : Bytes) (v : Int) (length : Nat) :
    t.scanUnsigned radix s = some ⟨v, length⟩ ↔ ∃ text rest x, s = text ++ rest ∧
      text.length = length ∧ IsUnsigned radix x text ∧ DigitsEnd radix rest ∧ t.IsWrapped x v := by
  constructor
  · intro h
    obtain ⟨blank, ds, values, rest, rfl, hblank, hds, hrest, hscan⟩ := t.exists_unsignedParts radix s
    rw [hscan] at h
    split at h
    · cases h
    · rename_i hne
      cases h
      exact ⟨blank ++ ds, rest, _, (List.append_assoc ..).symm, List.length_append,
        .intro blank ds values hblank hne hds, hrest, (t.eq_ofWord_iff _ _).mp rfl⟩
  · rintro ⟨text, rest, x, rfl, rfl, htext, hrest, hv⟩
    obtain ⟨blank, ds, values, hblank, hne, hds⟩ := htext
    rw [List.append_assoc, t.scanUnsigned_digits hblank hds hne hrest, List.length_append,
      (t.eq_ofWord_iff _ v).mpr hv]

theorem scanUnsigned_eq_none_iff (s : Bytes) :
    t.scanUnsigned radix s = none ↔ ∀ blank b rest, s = blank ++ b :: rest → AllBlank blank →
      ∀ d, ¬ IsDigitIn radix b d := by
  constructor
  · rintro hnone blank b rest rfl hblank d hb
    obtain ⟨ds, past, hsplit, hds, hpast⟩ := exists_digitRun radix (b :: rest)
    have hne : ds ≠ [] := by
      rintro rfl
      exact hpast b (by rw [← List.nil_append past, ← hsplit]; rfl) d hb
    rw [hsplit] at hds hnone
    rw [t.scanUnsigned_digits hblank hds hne hpast] at hnone
    cases hnone
  · intro h
    obtain ⟨blank, ds, values, rest, rfl, hblank, hds, _, hscan⟩ := t.exists_unsignedParts radix s
    rw [hscan]
    cases hds with
    | nil => rfl
    | cons hb _ => exact absurd hb (h blank _ _ rfl hblank _)

/-- The decimal digits are the digits of radix ten. -/
theorem forall₂_digitValues {ds : Bytes} (hds : AllDigits ds) :
    List.Forall₂ (IsDigitIn 10) ds (digitValues ds) := by
  induction ds with
  | nil => exact .nil
  | cons b ds ih =>
      have hb := digitValue?_of_isDigit (hds b (List.mem_cons_self ..))
      have hrest : AllDigits ds := fun c hc => hds c (List.mem_cons_of_mem _ hc)
      exact .cons ((digitValue?_eq_some_iff 10 b _).mp hb) (ih hrest)

theorem digitsEnd_ten {rest : Bytes} (hrest : AtDigitsEnd rest) : DigitsEnd 10 rest := by
  intro b hb d hd
  rw [← digitValue?_eq_some_iff, digitValue?_of_not_isDigit (hrest b hb)] at hd
  cases hd

theorem scanUnsigned_toString (x : Int) (hx : t.Holds x) (hnonneg : 0 ≤ x) (rest : Bytes)
    (hrest : AtDigitsEnd rest) :
    t.scanUnsigned 10 (Bytes.ofString (toString x) ++ rest) =
      some ⟨x, (Bytes.ofString (toString x)).length⟩ := by
  have hunsigned : ¬ x < 0 := Int.not_lt.mpr hnonneg
  have hsize : (x.natAbs : Int) = x := Int.natAbs_of_nonneg hnonneg
  have hwritten : Bytes.ofString (toString x) = Decimal.digits x.natAbs := by
    have h := written_integer x
    rw [decide_eq_false hunsigned] at h
    exact h
  have hblank : AllBlank [] := by simp [AllBlank]
  have hread := t.scanUnsigned_digits hblank
    (forall₂_digitValues (Decimal.allDigits_digits x.natAbs)) (Decimal.digits_ne_nil _)
    (digitsEnd_ten hrest)
  rw [List.nil_append, List.length_nil, Nat.zero_add, ← natOfDigits_eq_ofDigits,
    Decimal.natOfDigits_digits, hsize, ← (t.eq_ofWord_iff x x).mpr ⟨hx, Int.ModEq.refl x⟩] at hread
  rw [hwritten, hread]

end Unsigned

end IntegerType

/-- An integer is read exactly where whitespace, a sign and a digit begin the text, as far as the
digits reach, and its value is the number of the type that is congruent to the number denoted.
Without a sign the same holds, in radix ten and in radix sixteen.  So the text of each number of a
type has this number for its value. -/
theorem integers_modulo_width (s : Bytes) :
    (∀ t : IntegerType,
      (t.scanSigned s = none ↔ ∀ negative blank sign b rest, s = blank ++ (sign ++ b :: rest) →
        AllBlank blank → IsSign negative sign → isDigit b = false) ∧
      (∀ v length, t.scanSigned s = some ⟨v, length⟩ ↔ ∃ text rest n, s = text ++ rest ∧
        text.length = length ∧ IsNumeral n text ∧ AtDigitsEnd rest ∧ t.IsWrapped n.value v) ∧
      (t.scanUnsigned 10 s = none ↔ ∀ blank b rest, s = blank ++ b :: rest → AllBlank blank →
        ∀ d, ¬ IsDigitIn 10 b d) ∧
      (∀ v length, t.scanUnsigned 10 s = some ⟨v, length⟩ ↔ ∃ text rest x, s = text ++ rest ∧
        text.length = length ∧ IsUnsigned 10 x text ∧ DigitsEnd 10 rest ∧ t.IsWrapped x v) ∧
      ∀ x, t.Holds x → ∀ rest, AtDigitsEnd rest →
        let text := Bytes.ofString (toString x)
        t.scanSigned (text ++ rest) = some ⟨x, text.length⟩ ∧
        (0 ≤ x → t.scanUnsigned 10 (text ++ rest) = some ⟨x, text.length⟩)) ∧
    (scanHexadecimal s = none ↔ ∀ blank b rest, s = blank ++ b :: rest → AllBlank blank →
      ∀ d, ¬ IsDigitIn 16 b d) ∧
    ∀ v length, scanHexadecimal s = some ⟨v, length⟩ ↔ ∃ text rest x, s = text ++ rest ∧
      text.length = length ∧ IsUnsigned 16 x text ∧ DigitsEnd 16 rest ∧
      IntegerType.uint32.IsWrapped x v := by
  refine ⟨fun t => ⟨t.scanSigned_eq_none_iff s, t.scanSigned_eq_some_iff s,
    t.scanUnsigned_eq_none_iff s, t.scanUnsigned_eq_some_iff s, ?_⟩,
    IntegerType.uint32.scanUnsigned_eq_none_iff s, IntegerType.uint32.scanUnsigned_eq_some_iff s⟩
  intro x hx rest hrest text
  exact ⟨t.scanSigned_toString x hx rest hrest,
    fun hnonneg => t.scanUnsigned_toString x hx hnonneg rest hrest⟩

/-- The least number of eight bits, whose opposite is not of the type, is read back. -/
theorem least_integer_read :
    IntegerType.Holds ⟨true, 8⟩ (-128) ∧ AtDigitsEnd (Bytes.ofString ")") ∧
      IntegerType.scanSigned ⟨true, 8⟩ (Bytes.ofString "-128" ++ Bytes.ofString ")") =
        some ⟨-128, 4⟩ := by
  have hholds : IntegerType.Holds ⟨true, 8⟩ (-128) := by simp [IntegerType.Holds]
  have hend : AtDigitsEnd (Bytes.ofString ")") := by
    intro b hb
    obtain rfl : byte ')' = b := Option.some.inj hb
    rfl
  obtain ⟨-, -, -, -, hread⟩ := (integers_modulo_width []).1 ⟨true, 8⟩
  exact ⟨hholds, hend, (hread (-128) hholds (Bytes.ofString ")") hend).1⟩

end SExpression
