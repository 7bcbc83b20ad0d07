import SExpression.Number.FloatLiteral
import SExpression.Proofs.CharacterBoundaries
import SExpression.Proofs.Digits

/-! # The grammar of numerals and literals

What the text of a numeral and of a floating-point literal is, said without a scanner: `IsNumeral`
and `IsLiteral` relate a text to what it denotes, and a literal also to the text after it, since it
is as long as it can be.  A scan reads such a text with whatever may follow it, and nothing else
(`Numeral.scan_eq_some_iff`, `FloatLiteral.scan_eq_some_iff`). -/
set_option autoImplicit false
namespace SExpression

section Runs

theorem exists_digits (bs : Bytes) :
    ∃ ds rest, bs = ds ++ rest ∧ AllDigits ds ∧ AtDigitsEnd rest := by
  refine ⟨bs.takeWhile isDigit, bs.dropWhile isDigit, List.takeWhile_append_dropWhile.symm,
    fun _ hb => List.mem_takeWhile_imp hb, ?_⟩
  intro b hb
  have h := List.head?_dropWhile_not isDigit bs
  rw [Option.mem_def.mp hb] at h
  simpa using h

theorem AtDigitsEnd.cons {b : UInt8} {rest : Bytes} (h : isDigit b = false) :
    AtDigitsEnd (b :: rest) := by
  intro x hx
  obtain rfl : b = x := by simpa using hx
  exact h

theorem ne_of_isDigit {b c : UInt8} (hb : isDigit b = true) (hc : isDigit c = false) : b ≠ c := by
  rintro rfl
  rw [hb] at hc
  cases hc

theorem isWhitespace_of_isDigit {b : UInt8} (h : isDigit b = true) : isWhitespace b = false := by
  simp only [isWhitespace, Bool.or_eq_false_iff, beq_eq_false_iff_ne]
  exact ⟨⟨⟨ne_of_isDigit h rfl, ne_of_isDigit h rfl⟩, ne_of_isDigit h rfl⟩, ne_of_isDigit h rfl⟩

end Runs

/-- How a sign is written; a plus may be left out. -/
inductive IsSign : Bool → Bytes → Prop where
  | absent : IsSign false []
  | plus : IsSign false [byte '+']
  | minus : IsSign true [byte '-']

def AllBlank (bs : Bytes) : Prop := ∀ b ∈ bs, isWhitespace b = true

/-- Whitespace, a sign or none, and digits. -/
inductive IsNumeral : Numeral → Bytes → Prop where
  | intro (negative : Bool) (blank sign digits : Bytes) :
      AllBlank blank → IsSign negative sign → digits ≠ [] → AllDigits digits →
      IsNumeral ⟨negative, digitValues digits⟩ (blank ++ (sign ++ digits))

namespace Numeral

theorem sign_append {negative : Bool} {text : Bytes} (hsign : IsSign negative text) (ds : Bytes)
    (hne : ds ≠ []) (hds : AllDigits ds) (rest : Bytes) :
    sign (text ++ (ds ++ rest)) = (negative, text.length) := by
  cases hsign with
  | absent =>
      cases ds with
      | nil => exact absurd rfl hne
      | cons b ds =>
          have hb := hds b (by simp)
          have hminus : b ≠ byte '-' := ne_of_isDigit hb rfl
          have hplus : b ≠ byte '+' := ne_of_isDigit hb rfl
          simp [sign, hminus, hplus]
  | plus => rfl
  | minus => rfl

theorem exists_sign (bs : Bytes) :
    ∃ text rest, bs = text ++ rest ∧ IsSign (sign bs).1 text ∧ text.length = (sign bs).2 := by
  cases bs with
  | nil => exact ⟨[], [], rfl, .absent, rfl⟩
  | cons b bs =>
      by_cases hminus : b = byte '-'
      · subst hminus
        exact ⟨[byte '-'], bs, rfl, .minus, rfl⟩
      by_cases hplus : b = byte '+'
      · subst hplus
        exact ⟨[byte '+'], bs, rfl, .plus, rfl⟩
      · have hnone : sign (b :: bs) = (false, 0) := by simp [sign, hminus, hplus]
        exact ⟨[], b :: bs, rfl, by rw [hnone]; exact .absent, by rw [hnone]; rfl⟩

theorem blankLength_append (blank rest : Bytes) (hblank : AllBlank blank)
    (hrest : ∀ b ∈ rest.head?, isWhitespace b = false) :
    blankLength (blank ++ rest) = blank.length := by
  rw [blankLength, List.takeWhile_append_of_pos hblank]
  cases rest with
  | nil => simp
  | cons b rest => simp [hrest b rfl]

theorem not_blank_signed {negative : Bool} {text : Bytes} (hsign : IsSign negative text) (ds : Bytes)
    (hne : ds ≠ []) (hds : AllDigits ds) (rest : Bytes) :
    ∀ b ∈ (text ++ (ds ++ rest)).head?, isWhitespace b = false := by
  intro b hb
  cases hsign with
  | absent =>
      cases ds with
      | nil => exact absurd rfl hne
      | cons x ds =>
          obtain rfl : x = b := by simpa using hb
          exact isWhitespace_of_isDigit (hds x (by simp))
  | plus =>
      obtain rfl : byte '+' = b := by simpa using hb
      rfl
  | minus =>
      obtain rfl : byte '-' = b := by simpa using hb
      rfl

/-- A numeral is read where no digit follows it. -/
theorem scan_append {n : Numeral} {text : Bytes} (h : IsNumeral n text) (rest : Bytes)
    (hrest : AtDigitsEnd rest) : scan (text ++ rest) = some ⟨n, text.length⟩ := by
  obtain ⟨negative, blank, sign, ds, hblank, hsign, hne, hds⟩ := h
  have hsome : digitValues ds ≠ [] := by simpa [digitValues] using hne
  have hfront := blankLength_append blank _ hblank (not_blank_signed hsign ds hne hds rest)
  have hdrop : (blank ++ (sign ++ (ds ++ rest))).drop (blank.length + sign.length) = ds ++ rest := by
    rw [← List.append_assoc, ← List.length_append, List.drop_left]
  simp only [scan, List.append_assoc, hfront, List.drop_left, sign_append hsign ds hne hds rest,
    hdrop, digitRun_append ds rest hds hrest, if_neg hsome, length_digitValues, List.length_append,
    Nat.add_assoc]

theorem exists_blank (bs : Bytes) : ∃ blank rest, bs = blank ++ rest ∧ AllBlank blank ∧
    ∀ b ∈ rest.head?, isWhitespace b = false := by
  refine ⟨bs.takeWhile isWhitespace, bs.dropWhile isWhitespace,
    List.takeWhile_append_dropWhile.symm, fun _ hb => List.mem_takeWhile_imp hb, ?_⟩
  intro b hb
  have h := List.head?_dropWhile_not isWhitespace bs
  rw [Option.mem_def.mp hb] at h
  simpa using h

/-- Every text begins with whitespace, a sign and digits, each of them as long as it can be or absent,
and a scan succeeds if there are digits. -/
theorem exists_parts (bs : Bytes) : ∃ negative blank sign ds rest,
    bs = blank ++ (sign ++ (ds ++ rest)) ∧ AllBlank blank ∧ IsSign negative sign ∧ AllDigits ds ∧
      AtDigitsEnd rest ∧
      scan bs = if ds = [] then none
        else some ⟨⟨negative, digitValues ds⟩, blank.length + sign.length + ds.length⟩ := by
  obtain ⟨blank, signed, rfl, hblank, hsigned⟩ := exists_blank bs
  obtain ⟨text, past, hpast, hsign, hlength⟩ := exists_sign signed
  obtain ⟨ds, rest, rfl, hds, hrest⟩ := exists_digits past
  have hdigits : (blank ++ signed).drop (blank.length + text.length) = ds ++ rest := by
    rw [← List.drop_drop, List.drop_left, hpast, List.drop_left]
  refine ⟨_, blank, text, ds, rest, by rw [hpast], hblank, hsign, hds, hrest, ?_⟩
  simp only [scan, blankLength_append blank signed hblank hsigned, List.drop_left, ← hlength,
    hdigits, digitRun_append ds rest hds hrest, length_digitValues]
  simp [digitValues]

theorem exists_of_scan {bs : Bytes} {n : Numeral} {length : Nat} (h : scan bs = some ⟨n, length⟩) :
    ∃ text rest, bs = text ++ rest ∧ text.length = length ∧ IsNumeral n text ∧ AtDigitsEnd rest := by
  obtain ⟨negative, blank, sign, ds, rest, hbs, hblank, hsign, hds, hrest, hscan⟩ := exists_parts bs
  rw [hscan] at h
  split at h
  · cases h
  · rename_i hne
    cases h
    refine ⟨blank ++ (sign ++ ds), rest, by simp [hbs], by simp [Nat.add_assoc], ?_, hrest⟩
    exact .intro negative blank sign ds hblank hsign hne hds

theorem scan_eq_some_iff (bs : Bytes) (n : Numeral) (length : Nat) :
    scan bs = some ⟨n, length⟩ ↔
      ∃ text rest, bs = text ++ rest ∧ text.length = length ∧ IsNumeral n text ∧
        AtDigitsEnd rest := by
  constructor
  · exact exists_of_scan
  · rintro ⟨text, rest, rfl, rfl, hn, hrest⟩
    exact scan_append hn rest hrest

end Numeral

def isExponentSign (b : UInt8) : Bool := b == byte 'e' || b == byte 'E'

/-- The text of a literal that `rest` follows: a numeral, a point, digits or none, and an exponent
or none.  Without an exponent no sign of one may follow. -/
inductive IsLiteral (rest : Bytes) : FloatLiteral → Bytes → Prop where
  | plain (whole : Numeral) (text fraction : Bytes) :
      IsNumeral whole text → AllDigits fraction → AtDigitsEnd rest →
      (∀ b ∈ rest.head?, isExponentSign b = false) →
      IsLiteral rest ⟨whole, digitValues fraction, none⟩ (text ++ byte '.' :: fraction)
  | scaled (whole exponent : Numeral) (text fraction scale : Bytes) (b : UInt8) :
      IsNumeral whole text → AllDigits fraction → isExponentSign b = true →
      IsNumeral exponent scale → AtDigitsEnd rest →
      IsLiteral rest ⟨whole, digitValues fraction, some exponent⟩
        (text ++ byte '.' :: (fraction ++ b :: scale))

section Literals

theorem isExponentSign_iff (b : UInt8) : isExponentSign b = true ↔ b = byte 'e' ∨ b = byte 'E' := by
  simp [isExponentSign]

theorem not_isDigit_of_isExponentSign {b : UInt8} (h : isExponentSign b = true) :
    isDigit b = false := by
  rcases (isExponentSign_iff b).mp h with rfl | rfl <;> rfl

namespace FloatLiteral

theorem scanExponent_sign {b : UInt8} (h : isExponentSign b = true) (rest : Bytes) :
    scanExponent (b :: rest) =
      (Numeral.scan rest).map fun r => ⟨some r.value, 1 + r.length⟩ := by
  rw [scanExponent, if_pos ((isExponentSign_iff b).mp h)]

theorem scanExponent_other (rest : Bytes) (h : ∀ b ∈ rest.head?, isExponentSign b = false) :
    scanExponent rest = some ⟨none, 0⟩ := by
  cases rest with
  | nil => rfl
  | cons b rest =>
      rw [scanExponent, if_neg]
      rw [← isExponentSign_iff, h b rfl]
      decide

theorem scanFraction_other (bs : Bytes) (h : ∀ b ∈ bs.head?, b ≠ byte '.') :
    scanFraction bs = none := by
  cases bs with
  | nil => rfl
  | cons b bs => rw [scanFraction, if_neg (h b rfl)]

theorem scan_numeral {whole : Numeral} {text : Bytes} (hwhole : IsNumeral whole text) (past : Bytes)
    (hpast : AtDigitsEnd past) :
    scan (text ++ past) = (scanFraction past).bind fun fraction =>
      (scanExponent (past.drop (1 + fraction.length))).map fun e =>
        ⟨⟨whole, fraction, e.value⟩, text.length + 1 + fraction.length + e.length⟩ := by
  simp only [scan, Numeral.scan_append hwhole past hpast, Option.bind_eq_bind, Option.bind_some,
    List.drop_left]
  cases scanFraction past with
  | none => rfl
  | some fraction =>
      have hdrop : (text ++ past).drop (text.length + 1 + fraction.length) =
          past.drop (1 + fraction.length) := by
        rw [Nat.add_assoc, ← List.drop_drop, List.drop_left]
      simp only [Option.bind_some, hdrop]
      cases scanExponent (past.drop (1 + fraction.length)) <;> rfl

/-- After a numeral, a point and digits the exponent decides. -/
theorem scan_mantissa {whole : Numeral} {text fraction : Bytes} (hwhole : IsNumeral whole text)
    (hfraction : AllDigits fraction) (rest : Bytes) (hrest : AtDigitsEnd rest) :
    scan (text ++ byte '.' :: (fraction ++ rest)) =
      (scanExponent rest).map fun e => ⟨⟨whole, digitValues fraction, e.value⟩,
        text.length + 1 + fraction.length + e.length⟩ := by
  have hpoint : AtDigitsEnd (byte '.' :: (fraction ++ rest)) := .cons rfl
  have hpast : (byte '.' :: (fraction ++ rest)).drop (1 + fraction.length) = rest := by
    rw [Nat.add_comm, List.drop_succ_cons, List.drop_left]
  simp only [scan_numeral hwhole _ hpoint, scanFraction, if_true,
    digitRun_append fraction rest hfraction hrest, Option.bind_some, length_digitValues, hpast]

theorem scan_append {l : FloatLiteral} {rest text : Bytes} (h : IsLiteral rest l text) :
    scan (text ++ rest) = some ⟨l, text.length⟩ := by
  cases h with
  | plain whole text fraction hwhole hfraction hrest hsign =>
      rw [List.append_assoc, List.cons_append, scan_mantissa hwhole hfraction rest hrest,
        scanExponent_other rest hsign]
      simp only [Option.map_some, List.length_append, List.length_cons]
      congr 2
      omega
  | scaled whole exponent text fraction scale b hwhole hfraction hb hexponent hrest =>
      have hend : AtDigitsEnd (b :: (scale ++ rest)) := .cons (not_isDigit_of_isExponentSign hb)
      have happend : text ++ byte '.' :: (fraction ++ b :: scale) ++ rest =
          text ++ byte '.' :: (fraction ++ (b :: (scale ++ rest))) := by simp
      rw [happend, scan_mantissa hwhole hfraction _ hend, scanExponent_sign hb,
        Numeral.scan_append hexponent rest hrest]
      simp only [Option.map_some, List.length_append, List.length_cons]
      congr 2
      omega

theorem scanExponent_cases {rest : Bytes} {e : Option Numeral} {length : Nat}
    (h : scanExponent rest = some ⟨e, length⟩) :
    (e = none ∧ length = 0 ∧ ∀ b ∈ rest.head?, isExponentSign b = false) ∨
    ∃ b scale rest' exponent, rest = b :: (scale ++ rest') ∧ isExponentSign b = true ∧
      IsNumeral exponent scale ∧ AtDigitsEnd rest' ∧ e = some exponent ∧
      length = 1 + scale.length := by
  by_cases hsign : ∀ b ∈ rest.head?, isExponentSign b = false
  · rw [scanExponent_other rest hsign] at h
    cases h
    exact Or.inl ⟨rfl, rfl, hsign⟩
  · obtain ⟨b, past, rfl, hb⟩ : ∃ b past, rest = b :: past ∧ isExponentSign b = true := by
      cases rest with
      | nil => simp at hsign
      | cons b past => exact ⟨b, past, rfl, by simpa using hsign⟩
    rw [scanExponent_sign hb, Option.map_eq_some_iff] at h
    obtain ⟨r, hscale, hr⟩ := h
    obtain ⟨scale, rest', rfl, hlength, hexponent, hend⟩ := Numeral.exists_of_scan hscale
    cases hr
    exact Or.inr ⟨b, scale, rest', r.value, rfl, hb, hexponent, hend, rfl, by rw [hlength]⟩

theorem exists_of_scan {bs : Bytes} {l : FloatLiteral} {length : Nat}
    (h : scan bs = some ⟨l, length⟩) :
    ∃ text rest, bs = text ++ rest ∧ text.length = length ∧ IsLiteral rest l text := by
  cases hnumeral : Numeral.scan bs with
  | none => simp [scan, hnumeral] at h
  | some r =>
      obtain ⟨text, past, rfl, _, hwhole, hpast⟩ := Numeral.exists_of_scan hnumeral
      by_cases hpoint : ∀ b ∈ past.head?, b ≠ byte '.'
      · rw [scan_numeral hwhole past hpast, scanFraction_other past hpoint] at h
        cases h
      · obtain ⟨digits, rfl⟩ : ∃ digits, past = byte '.' :: digits := by
          cases past with
          | nil => simp at hpoint
          | cons b digits => exact ⟨digits, by simpa using hpoint⟩
        obtain ⟨fraction, rest, rfl, hfraction, hrest⟩ := exists_digits digits
        rw [scan_mantissa hwhole hfraction rest hrest, Option.map_eq_some_iff] at h
        obtain ⟨e, hexponent, he⟩ := h
        cases he
        rcases scanExponent_cases hexponent with
          ⟨hnone, hlength, hsign⟩ | ⟨b, scale, rest', exponent, rfl, hb, hscale, hend, hsome, hlength⟩
        · rw [hnone, hlength]
          refine ⟨text ++ byte '.' :: fraction, rest, by simp, ?_,
            .plain r.value text fraction hwhole hfraction hrest hsign⟩
          simp only [List.length_append, List.length_cons]
          omega
        · rw [hsome, hlength]
          refine ⟨text ++ byte '.' :: (fraction ++ b :: scale), rest', by simp, ?_,
            .scaled r.value exponent text fraction scale b hwhole hfraction hb hscale hend⟩
          simp only [List.length_append, List.length_cons]
          omega

theorem scan_eq_some_iff (bs : Bytes) (l : FloatLiteral) (length : Nat) :
    scan bs = some ⟨l, length⟩ ↔
      ∃ text rest, bs = text ++ rest ∧ text.length = length ∧ IsLiteral rest l text := by
  constructor
  · exact exists_of_scan
  · rintro ⟨text, rest, rfl, rfl, hl⟩
    exact scan_append hl

end FloatLiteral

end Literals

section Encoding

theorem AllBlank.isUtf8 {bs : Bytes} (h : AllBlank bs) : bs.IsUtf8 :=
  Bytes.isUtf8_of_forall (fun _ => ascii_of_isWhitespace) h

theorem AllDigits.isUtf8 {ds : Bytes} (h : AllDigits ds) : ds.IsUtf8 :=
  Bytes.isUtf8_of_forall (fun _ => ascii_of_isDigit) h

theorem IsNumeral.isUtf8 {n : Numeral} {text : Bytes} (h : IsNumeral n text) : text.IsUtf8 := by
  obtain ⟨_, blank, sign, digits, hblank, hsign, _, hdigits⟩ := h
  have hsign : sign.IsUtf8 := by
    apply Bytes.isUtf8_of_ascii
    cases hsign <;> rfl
  exact hblank.isUtf8.append (hsign.append hdigits.isUtf8)

theorem IsLiteral.isUtf8 {l : FloatLiteral} {rest text : Bytes} (h : IsLiteral rest l text) :
    text.IsUtf8 := by
  have hpoint : Bytes.IsUtf8 [byte '.'] := Bytes.isUtf8_of_ascii _ rfl
  cases h with
  | plain _ _ fraction hwhole hfraction =>
      exact hwhole.isUtf8.append (hpoint.append hfraction.isUtf8)
  | scaled _ _ _ fraction scale b hwhole hfraction hb hscale =>
      have hsign : Bytes.IsUtf8 [b] := by
        apply Bytes.isUtf8_of_ascii
        rcases (isExponentSign_iff b).mp hb with rfl | rfl <;> rfl
      exact hwhole.isUtf8.append
        (hpoint.append (hfraction.isUtf8.append (hsign.append hscale.isUtf8)))

end Encoding

end SExpression
