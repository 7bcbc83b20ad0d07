import SExpression.Number.FloatText
import SExpression.Proofs.NumeralGrammar
import SExpression.Proofs.OnePass

/-! # Which bare tokens are numbers

A literal without its whitespace is a text that the conversion of whole texts accepts, and with the
value that the scan has found (`ofText?_literal`), so no literal is refused.  Under the leading
policy a token is a number if a literal or a numeral begins it, under the whole policy if it is one
(`numbers_by_grammar`). -/
set_option autoImplicit false
namespace SExpression

/-- A text without its whitespace. -/
def solid (text : Bytes) : Bytes := text.filter fun b => !isWhitespace b

section Whitespace

theorem solid_append (text more : Bytes) : solid (text ++ more) = solid text ++ solid more :=
  List.filter_append ..

theorem solid_cons {b : UInt8} (h : isWhitespace b = false) (text : Bytes) :
    solid (b :: text) = b :: solid text := by
  simp [solid, h]

theorem solid_blank {bs : Bytes} (h : AllBlank bs) : solid bs = [] := by
  rw [solid, List.filter_eq_nil_iff]
  intro b hb
  simp [h b hb]

theorem solid_digits {ds : Bytes} (h : AllDigits ds) : solid ds = ds := by
  rw [solid, List.filter_eq_self]
  intro b hb
  simp [isWhitespace_of_isDigit (h b hb)]

theorem solid_sign {negative : Bool} {text : Bytes} (h : IsSign negative text) :
    solid text = text := by
  cases h <;> rfl

theorem solid_numeral {n : Numeral} {text : Bytes} (h : IsNumeral n text) :
    ∃ sign ds, solid text = sign ++ ds ∧ IsSign n.negative sign ∧ ds ≠ [] ∧ AllDigits ds ∧
      n.digits = digitValues ds := by
  obtain ⟨negative, blank, sign, ds, hblank, hsign, hne, hds⟩ := h
  refine ⟨sign, ds, ?_, hsign, hne, hds, rfl⟩
  rw [solid_append, solid_append, solid_blank hblank, solid_sign hsign, solid_digits hds,
    List.nil_append]

end Whitespace

namespace Binary64

section Conversion

theorem lowercase_digit {b : UInt8} (h : isDigit b = true) : lowercase b = b := by
  have hletter : ¬ byte 'A' ≤ b := by
    simp only [isDigit, Bool.and_eq_true, decide_eq_true_eq, UInt8.le_iff_toNat_le] at h ⊢
    have hends : (byte '9').toNat = 57 ∧ (byte 'A').toNat = 65 := ⟨rfl, rfl⟩
    omega
  simp [lowercase, hletter]

/-- No word begins with a digit. -/
theorem ofWord?_digits (negative : Bool) {ds : Bytes} (hne : ds ≠ []) (hds : AllDigits ds)
    (rest : Bytes) : ofWord? negative (ds ++ rest) = none := by
  cases ds with
  | nil => exact absurd rfl hne
  | cons b ds =>
      have hb := hds b (by simp)
      have hinf : Bytes.ofString "inf" = [byte 'i', byte 'n', byte 'f'] := rfl
      have hinfinity : Bytes.ofString "infinity" =
          [byte 'i', byte 'n', byte 'f', byte 'i', byte 'n', byte 'i', byte 't', byte 'y'] := rfl
      have hnan : Bytes.ofString "nan" = [byte 'n', byte 'a', byte 'n'] := rfl
      have hi : b ≠ byte 'i' := ne_of_isDigit hb rfl
      have hn : b ≠ byte 'n' := ne_of_isDigit hb rfl
      simp [ofWord?, lowercase_digit hb, hinf, hinfinity, hnan, hi, hn]

theorem ofText?_digits {negative : Bool} {sign ds fraction : Bytes} (hsign : IsSign negative sign)
    (hne : ds ≠ []) (hds : AllDigits ds) (hfraction : AllDigits fraction) (tail : Bytes)
    (htail : AtDigitsEnd tail) :
    ofText? (sign ++ (ds ++ byte '.' :: (fraction ++ tail))) =
      (ending? tail).map fun e =>
        FloatLiteral.value ⟨⟨negative, digitValues ds⟩, digitValues fraction, e⟩ := by
  have hpoint : AtDigitsEnd (byte '.' :: (fraction ++ tail)) := .cons rfl
  have hsome : digitValues ds ≠ [] := by simpa [digitValues] using hne
  have hpast : (byte '.' :: (fraction ++ tail)).drop (1 + fraction.length) = tail := by
    rw [Nat.add_comm, List.drop_succ_cons, List.drop_left]
  simp only [ofText?, Numeral.sign_append hsign ds hne hds, List.drop_left,
    ofWord?_digits negative hne hds, Option.none_or, ofDigits?, digitRun_append ds _ hds hpoint,
    length_digitValues, FloatLiteral.scanFraction, if_true, digitRun_append fraction tail hfraction htail,
    hsome, false_and, if_false, hpast]

theorem exponent?_numeral {negative : Bool} {sign ds : Bytes} (hsign : IsSign negative sign)
    (hne : ds ≠ []) (hds : AllDigits ds) :
    exponent? (sign ++ ds) = some ⟨negative, digitValues ds⟩ := by
  have hsome : digitValues ds ≠ [] := by simpa [digitValues] using hne
  have hfront := Numeral.sign_append hsign ds hne hds []
  have hrun := digitRun_append ds [] hds (by simp [AtDigitsEnd])
  rw [List.append_nil] at hfront hrun
  simp [exponent?, hfront, hrun, hsome, length_digitValues]

/-- A literal without its whitespace is converted to the value that the scan has found. -/
theorem ofText?_literal {l : FloatLiteral} {rest text : Bytes} (h : IsLiteral rest l text) :
    ofText? (solid text) = some l.value := by
  have hpoint : isWhitespace (byte '.') = false := rfl
  cases h with
  | plain whole text fraction hwhole hfraction hrest hother =>
      obtain ⟨sign, ds, htext, hsign, hne, hds, hvalues⟩ := solid_numeral hwhole
      have hconverted := ofText?_digits hsign hne hds hfraction [] (by simp [AtDigitsEnd])
      rw [List.append_nil] at hconverted
      rw [solid_append, htext, solid_cons hpoint, solid_digits hfraction, List.append_assoc,
        hconverted, ← hvalues]
      rfl
  | scaled whole exponent text fraction scale b hwhole hfraction hb hscale hrest =>
      obtain ⟨sign, ds, htext, hsign, hne, hds, hvalues⟩ := solid_numeral hwhole
      obtain ⟨sign', ds', hscaled, hsign', hne', hds', hvalues'⟩ := solid_numeral hscale
      have hletter : isWhitespace b = false := by
        rcases (isExponentSign_iff b).mp hb with rfl | rfl <;> rfl
      have hend : AtDigitsEnd (b :: (sign' ++ ds')) := .cons (not_isDigit_of_isExponentSign hb)
      have hending : ending? (b :: (sign' ++ ds')) = some (some exponent) := by
        rw [ending?, if_pos ((isExponentSign_iff b).mp hb), exponent?_numeral hsign' hne' hds',
          ← hvalues']
        rfl
      rw [solid_append, htext, solid_cons hpoint, solid_append, solid_digits hfraction,
        solid_cons hletter, hscaled, List.append_assoc,
        ofText?_digits hsign hne hds hfraction _ hend, hending, ← hvalues]
      rfl

end Conversion

end Binary64

section Scans

/-- A literal stays one when nothing follows it. -/
theorem IsLiteral.alone {l : FloatLiteral} {rest text : Bytes} (h : IsLiteral rest l text) :
    IsLiteral [] l text := by
  have hend : AtDigitsEnd [] := by simp [AtDigitsEnd]
  cases h with
  | plain whole text fraction hwhole hfraction _ _ =>
      exact .plain whole text fraction hwhole hfraction hend (by simp)
  | scaled whole exponent text fraction scale b hwhole hfraction hb hscale _ =>
      exact .scaled whole exponent text fraction scale b hwhole hfraction hb hscale hend

theorem scanFloat_append {l : FloatLiteral} {rest text : Bytes} (h : IsLiteral rest l text) :
    scanFloat (text ++ rest) = some ⟨l.value, text.length⟩ := by
  rw [scanFloat, FloatLiteral.scan_append h]
  rfl

theorem exists_of_scanFloat {s : Bytes} {r : Reading Binary64} (h : scanFloat s = some r) :
    ∃ text rest l, s = text ++ rest ∧ text.length = r.length ∧ IsLiteral rest l text ∧
      l.value = r.value := by
  rw [scanFloat, Option.map_eq_some_iff] at h
  obtain ⟨⟨l, n⟩, hscan, rfl⟩ := h
  obtain ⟨text, rest, hs, hlength, hl⟩ := FloatLiteral.exists_of_scan hscan
  exact ⟨text, rest, l, hs, hlength, hl, rfl⟩

theorem scanFloat_eq_none_iff (s : Bytes) :
    scanFloat s = none ↔ ∀ text rest l, s = text ++ rest → ¬ IsLiteral rest l text := by
  constructor
  · rintro hnone text rest l rfl hl
    rw [scanFloat_append hl] at hnone
    cases hnone
  · intro h
    rw [Option.eq_none_iff_forall_ne_some]
    intro r hr
    obtain ⟨text, rest, l, hs, _, hl, _⟩ := exists_of_scanFloat hr
    exact h text rest l hs hl

/-- The sign of an exponent without a numeral after it leaves no literal. -/
theorem scanFloat_unscaled {whole : Numeral} {text fraction rest : Bytes} {b : UInt8}
    (hwhole : IsNumeral whole text) (hfraction : AllDigits fraction) (hb : isExponentSign b = true)
    (hrest : ∀ exponent scale past, rest = scale ++ past → ¬ IsNumeral exponent scale) :
    scanFloat (text ++ byte '.' :: (fraction ++ b :: rest)) = none := by
  have hend : AtDigitsEnd (b :: rest) := .cons (not_isDigit_of_isExponentSign hb)
  have hnone : Numeral.scan rest = none := by
    rw [Option.eq_none_iff_forall_ne_some]
    intro r hr
    obtain ⟨scale, past, hpast, _, hscale, _⟩ := Numeral.exists_of_scan hr
    exact hrest r.value scale past hpast hscale
  rw [scanFloat, FloatLiteral.scan_mantissa hwhole hfraction _ hend,
    FloatLiteral.scanExponent_sign hb, hnone]
  rfl

theorem scanFloat_numeral {n : Numeral} {text : Bytes} (h : IsNumeral n text) :
    scanFloat text = none := by
  have hscan := FloatLiteral.scan_numeral h [] (by simp [AtDigitsEnd])
  rw [List.append_nil] at hscan
  rw [scanFloat, hscan]
  rfl

variable (t : IntegerType)

theorem scanSigned_append {n : Numeral} {text rest : Bytes} (h : IsNumeral n text)
    (hrest : AtDigitsEnd rest) :
    t.scanSigned (text ++ rest) = some ⟨t.ofWord (n.toWord t.width), text.length⟩ := by
  rw [IntegerType.scanSigned, Numeral.scan_append h rest hrest]
  rfl

theorem exists_of_scanSigned {s : Bytes} {r : Reading Int} (h : t.scanSigned s = some r) :
    ∃ text rest n, s = text ++ rest ∧ text.length = r.length ∧ IsNumeral n text ∧
      AtDigitsEnd rest ∧ t.ofWord (n.toWord t.width) = r.value := by
  rw [IntegerType.scanSigned, Option.map_eq_some_iff] at h
  obtain ⟨⟨n, length⟩, hscan, rfl⟩ := h
  obtain ⟨text, rest, hs, hlength, hn, hrest⟩ := Numeral.exists_of_scan hscan
  exact ⟨text, rest, n, hs, hlength, hn, hrest, rfl⟩

end Scans

section Policies
variable (policy : NumericPolicy) (text : Bytes)

/-- What the policy lets count as a float, and as an integer. -/
def acceptedFloat : Option (Reading Binary64) :=
  (scanFloat text).filter (policy.accepts text.length)

def acceptedInteger : Option (Reading Int) :=
  (IntegerType.int32.scanSigned text).filter (policy.accepts text.length)

theorem ofBare_eq_float_iff (v : Binary64) :
    Token.ofBare policy text = .float v ↔ ∃ n, acceptedFloat policy text = some ⟨v, n⟩ := by
  unfold Token.ofBare acceptedFloat
  cases (scanFloat text).filter (policy.accepts text.length) with
  | some r =>
      obtain ⟨value, length⟩ := r
      simp
  | none =>
      cases (IntegerType.int32.scanSigned text).filter (policy.accepts text.length) <;> simp

theorem ofBare_eq_integer_iff (i : Int) :
    Token.ofBare policy text = .integer i ↔
      acceptedFloat policy text = none ∧ ∃ n, acceptedInteger policy text = some ⟨i, n⟩ := by
  unfold Token.ofBare acceptedFloat acceptedInteger
  cases (scanFloat text).filter (policy.accepts text.length) with
  | some r => simp
  | none =>
      cases (IntegerType.int32.scanSigned text).filter (policy.accepts text.length) with
      | some r =>
          obtain ⟨value, length⟩ := r
          simp
      | none => simp

theorem ofBare_eq_atom_iff :
    Token.ofBare policy text = .atom text ↔
      acceptedFloat policy text = none ∧ acceptedInteger policy text = none := by
  unfold Token.ofBare acceptedFloat acceptedInteger
  cases (scanFloat text).filter (policy.accepts text.length) with
  | some r => simp
  | none =>
      cases (IntegerType.int32.scanSigned text).filter (policy.accepts text.length) <;> simp

theorem acceptedFloat_leading : acceptedFloat .leading text = scanFloat text := by
  rw [acceptedFloat]
  cases scanFloat text <;> rfl

theorem acceptedInteger_leading :
    acceptedInteger .leading text = IntegerType.int32.scanSigned text := by
  rw [acceptedInteger]
  cases IntegerType.int32.scanSigned text <;> rfl

theorem eq_of_whole {text front rest : Bytes} (h : text = front ++ rest)
    (hlength : front.length = text.length) : front = text ∧ rest = [] := by
  have hnil : rest = [] := by
    rw [h, List.length_append] at hlength
    exact List.length_eq_zero_iff.mp (by omega)
  exact ⟨by rw [h, hnil, List.append_nil], hnil⟩

theorem acceptedFloat_whole_iff (r : Reading Binary64) :
    acceptedFloat .whole text = some r ↔
      ∃ l, IsLiteral [] l text ∧ r = ⟨l.value, text.length⟩ := by
  rw [acceptedFloat, Option.filter_eq_some_iff]
  constructor
  · rintro ⟨hscan, haccepted⟩
    obtain ⟨literal, rest, l, htext, hlength, hl, hvalue⟩ := exists_of_scanFloat hscan
    have hwhole : r.length = text.length := eq_of_beq haccepted
    obtain ⟨rfl, rfl⟩ := eq_of_whole htext (hlength.trans hwhole)
    exact ⟨l, hl, by rw [hvalue, ← hwhole]⟩
  · rintro ⟨l, hl, rfl⟩
    have hscan := scanFloat_append hl
    rw [List.append_nil] at hscan
    exact ⟨hscan, BEq.rfl⟩

theorem acceptedInteger_whole_iff (r : Reading Int) :
    acceptedInteger .whole text = some r ↔
      ∃ n, IsNumeral n text ∧
        r = ⟨IntegerType.int32.ofWord (n.toWord IntegerType.int32.width), text.length⟩ := by
  rw [acceptedInteger, Option.filter_eq_some_iff]
  constructor
  · rintro ⟨hscan, haccepted⟩
    obtain ⟨numeral, rest, n, htext, hlength, hn, _, hvalue⟩ := exists_of_scanSigned _ hscan
    have hwhole : r.length = text.length := eq_of_beq haccepted
    obtain ⟨rfl, rfl⟩ := eq_of_whole htext (hlength.trans hwhole)
    exact ⟨n, hn, by rw [hvalue, ← hwhole]⟩
  · rintro ⟨n, hn, rfl⟩
    have hend : AtDigitsEnd [] := by simp [AtDigitsEnd]
    have hscan := scanSigned_append .int32 hn hend
    rw [List.append_nil] at hscan
    exact ⟨hscan, BEq.rfl⟩

theorem ofBare_whole_float_iff (v : Binary64) :
    Token.ofBare .whole text = .float v ↔ ∃ l, IsLiteral [] l text ∧ l.value = v := by
  rw [ofBare_eq_float_iff]
  constructor
  · rintro ⟨length, hfloat⟩
    obtain ⟨l, hl, hr⟩ := (acceptedFloat_whole_iff text _).mp hfloat
    cases hr
    exact ⟨l, hl, rfl⟩
  · rintro ⟨l, hl, rfl⟩
    exact ⟨text.length, (acceptedFloat_whole_iff text _).mpr ⟨l, hl, rfl⟩⟩

/-- No text is both a numeral and a literal. -/
theorem ofBare_whole_integer_iff (i : Int) :
    Token.ofBare .whole text = .integer i ↔
      ∃ n, IsNumeral n text ∧ i = IntegerType.int32.ofWord (n.toWord 32) := by
  rw [ofBare_eq_integer_iff]
  constructor
  · rintro ⟨_, length, hinteger⟩
    obtain ⟨n, hn, hr⟩ := (acceptedInteger_whole_iff text _).mp hinteger
    cases hr
    exact ⟨n, hn, rfl⟩
  · rintro ⟨n, hn, rfl⟩
    refine ⟨?_, text.length, (acceptedInteger_whole_iff text _).mpr ⟨n, hn, rfl⟩⟩
    rw [acceptedFloat, scanFloat_numeral hn]
    rfl

theorem ofBare_whole_atom_iff :
    Token.ofBare .whole text = .atom text ↔
      (∀ l, ¬ IsLiteral [] l text) ∧ ∀ n, ¬ IsNumeral n text := by
  simp only [ofBare_eq_atom_iff, Option.eq_none_iff_forall_ne_some, ne_eq, acceptedFloat_whole_iff,
    acceptedInteger_whole_iff]
  constructor
  · rintro ⟨hfloat, hinteger⟩
    exact ⟨fun l hl => hfloat _ ⟨l, hl, rfl⟩, fun n hn => hinteger _ ⟨n, hn, rfl⟩⟩
  · rintro ⟨hliteral, hnumeral⟩
    exact ⟨fun _ ⟨l, hl, _⟩ => hliteral l hl, fun _ ⟨n, hn, _⟩ => hnumeral n hn⟩

end Policies

theorem Cursor.text_eq_bytes (c : Cursor) (hstart : c.buffer.isBoundaryAt c.start = true)
    (hstop : c.buffer.isBoundaryAt c.stop = true) : c.text = c.bytes := by
  rw [text, Bytes.slice, hstart, hstop]
  rfl

/-- A float is read from a text exactly where a literal begins it, as far as the literal reaches, and
its value is that of the literal without its whitespace, which the conversion of whole texts never
refuses; an exponent sign without a numeral leaves nothing.  The tokens of a range that cuts no
character follow from that: under the whole policy a literal or a numeral has to be the whole range,
under the leading policy it only has to begin it. -/
theorem numbers_by_grammar (s : Bytes) :
    (∀ v n, scanFloat s = some ⟨v, n⟩ ↔ ∃ text rest l, s = text ++ rest ∧ text.length = n ∧
      IsLiteral rest l text ∧ Binary64.ofText? (solid text) = some v) ∧
    (∀ text rest l, s = text ++ rest → IsLiteral rest l text → ∃ v,
      Binary64.ofText? (solid text) = some v ∧ scanFloat s = some ⟨v, text.length⟩) ∧
    (scanFloat s = none ↔ ∀ text rest l, s = text ++ rest → ¬ IsLiteral rest l text) ∧
    (∀ whole text fraction b rest, s = text ++ byte '.' :: (fraction ++ b :: rest) →
      IsNumeral whole text → AllDigits fraction → isExponentSign b = true →
      (∀ exponent scale past, rest = scale ++ past → ¬ IsNumeral exponent scale) →
      scanFloat s = none) ∧
    (∀ v n, scanFloat s = some ⟨v, n⟩ → scanFloat (s.take n) = some ⟨v, n⟩) ∧
    ∀ c : Cursor, c.buffer.isBoundaryAt c.start = true → c.buffer.isBoundaryAt c.stop = true →
      (∀ v, c.bareToken .whole = .float v ↔
        ∃ l, IsLiteral [] l c.bytes ∧ Binary64.ofText? (solid c.bytes) = some v) ∧
      (∀ i, c.bareToken .whole = .integer i ↔
        ∃ n, IsNumeral n c.bytes ∧ i = IntegerType.int32.ofWord (n.toWord 32)) ∧
      (c.bareToken .whole = .atom c.bytes ↔
        (∀ l, ¬ IsLiteral [] l c.bytes) ∧ ∀ n, ¬ IsNumeral n c.bytes) ∧
      (∀ v, c.bareToken .leading = .float v ↔ ∃ n, scanFloat c.bytes = some ⟨v, n⟩) ∧
      (∀ i, c.bareToken .leading = .integer i ↔
        scanFloat c.bytes = none ∧ ∃ n, IntegerType.int32.scanSigned c.bytes = some ⟨i, n⟩) ∧
      (c.bareToken .leading = .atom c.bytes ↔
        scanFloat c.bytes = none ∧ IntegerType.int32.scanSigned c.bytes = none) := by
  refine ⟨?_, ?_, scanFloat_eq_none_iff s, ?_, ?_, ?_⟩
  · intro v n
    constructor
    · intro h
      obtain ⟨text, rest, l, hs, hlength, hl, hvalue⟩ := exists_of_scanFloat h
      exact ⟨text, rest, l, hs, hlength, hl, by rw [Binary64.ofText?_literal hl, hvalue]⟩
    · rintro ⟨text, rest, l, rfl, rfl, hl, hv⟩
      rw [Binary64.ofText?_literal hl, Option.some.injEq] at hv
      rw [scanFloat_append hl, hv]
  · rintro text rest l rfl hl
    exact ⟨l.value, Binary64.ofText?_literal hl, scanFloat_append hl⟩
  · rintro whole text fraction b rest rfl hwhole hfraction hb hrest
    exact scanFloat_unscaled hwhole hfraction hb hrest
  · intro v n h
    obtain ⟨text, rest, l, rfl, hlength, hl, hvalue⟩ := exists_of_scanFloat h
    have halone := scanFloat_append hl.alone
    rw [List.append_nil] at halone
    simp only at hlength hvalue
    rw [← hlength, List.take_left, halone, hvalue]
  · intro c hstart hstop
    have htoken : ∀ policy, c.bareToken policy = Token.ofBare policy c.bytes := fun policy =>
      c.bareToken_eq policy (c.text_eq_bytes hstart hstop)
    simp only [htoken]
    refine ⟨?_, ofBare_whole_integer_iff c.bytes, ofBare_whole_atom_iff c.bytes, ?_, ?_, ?_⟩
    · intro v
      rw [ofBare_whole_float_iff]
      constructor
      · rintro ⟨l, hl, rfl⟩
        exact ⟨l, hl, Binary64.ofText?_literal hl⟩
      · rintro ⟨l, hl, hv⟩
        rw [Binary64.ofText?_literal hl, Option.some.injEq] at hv
        exact ⟨l, hl, hv⟩
    · intro v
      rw [ofBare_eq_float_iff, acceptedFloat_leading]
    · intro i
      rw [ofBare_eq_integer_iff, acceptedFloat_leading, acceptedInteger_leading]
    · rw [ofBare_eq_atom_iff, acceptedFloat_leading, acceptedInteger_leading]

end SExpression
