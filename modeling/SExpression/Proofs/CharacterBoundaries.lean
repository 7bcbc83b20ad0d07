import Mathlib.Data.List.Chain
import SExpression.Text.Utf8

/-! # Boundaries between characters

The bytes of a character beyond ASCII are beyond ASCII themselves, and its first byte continues
nothing.  In a UTF-8 text an ASCII byte is therefore a character, with a boundary before it
(`isBoundaryAt_of_ascii`) and after it (`isBoundaryAt_succ`).  A text that is cut where no byte
continues a character falls into UTF-8 texts (`IsUtf8.split`). -/
set_option autoImplicit false
namespace SExpression

section Ascii

theorem ascii_of_isBoundary {b : UInt8} (h : isBoundary b = true) : b < 0x80 := by
  simp only [isBoundary, isWhitespace, Bool.or_eq_true, beq_iff_eq] at h
  rcases h with (((rfl | rfl) | rfl) | rfl) | ((rfl | rfl) | rfl) | rfl <;> decide

theorem ascii_of_isWhitespace {b : UInt8} (h : isWhitespace b = true) : b < 0x80 :=
  ascii_of_isBoundary (by simp [isBoundary, h])

theorem ascii_of_isDigit {b : UInt8} (h : isDigit b = true) : b < 0x80 := by
  simp only [isDigit, Bool.and_eq_true, decide_eq_true_eq] at h
  exact UInt8.lt_of_le_of_lt h.2 (by decide)

theorem ascii_of_isAlphanumeric {b : UInt8} (h : isAlphanumeric b = true) : b < 0x80 := by
  simp only [isAlphanumeric, isLetter, Bool.or_eq_true, Bool.and_eq_true, decide_eq_true_eq] at h
  rcases h with (h | h) | h
  · exact UInt8.lt_of_le_of_lt h.2 (by decide)
  · exact UInt8.lt_of_le_of_lt h.2 (by decide)
  · exact ascii_of_isDigit h

end Ascii

section Encoding

/-- No byte continues a character that an ASCII byte has closed, or that began before the text. -/
def IsRegular (bs : Bytes) : Prop :=
  bs.IsChain (fun a b => a < 0x80 → continues b = false) ∧ ∀ b ∈ bs.head?, continues b = false

theorem continues_of_ascii {b : UInt8} (h : b < 0x80) : continues b = false := by
  have hlow : ¬ 0x80 ≤ b := UInt8.not_le.mpr h
  simp [continues, hlow]

theorem continues_ofNat (n : Nat) (hn : n < 256) :
    continues (UInt8.ofNat n) = decide (0x80 ≤ n ∧ n < 0xC0) := by
  have hvalue : (UInt8.ofNat n).toNat = n := by
    rw [UInt8.toNat_ofNat']
    omega
  have hends : (0x80 : UInt8).toNat = 0x80 ∧ (0xC0 : UInt8).toNat = 0xC0 := ⟨rfl, rfl⟩
  rw [continues, Bool.decide_and]
  simp only [UInt8.le_iff_toNat_le, UInt8.lt_iff_toNat_lt, hvalue, hends]

theorem ascii_ofNat (n : Nat) (hn : n < 256) : UInt8.ofNat n < 0x80 ↔ n < 0x80 := by
  have hvalue : (UInt8.ofNat n).toNat = n := by
    rw [UInt8.toNat_ofNat']
    omega
  have hend : (0x80 : UInt8).toNat = 0x80 := rfl
  rw [UInt8.lt_iff_toNat_lt, hvalue, hend]

theorem isRegular_beyond_ascii (b : UInt8) (bs : Bytes) (hfirst : continues b = false)
    (hbeyond : ¬ b < 0x80) (hall : ∀ x ∈ bs, ¬ x < 0x80) : IsRegular (b :: bs) := by
  refine ⟨?_, by simpa using hfirst⟩
  clear hfirst
  induction bs generalizing b with
  | nil => exact .singleton b
  | cons x bs ih =>
      have hx : ¬ x < 0x80 := hall x (by simp)
      have hbs := ih x hx fun y hy => hall y (by simp [hy])
      exact hbs.cons fun y _ hascii => absurd hascii hbeyond

theorem isRegular_encodeChar (c : Char) : IsRegular (String.utf8EncodeChar c) := by
  have hlead : ∀ n m k, m + k < 256 → 0xC0 ≤ k →
      continues (UInt8.ofNat (n % (m + 1) + k)) = false ∧ ¬ UInt8.ofNat (n % (m + 1) + k) < 0x80 := by
    intro n m k hsum hk
    have hn : n % (m + 1) < m + 1 := Nat.mod_lt _ (by omega)
    rw [continues_ofNat _ (by omega), ascii_ofNat _ (by omega)]
    simp only [decide_eq_false_iff_not]
    omega
  have htail : ∀ n, ¬ UInt8.ofNat (n % 0x40 + 0x80) < 0x80 := by
    intro n
    rw [ascii_ofNat _ (by omega)]
    omega
  unfold String.utf8EncodeChar
  simp only
  split
  · rename_i hascii
    refine ⟨.singleton _, ?_⟩
    intro b hb
    obtain rfl : UInt8.ofNat c.val.toNat = b := by simpa using hb
    rw [continues_ofNat _ (by omega)]
    simp only [decide_eq_false_iff_not]
    omega
  split
  · obtain ⟨hfirst, hbeyond⟩ := hlead (c.val.toNat / 64) 0x1f 0xc0 (by decide) (by decide)
    apply isRegular_beyond_ascii _ _ hfirst hbeyond
    simp only [List.forall_mem_cons, List.not_mem_nil, false_imp_iff, implies_true, and_true]
    exact htail _
  split
  · obtain ⟨hfirst, hbeyond⟩ := hlead (c.val.toNat / 4096) 0x0f 0xe0 (by decide) (by decide)
    apply isRegular_beyond_ascii _ _ hfirst hbeyond
    simp only [List.forall_mem_cons, List.not_mem_nil, false_imp_iff, implies_true, and_true]
    exact ⟨htail _, htail _⟩
  · obtain ⟨hfirst, hbeyond⟩ := hlead (c.val.toNat / 262144) 0x07 0xf0 (by decide) (by decide)
    apply isRegular_beyond_ascii _ _ hfirst hbeyond
    simp only [List.forall_mem_cons, List.not_mem_nil, false_imp_iff, implies_true, and_true]
    exact ⟨htail _, htail _, htail _⟩

theorem continues_of_mem_tail (c : Char) :
    ∀ b ∈ (String.utf8EncodeChar c).tail, continues b = true := by
  have htail : ∀ n, continues (UInt8.ofNat (n % 0x40 + 0x80)) = true := by
    intro n
    rw [continues_ofNat _ (by omega), decide_eq_true_eq]
    omega
  intro b hb
  unfold String.utf8EncodeChar at hb
  simp only at hb
  split at hb
  · simp at hb
  split at hb
  · obtain rfl : b = _ := List.mem_singleton.mp hb
    exact htail _
  split at hb
  · rcases List.mem_pair.mp hb with rfl | rfl <;> exact htail _
  · simp only [List.tail_cons, List.mem_cons, List.not_mem_nil, or_false] at hb
    rcases hb with rfl | rfl | rfl <;> exact htail _

theorem IsRegular.append {bs cs : Bytes} (hbs : IsRegular bs) (hcs : IsRegular cs) :
    IsRegular (bs ++ cs) := by
  refine ⟨hbs.1.append hcs.1 fun x _ y hy _ => hcs.2 y hy, ?_⟩
  intro b hb
  cases bs with
  | nil => exact hcs.2 b hb
  | cons x bs => exact hbs.2 b hb

theorem isRegular_encode (cs : List Char) : IsRegular (cs.flatMap String.utf8EncodeChar) := by
  induction cs with
  | nil => exact ⟨.nil, by simp⟩
  | cons c cs ih =>
      rw [List.flatMap_cons]
      exact (isRegular_encodeChar c).append ih

theorem Bytes.isUtf8_iff (bs : Bytes) :
    bs.IsUtf8 ↔ ∃ cs : List Char, bs = cs.flatMap String.utf8EncodeChar := by
  constructor
  · rintro ⟨cs, hcs⟩
    refine ⟨cs, ?_⟩
    have := congrArg (fun a : ByteArray => a.data.toList) hcs
    simpa [Bytes.toByteArray, List.utf8Encode] using this
  · rintro ⟨cs, rfl⟩
    refine ⟨cs, ByteArray.ext ?_⟩
    simp [Bytes.toByteArray, List.utf8Encode]

theorem isRegular_of_isUtf8 {bs : Bytes} (h : bs.IsUtf8) : IsRegular bs := by
  obtain ⟨cs, rfl⟩ := bs.isUtf8_iff.mp h
  exact isRegular_encode cs

theorem Bytes.isUtf8_ofString (s : String) : (Bytes.ofString s).IsUtf8 := s.isValidUTF8

end Encoding

namespace Bytes

theorem isBoundaryAt_length (buffer : Bytes) : buffer.isBoundaryAt buffer.length = true := by
  simp [isBoundaryAt]

variable {buffer : Bytes}

theorem isBoundaryAt_getElem (i : Nat) (b : UInt8) (h : buffer[i]? = some b) :
    buffer.isBoundaryAt i = !continues b := by
  obtain ⟨hi, rfl⟩ := List.getElem?_eq_some_iff.mp h
  rw [isBoundaryAt, List.drop_eq_getElem_cons hi]

theorem isBoundaryAt_of_ascii (i : Nat) (b : UInt8) (h : buffer[i]? = some b) (hascii : b < 0x80) :
    buffer.isBoundaryAt i = true := by
  rw [isBoundaryAt_getElem i b h, continues_of_ascii hascii]
  rfl

theorem isBoundaryAt_succ (hutf8 : buffer.IsUtf8) (i : Nat) (b : UInt8) (h : buffer[i]? = some b)
    (hascii : b < 0x80) : buffer.isBoundaryAt (i + 1) = true := by
  obtain ⟨hi, hb⟩ := List.getElem?_eq_some_iff.mp h
  by_cases hnext : i + 1 < buffer.length
  · have hchain := (isRegular_of_isUtf8 hutf8).1.getElem i hnext
    rw [isBoundaryAt_getElem (i + 1) buffer[i + 1] (List.getElem?_eq_getElem hnext)]
    rw [hchain (by rw [hb]; exact hascii)]
    rfl
  · have hend : i + 1 = buffer.length := by omega
    rw [hend]
    exact isBoundaryAt_length buffer

section Cuts

theorem IsUtf8.append {before after : Bytes} (hbefore : before.IsUtf8) (hafter : after.IsUtf8) :
    IsUtf8 (before ++ after) := by
  rw [isUtf8_iff] at hbefore hafter ⊢
  obtain ⟨cs, rfl⟩ := hbefore
  obtain ⟨ds, rfl⟩ := hafter
  exact ⟨cs ++ ds, List.flatMap_append.symm⟩

/-- A text may be cut before any byte that continues nothing. -/
theorem IsUtf8.split {before after : Bytes} (h : IsUtf8 (before ++ after))
    (hcut : ∀ b ∈ after.head?, continues b = false) : before.IsUtf8 ∧ after.IsUtf8 := by
  simp only [isUtf8_iff] at h ⊢
  obtain ⟨cs, hcs⟩ := h
  induction cs generalizing before with
  | nil =>
      obtain ⟨rfl, rfl⟩ := List.append_eq_nil_iff.mp hcs
      exact ⟨⟨[], rfl⟩, ⟨[], rfl⟩⟩
  | cons c cs ih =>
      rw [List.flatMap_cons] at hcs
      rcases List.append_eq_append_iff.mp hcs with ⟨more, hfirst, hafter⟩ | ⟨more, rfl, hrest⟩
      · -- the cut lies in the first character, so it lies at one of its ends
        cases before with
        | nil => exact ⟨⟨[], rfl⟩, ⟨c :: cs, by rw [← List.nil_append after, hcs]; rfl⟩⟩
        | cons b before =>
            cases more with
            | nil =>
                rw [List.append_nil] at hfirst
                exact ⟨⟨[c], by rw [← hfirst]; simp⟩, ⟨cs, by simpa using hafter⟩⟩
            | cons x more =>
                have hmem : x ∈ (String.utf8EncodeChar c).tail := by simp [hfirst]
                have hx := hcut x (by simp [hafter])
                rw [continues_of_mem_tail c x hmem] at hx
                cases hx
      · obtain ⟨⟨ds, hds⟩, hend⟩ := ih hrest.symm
        exact ⟨⟨c :: ds, by rw [hds, List.flatMap_cons]⟩, hend⟩

theorem IsUtf8.tail_of_ascii {b : UInt8} {bs : Bytes} (h : IsUtf8 (b :: bs)) (hb : b < 0x80) :
    bs.IsUtf8 := by
  have hchain := (isRegular_of_isUtf8 h).1
  have hsplit : IsUtf8 ([b] ++ bs) := h
  exact (hsplit.split fun x hx => (List.isChain_cons.mp hchain).1 x hx hb).2

theorem isUtf8_of_ascii (bs : Bytes) (h : bs.all (fun b => b < 0x80) = true) : bs.IsUtf8 := by
  induction bs with
  | nil => exact ⟨[], rfl⟩
  | cons b bs ih =>
      rw [List.all_cons, Bool.and_eq_true, decide_eq_true_eq] at h
      have hb : b.toNat < 128 := UInt8.lt_iff_toNat_lt.mp h.1
      have hfirst : IsUtf8 [b] := by
        rw [isUtf8_iff]
        have hvalue : (Char.ofUInt8 b).val.toNat = b.toNat := UInt8.toNat_toUInt32 b
        have hle : b.toNat ≤ 127 := by omega
        refine ⟨[Char.ofUInt8 b], ?_⟩
        simp [String.utf8EncodeChar, hvalue, hle]
      exact hfirst.append (ih h.2)

theorem isUtf8_of_forall {p : UInt8 → Bool} (hp : ∀ b, p b = true → b < 0x80) {bs : Bytes}
    (h : ∀ b ∈ bs, p b = true) : bs.IsUtf8 := by
  apply isUtf8_of_ascii
  rw [List.all_eq_true]
  intro b hb
  exact decide_eq_true (hp b (h b hb))

theorem toByteArray_encodeChar (c : Char) (bs : Bytes) :
    toByteArray (String.utf8EncodeChar c ++ bs) = [c].utf8Encode ++ toByteArray bs := by
  apply ByteArray.ext
  simp [toByteArray, List.utf8Encode]

/-- What stands behind a whole text is a whole text. -/
theorem IsUtf8.behind {before after : Bytes} (h : IsUtf8 (before ++ after))
    (hbefore : before.IsUtf8) : after.IsUtf8 := by
  obtain ⟨cs, rfl⟩ := (isUtf8_iff _).mp hbefore
  clear hbefore
  induction cs with
  | nil => exact h
  | cons c cs ih =>
      apply ih
      rw [List.flatMap_cons, List.append_assoc, IsUtf8, toByteArray_encodeChar] at h
      exact ByteArray.isValidUTF8_utf8Encode_singleton_append_iff.mp h

theorem isBoundaryAt_iff (buffer : Bytes) (i : Nat) (hi : i ≤ buffer.length) :
    buffer.isBoundaryAt i = true ↔ ∀ b ∈ (buffer.drop i).head?, continues b = false := by
  unfold isBoundaryAt
  cases hdrop : buffer.drop i with
  | nil =>
      have hend : i = buffer.length := Nat.le_antisymm hi (List.drop_eq_nil_iff.mp hdrop)
      simp [hend]
  | cons b rest => simp

/-- A whole text that begins between characters ends between characters. -/
theorem isBoundaryAt_behind (hutf8 : buffer.IsUtf8) {i : Nat} (hi : buffer.isBoundaryAt i = true)
    (hle : i ≤ buffer.length) {text rest : Bytes} (hsplit : buffer.drop i = text ++ rest)
    (htext : text.IsUtf8) : buffer.isBoundaryAt (i + text.length) = true := by
  have hfront : IsUtf8 (buffer.take i ++ buffer.drop i) := by rwa [List.take_append_drop]
  have hbehind := (hfront.split ((isBoundaryAt_iff buffer i hle).mp hi)).2
  rw [hsplit] at hbehind
  have hrest : buffer.drop (i + text.length) = rest := by
    rw [← List.drop_drop, hsplit, List.drop_left]
  have hlength := congrArg List.length hsplit
  rw [List.length_drop, List.length_append] at hlength
  rw [isBoundaryAt_iff _ _ (by omega), hrest]
  exact (isRegular_of_isUtf8 (hbehind.behind htext)).2

/-- Parts of a text that join are the whole of it. -/
theorem slice_append {i j k : Nat} (hi : buffer.isBoundaryAt i = true)
    (hj : buffer.isBoundaryAt j = true) (hk : buffer.isBoundaryAt k = true) (hij : i ≤ j)
    (hjk : j ≤ k) : buffer.slice i k = buffer.slice i j ++ buffer.slice j k := by
  have hsum : k - i = (j - i) + (k - j) := by omega
  have hdrop : i + (j - i) = j := by omega
  simp only [slice, hi, hj, hk, Bool.and_self, if_true]
  rw [hsum, List.take_add, List.drop_drop, hdrop]

end Cuts

end Bytes

end SExpression
