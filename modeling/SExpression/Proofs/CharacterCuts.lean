import SExpression.Proofs.CursorLexemes
import SExpression.Proofs.WrappedIntegers

/-! # Cuts between characters

A scan may stop before a byte that begins a character, behind an ASCII byte, behind a text that is
whole, or at the end (`IsCut`): none of these places divides a character of a text that begins and ends
with whole ones.  The bytes that a scan takes end at such a place if it looks for ASCII bytes only or
does not tell the bytes beyond ASCII from each other (`IsUniform`). -/
set_option autoImplicit false
namespace SExpression

section Classes

/-- The class takes all bytes beyond ASCII or none of them. -/
def IsUniform (p : UInt8 → Bool) : Prop := ∀ a b, 0x80 ≤ a → 0x80 ≤ b → p a = p b

theorem isUniform_of_ascii {p : UInt8 → Bool} (h : ∀ b, p b = true → b < 0x80) : IsUniform p := by
  have hnone : ∀ b, 0x80 ≤ b → p b = false := by
    intro b hb
    apply Bool.eq_false_of_not_eq_true
    intro hp
    exact UInt8.not_lt.mpr hb (h b hp)
  intro a b ha hb
  rw [hnone a ha, hnone b hb]

theorem IsUniform.not {p : UInt8 → Bool} (h : IsUniform p) : IsUniform fun b => !p b := by
  intro a b ha hb
  exact congrArg _ (h a b ha hb)

theorem IsUniform.or {p q : UInt8 → Bool} (hp : IsUniform p) (hq : IsUniform q) :
    IsUniform fun b => p b || q b := by
  intro a b ha hb
  exact congrArg₂ _ (hp a b ha hb) (hq a b ha hb)

theorem IsUniform.and {p q : UInt8 → Bool} (hp : IsUniform p) (hq : IsUniform q) :
    IsUniform fun b => p b && q b := by
  intro a b ha hb
  exact congrArg₂ _ (hp a b ha hb) (hq a b ha hb)

theorem isUniform_isWhitespace : IsUniform isWhitespace :=
  isUniform_of_ascii fun _ => ascii_of_isWhitespace

theorem isUniform_beq {b : UInt8} (hb : b < 0x80) : IsUniform (· == b) := by
  apply isUniform_of_ascii
  intro x hx
  obtain rfl : x = b := by simpa using hx
  exact hb

theorem isUniform_contains {bytes : Bytes} (h : ∀ b ∈ bytes, b < 0x80) :
    IsUniform fun b => bytes.contains b := by
  apply isUniform_of_ascii
  intro b hb
  exact h b (by simpa using hb)

theorem isUniform_isAlphanumeric : IsUniform isAlphanumeric :=
  isUniform_of_ascii fun _ => ascii_of_isAlphanumeric

end Classes

theorem blockLength_last (bs : Bytes) :
    blockLength bs = bs.length ∨
      ∃ n, blockLength bs = n + 1 ∧ bs[n]? = some (byte '/') := by
  induction bs using blockLength.induct with
  | case1 => exact Or.inl rfl
  | case2 b => exact Or.inl rfl
  | case3 b b' rest hmark =>
      obtain ⟨rfl, rfl⟩ := hmark
      exact Or.inr ⟨1, rfl, rfl⟩
  | case4 b b' rest hmark ih =>
      rw [blockLength, if_neg hmark]
      rcases ih with hall | ⟨n, hn, hb⟩
      · exact Or.inl (by rw [hall, Nat.add_comm]; rfl)
      · exact Or.inr ⟨n + 1, by rw [hn, Nat.add_comm], by rwa [List.getElem?_cons_succ]⟩

theorem getElem?_lastIndex {p : UInt8 → Bool} {bs : Bytes} {i : Nat} (h : lastIndex? p bs = some i) :
    ∃ b, bs[i]? = some b ∧ p b = true := by
  induction bs generalizing i with
  | nil => cases h
  | cons b rest ih =>
      rw [lastIndex?] at h
      split at h
      · rename_i j hj
        cases h
        exact ih hj
      · split at h
        · rename_i hb
          cases h
          exact ⟨b, rfl, hb⟩
        · cases h

/-- A place in the bytes that divides no character, as long as they begin and end with whole ones. -/
inductive IsCut (bs : Bytes) : Nat → Prop where
  | before (n : Nat) (b : UInt8) : bs[n]? = some b → continues b = false → IsCut bs n
  | behind (n : Nat) (b : UInt8) : bs[n]? = some b → b < 0x80 → IsCut bs (n + 1)
  | whole (text rest : Bytes) : bs = text ++ rest → text.IsUtf8 → IsCut bs text.length
  | past (n : Nat) : bs.length ≤ n → IsCut bs n

namespace IsCut

theorem front (bs : Bytes) : IsCut bs 0 := .whole [] bs rfl ⟨[], rfl⟩

theorem takeWhile {p : UInt8 → Bool} (h : IsUniform p) (bs : Bytes) :
    IsCut bs (bs.takeWhile p).length := by
  obtain ⟨run, hrun, hsplit, hall, hhead⟩ := exists_takeWhile p bs
  rw [hrun]
  cases hafter : bs.drop run.length with
  | nil => exact .past _ (List.drop_eq_nil_iff.mp hafter)
  | cons b rest =>
      have hbyte : bs[run.length]? = some b := by
        rw [← List.head?_drop, hafter]
        rfl
      have hb : p b = false := hhead b (by rw [hafter]; rfl)
      by_cases hascii : b < 0x80
      · exact .before _ b hbyte (continues_of_ascii hascii)
      · -- the run stops before a byte beyond ASCII, so it takes none of them
        refine .whole run _ hsplit (Bytes.isUtf8_of_forall (fun x hx => ?_) hall)
        by_contra hbeyond
        rw [h x b (UInt8.not_lt.mp hbeyond) (UInt8.not_lt.mp hascii), hb] at hx
        cases hx

theorem lineLength (bs : Bytes) : IsCut bs (lineLength bs) := by
  rcases lineLength_last bs with hall | ⟨n, b, hn, hb, hend⟩
  · exact .past _ (Nat.le_of_eq hall.symm)
  · rw [hn]
    exact .behind n b hb (ascii_of_isWhitespace (isLineEnd_isWhitespace hend))

theorem commentLength (bs : Bytes) : IsCut bs (commentLength bs) := by
  unfold SExpression.commentLength
  split
  · rename_i b b' rest
    split
    · exact lineLength _
    split
    · rcases blockLength_last rest with hall | ⟨n, hn, hb⟩
      · exact .past _ (by simp only [List.length_cons]; omega)
      · rw [hn]
        exact .behind (2 + n) (byte '/') (by rw [Nat.add_comm]; exact hb) (by decide)
    · exact front _
  · exact front bs

section Quotes
variable {delimiter : UInt8} (hascii : delimiter < 0x80) (escapes : Bool) (bs : Bytes)
include hascii

theorem unquotedLength : IsCut bs (unquotedLength delimiter escapes false bs) := by
  by_cases hlt : SExpression.unquotedLength delimiter escapes false bs < bs.length
  · exact .before _ delimiter (getElem?_unquotedLength delimiter escapes false bs hlt)
      (continues_of_ascii hascii)
  · exact .past _ (Nat.not_lt.mp hlt)

theorem unquotedLength_succ : IsCut bs (SExpression.unquotedLength delimiter escapes false bs + 1) := by
  by_cases hlt : SExpression.unquotedLength delimiter escapes false bs < bs.length
  · exact .behind _ delimiter (getElem?_unquotedLength delimiter escapes false bs hlt) hascii
  · exact .past _ (by omega)

end Quotes

/-- The first byte of some kind is an ASCII byte, and so there is a cut behind it. -/
theorem seek_succ {b : UInt8} (hb : b < 0x80) (bs : Bytes) :
    IsCut bs ((bs.takeWhile fun x => !(x == b)).length + 1) := by
  obtain ⟨run, hrun, _, _, hhead⟩ := exists_takeWhile (fun x => !(x == b)) bs
  rw [hrun]
  cases hafter : bs.drop run.length with
  | nil => exact .past _ (Nat.le_succ_of_le (List.drop_eq_nil_iff.mp hafter))
  | cons x rest =>
      obtain rfl : x = b := by simpa using hhead x (by rw [hafter]; rfl)
      refine .behind _ x ?_ hb
      rw [← List.head?_drop, hafter]
      rfl

theorem trailing {p : UInt8 → Bool} (hp : ∀ b, p b = true → b < 0x80) (bs : Bytes) :
    IsCut bs (bs.length - (bs.reverse.takeWhile p).length) := by
  obtain ⟨run, hrun, hsplit, hall, _⟩ := exists_takeWhile p bs.reverse
  rw [hrun]
  generalize bs.reverse.drop run.length = front at hsplit
  obtain rfl : bs = front.reverse ++ run.reverse := by
    rw [← List.reverse_append, ← hsplit, List.reverse_reverse]
  have hlength : (front.reverse ++ run.reverse).length - run.length = front.reverse.length := by
    simp
  rw [hlength]
  cases hlast : run.reverse with
  | nil => exact .past _ (by simp)
  | cons b rest =>
      have hb : b ∈ run := List.mem_reverse.mp (by rw [hlast]; exact List.mem_cons_self)
      exact .before _ b (by simp) (continues_of_ascii (hp b (hall b hb)))

theorem scanSigned {t : IntegerType} {bs : Bytes} {r : Reading Int} (h : t.scanSigned bs = some r) :
    IsCut bs r.length := by
  obtain ⟨text, rest, n, hsplit, hlength, hn, _, _⟩ := exists_of_scanSigned t h
  rw [← hlength]
  exact .whole text rest hsplit hn.isUtf8

theorem scanUnsigned {t : IntegerType} {radix : Nat} {bs : Bytes} {r : Reading Int}
    (h : t.scanUnsigned radix bs = some r) : IsCut bs r.length := by
  obtain ⟨text, rest, x, hsplit, hlength, hx, _, _⟩ := (t.scanUnsigned_eq_some_iff bs r.value r.length).mp h
  rw [← hlength]
  exact .whole text rest hsplit hx.isUtf8

theorem scanFloat {bs : Bytes} {r : Reading Binary64} (h : scanFloat bs = some r) :
    IsCut bs r.length := by
  obtain ⟨text, rest, l, hsplit, hlength, hl, _⟩ := exists_of_scanFloat h
  rw [← hlength]
  exact .whole text rest hsplit hl.isUtf8

end IsCut

end SExpression
