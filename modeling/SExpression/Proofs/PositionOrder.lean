import Mathlib.Data.Nat.Init
import SExpression.Text.Position

/-! # The order of positions

A later offset has a later position, since a byte moves the position on to the next column or to the
next line (`ofOffset_precedes`).  So a position belongs to one offset of the buffer only
(`ofOffset_inj`). -/
set_option autoImplicit false
namespace SExpression.Position

/-- A position further up, or further to the left on the same line. -/
def Precedes (p q : Position) : Prop := p.line < q.line ∨ p.line = q.line ∧ p.column < q.column

section Order
variable {p q r : Position}

theorem Precedes.trans (hpq : p.Precedes q) (hqr : q.Precedes r) : p.Precedes r := by
  unfold Precedes at hpq hqr ⊢
  omega

theorem not_precedes_self (p : Position) : ¬ p.Precedes p := by
  unfold Precedes
  omega

theorem precedes_after (p : Position) (b : UInt8) : p.Precedes (p.after b) := by
  unfold after
  split
  · exact Or.inl (Nat.lt_succ_self p.line)
  · exact Or.inr ⟨rfl, Nat.lt_succ_self p.column⟩

end Order

section Offsets
variable (buffer : Bytes)

theorem ofOffset_succ (i : Nat) (b : UInt8) (h : buffer[i]? = some b) :
    ofOffset buffer (i + 1) = (ofOffset buffer i).after b := by
  rw [ofOffset, List.take_add_one, h, List.foldl_append]
  rfl

theorem ofOffset_precedes_succ (i : Nat) (h : i < buffer.length) :
    (ofOffset buffer i).Precedes (ofOffset buffer (i + 1)) := by
  rw [ofOffset_succ buffer i buffer[i] (List.getElem?_eq_getElem h)]
  exact precedes_after _ _

theorem ofOffset_precedes (i j : Nat) (hij : i < j) (hj : j ≤ buffer.length) :
    (ofOffset buffer i).Precedes (ofOffset buffer j) := by
  induction j, hij using Nat.le_induction with
  | base => exact ofOffset_precedes_succ buffer i hj
  | succ j _ ih => exact (ih (Nat.le_of_succ_le hj)).trans (ofOffset_precedes_succ buffer j hj)

theorem ofOffset_inj (i j : Nat) (hi : i ≤ buffer.length) (hj : j ≤ buffer.length)
    (h : ofOffset buffer i = ofOffset buffer j) : i = j := by
  rcases Nat.lt_trichotomy i j with hlt | heq | hgt
  · have hfirst := ofOffset_precedes buffer i j hlt hj
    rw [h] at hfirst
    exact absurd hfirst (not_precedes_self _)
  · exact heq
  · have hfirst := ofOffset_precedes buffer j i hgt hi
    rw [h] at hfirst
    exact absurd hfirst (not_precedes_self _)

end Offsets

end SExpression.Position
