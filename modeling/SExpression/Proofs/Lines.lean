import SExpression.Proofs.CursorBounds

/-! # Lines

A line ending is a line feed, a carriage return, or one of each in either order, whatever is longest
(`IsLineEnding`).  A line goes up to the first line ending and takes it along; the last line of a text
may lack one (`IsLine`).  Every text begins with a line (`exists_line`), `lineLength` measures it
(`lineLength_append`), and a cursor that skips a line passes it and nothing else
(`Cursor.passed_skipLine`). -/
set_option autoImplicit false
namespace SExpression

section Endings

/-- A line ending that `rest` follows and does not make longer. -/
inductive IsLineEnding (rest : Bytes) : Bytes → Prop where
  | single (b : UInt8) : isLineEnd b = true → (∀ x ∈ rest.head?, isLineEnd x = true → x = b) →
      IsLineEnding rest [b]
  | pair (b b' : UInt8) : isLineEnd b = true → isLineEnd b' = true → b' ≠ b →
      IsLineEnding rest [b, b']

/-- A line that `rest` follows, with its ending if it has one. -/
inductive IsLine (rest : Bytes) : Bytes → Prop where
  | ended (body ending : Bytes) : (∀ b ∈ body, isLineEnd b = false) → IsLineEnding rest ending →
      IsLine rest (body ++ ending)
  | last (body : Bytes) : (∀ b ∈ body, isLineEnd b = false) → rest = [] → IsLine rest body

theorem lineLength_body (body rest : Bytes) (h : ∀ b ∈ body, isLineEnd b = false) :
    lineLength (body ++ rest) = body.length + lineLength rest := by
  induction body with
  | nil => simp
  | cons b body ih =>
      obtain ⟨hb, hbody⟩ := List.forall_mem_cons.mp h
      rw [List.cons_append, lineLength.eq_def]
      simp only [hb, Bool.false_eq_true, if_false, ih hbody, List.length_cons]
      omega

theorem lineLength_ending (ending rest : Bytes) (h : IsLineEnding rest ending) :
    lineLength (ending ++ rest) = ending.length := by
  cases h with
  | single b hb hshort =>
      cases rest with
      | nil => simp [lineLength, hb]
      | cons x rest =>
          have hx : (isLineEnd x && x != b) = false := by
            cases hend : isLineEnd x with
            | false => rfl
            | true => simp [hshort x rfl hend]
          simp [lineLength, hb, hx]
  | pair b b' hb hb' hne => simp [lineLength, hb, hb', hne]

theorem lineLength_append (line rest : Bytes) (h : IsLine rest line) :
    lineLength (line ++ rest) = line.length := by
  cases h with
  | ended body ending hbody hending =>
      rw [List.append_assoc, lineLength_body body _ hbody, lineLength_ending ending rest hending,
        List.length_append]
  | last body hbody hrest =>
      rw [lineLength_body _ _ hbody, hrest]
      rfl

theorem exists_ending (b : UInt8) (bs : Bytes) (hb : isLineEnd b = true) :
    ∃ ending rest, b :: bs = ending ++ rest ∧ IsLineEnding rest ending := by
  by_cases hpair : ∃ x ∈ bs.head?, isLineEnd x = true ∧ x ≠ b
  · obtain ⟨x, hx, hend, hne⟩ := hpair
    obtain ⟨rest, rfl⟩ := List.head?_eq_some_iff.mp hx
    exact ⟨[b, x], rest, rfl, .pair b x hb hend hne⟩
  · refine ⟨[b], bs, rfl, .single b hb ?_⟩
    intro x hx hend
    by_contra hne
    exact hpair ⟨x, hx, hend, hne⟩

theorem exists_line (bs : Bytes) : ∃ line rest, bs = line ++ rest ∧ IsLine rest line := by
  obtain ⟨body, _, hsplit, hall, hend⟩ := exists_takeWhile (fun b => !isLineEnd b) bs
  have hbody : ∀ b ∈ body, isLineEnd b = false := fun b hb => by simpa using hall b hb
  cases hdrop : bs.drop body.length with
  | nil =>
      rw [hdrop] at hsplit
      exact ⟨body, [], hsplit, .last body hbody rfl⟩
  | cons b after =>
      have hb : isLineEnd b = true := by simpa [hdrop] using hend
      obtain ⟨ending, rest, hafter, hending⟩ := exists_ending b after hb
      refine ⟨body ++ ending, rest, ?_, .ended body ending hbody hending⟩
      rw [hsplit, hdrop, hafter, List.append_assoc]

end Endings

namespace Cursor
variable (c : Cursor)

/-- The bytes between a cursor and a later one over the same range. -/
def passed (d : Cursor) : Bytes := c.bytes.take (d.start - c.start)

theorem passed_advance (front rest : Bytes) (h : c.bytes = front ++ rest) :
    c.passed (c.advance front.length) = front ∧ (c.advance front.length).bytes = rest := by
  have hlength := c.length_bytes
  rw [h, List.length_append] at hlength
  have hstart := c.start_advance front.length (by omega)
  refine ⟨?_, ?_⟩
  · rw [passed, hstart, Nat.add_sub_cancel_left, h, List.take_left]
  · rw [bytes_advance, h, List.drop_left]

/-- A line is skipped as a whole. -/
theorem passed_skipLine :
    c.bytes = c.passed c.skipLine ++ c.skipLine.bytes ∧
      IsLine c.skipLine.bytes (c.passed c.skipLine) := by
  obtain ⟨line, rest, hbytes, hline⟩ := exists_line c.bytes
  have hskip : c.skipLine = c.advance line.length := by
    rw [skipLine, hbytes, lineLength_append line rest hline]
  obtain ⟨hpassed, hrest⟩ := c.passed_advance line rest hbytes
  rw [hskip, hpassed, hrest]
  exact ⟨hbytes, hline⟩

end Cursor

end SExpression
