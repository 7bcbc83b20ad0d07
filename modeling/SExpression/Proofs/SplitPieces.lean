import SExpression.Proofs.WholeCharacters

/-! # Pieces between separators

Pieces are put together with a separator between them (`joined`), or with one behind each (`ended`).
Reading the pieces between separators undoes both, as long as the last piece is not empty, and what has
been read is put together again to the text (`split_undoes_join`).

The bytes alone are divided and joined by `List.splitOn` and `List.intercalate`, which are inverse to
each other; what remains to be seen is the last piece, which is not handed out if it is empty. -/
set_option autoImplicit false
namespace SExpression

section Bytes
variable (separator : UInt8)

/-- The pieces with a separator between each two. -/
def joined (pieces : List Bytes) : Bytes := [separator].intercalate pieces

/-- The pieces with a separator behind each. -/
def ended (pieces : List Bytes) : Bytes := pieces.flatMap (· ++ [separator])

theorem joined_concat (pieces : List Bytes) (last : Bytes) :
    joined separator (pieces ++ [last]) = ended separator pieces ++ last := by
  induction pieces with
  | nil => exact List.intercalate_singleton
  | cons piece pieces ih =>
      obtain ⟨next, more, hmore⟩ : ∃ next more, pieces ++ [last] = next :: more :=
        List.exists_cons_of_ne_nil (by simp)
      simp only [joined, ended, List.cons_append, List.flatMap_cons] at ih ⊢
      rw [hmore, List.intercalate_cons_cons, ← hmore, ih]
      simp only [List.append_assoc]

theorem ended_concat (pieces : List Bytes) (last : Bytes) :
    ended separator (pieces ++ [last]) = joined separator (pieces ++ [last]) ++ [separator] := by
  rw [joined_concat]
  simp [ended]

theorem getLast?_ended {pieces : List Bytes} (h : pieces ≠ []) :
    (ended separator pieces).getLast? = some separator := by
  rw [← List.dropLast_append_getLast h, ended_concat]
  simp

theorem dropEmptyEnd_concat (pieces : List Bytes) (last : Bytes) :
    dropEmptyEnd (pieces ++ [last]) = if last = [] then pieces else pieces ++ [last] := by
  simp [dropEmptyEnd]

/-- No piece between separators holds one. -/
theorem not_mem_of_mem_splitOn (text : Bytes) :
    ∀ piece ∈ text.splitOn separator, separator ∉ piece := by
  induction text with
  | nil => simp [List.splitOn_nil]
  | cons b text ih =>
      obtain ⟨piece, pieces, hpieces⟩ := List.exists_cons_of_ne_nil
        (List.splitOn_ne_nil separator text)
      rw [hpieces, List.forall_mem_cons] at ih
      rw [List.splitOn, List.splitOnP_cons_eq_if_modifyHead, ← List.splitOn, hpieces]
      split
      · simpa using ih
      · rename_i hb
        have hne : separator ≠ b := fun h => hb (by simp [h])
        simpa [hne] using ih

variable {separator}

/-- What is read between separators is the text again, once it is put together. -/
theorem dropEmptyEnd_splitOn (text : Bytes) :
    let pieces := dropEmptyEnd (text.splitOn separator)
    (∀ piece ∈ pieces, separator ∉ piece) ∧
    (text = [] → pieces = []) ∧
    (text.getLast? = some separator → text = ended separator pieces) ∧
    (text.getLast? ≠ some separator → text = joined separator pieces) := by
  intro pieces
  have hne := List.splitOn_ne_nil separator text
  obtain ⟨front, last, hsplit⟩ : ∃ front last, text.splitOn separator = front ++ [last] :=
    ⟨_, _, (List.dropLast_append_getLast hne).symm⟩
  have htext : text = ended separator front ++ last := by
    rw [← joined_concat, ← hsplit]
    exact (List.intercalate_splitOn separator).symm
  have hplain := not_mem_of_mem_splitOn separator text
  rw [hsplit] at hplain
  have hpieces : pieces = if last = [] then front else front ++ [last] := by
    rw [← dropEmptyEnd_concat, ← hsplit]
  by_cases hlast : last = []
  · -- The text is empty, or a separator stands at its end.
    rw [if_pos hlast] at hpieces
    rw [hlast, List.append_nil] at htext
    rw [hpieces]
    refine ⟨fun piece h => hplain piece (List.mem_append_left _ h), ?_, fun _ => htext, ?_⟩
    · intro hnil
      by_contra hfront
      have hend := getLast?_ended separator hfront
      rw [← htext, hnil] at hend
      cases hend
    · intro hend
      have hfront : front = [] := by
        by_contra hfront
        exact hend (by rw [htext, getLast?_ended separator hfront])
      rw [htext, hfront]
      rfl
  · rw [if_neg hlast] at hpieces
    have hend : text.getLast? = last.getLast? := by
      rw [htext, List.getLast?_append_of_ne_nil _ hlast]
    rw [hpieces]
    refine ⟨hplain, ?_, ?_, ?_⟩
    · intro hnil
      rw [hnil] at htext
      exact absurd (List.append_eq_nil_iff.mp htext.symm).2 hlast
    · intro hsep
      rw [hend] at hsep
      exact absurd (List.mem_of_getLast? hsep) (hplain last (by simp))
    · intro _
      rw [joined_concat, htext]

/-- One more separator at the end makes no difference. -/
theorem dropEmptyEnd_splitOn_joined {pieces : List Bytes} (hne : pieces ≠ [])
    (hplain : ∀ piece ∈ pieces, separator ∉ piece) (hlast : pieces.getLast? ≠ some []) :
    dropEmptyEnd ((joined separator pieces).splitOn separator) = pieces ∧
    dropEmptyEnd ((joined separator pieces ++ [separator]).splitOn separator) = pieces := by
  have hsplit : ∀ pieces : List Bytes, (∀ piece ∈ pieces, separator ∉ piece) → pieces ≠ [] →
      (joined separator pieces).splitOn separator = pieces :=
    fun _ hplain hne => List.splitOn_intercalate separator hplain hne
  have hmore : joined separator pieces ++ [separator] = joined separator (pieces ++ [[]]) := by
    rw [joined_concat, List.append_nil, ← List.dropLast_append_getLast hne, ended_concat]
  refine ⟨?_, ?_⟩
  · rw [hsplit pieces hplain hne, dropEmptyEnd, if_neg hlast]
  · rw [hmore, hsplit _ (by simpa [or_imp, forall_and] using hplain) (by simp),
      dropEmptyEnd_concat, if_pos rfl]

theorem isUtf8_joined (hascii : separator < 0x80) {pieces : List Bytes}
    (h : ∀ piece ∈ pieces, piece.IsUtf8) : (joined separator pieces).IsUtf8 := by
  have hseparator : Bytes.IsUtf8 [separator] := Bytes.isUtf8_of_ascii _ (by simpa using hascii)
  induction pieces with
  | nil => exact Bytes.isUtf8_of_ascii _ rfl
  | cons piece pieces ih =>
      rw [List.forall_mem_cons] at h
      cases pieces with
      | nil => simpa [joined] using h.1
      | cons next pieces =>
          rw [joined, List.intercalate_cons_cons]
          exact (h.1.append hseparator).append (ih h.2)

end Bytes

namespace Cursor
variable {c : Cursor} {separator : UInt8}

section Iteration

theorem split_of_isEmpty (h : c.isEmpty = true) : c.split separator = [] := by rw [split, if_pos h]

theorem split_eq_cons (h : c.isEmpty ≠ true) :
    c.split separator =
      (c.takeUntil (· == separator)).2 :: (c.splitOff separator).split separator := by
  rw [split, if_neg h, splitOff, if_neg h]

/-- The pieces are what is handed out one after the other, and after the last one nothing is. -/
theorem text?_iterate_splitOff (c : Cursor) (n : Nat) :
    (Operation.splitOff separator).text? ((fun d => d.splitOff separator)^[n] c) =
      (c.split separator)[n]? := by
  induction n generalizing c with
  | zero =>
      rw [Function.iterate_zero_apply, Operation.text?]
      by_cases hempty : c.isEmpty = true
      · rw [if_pos hempty, split_of_isEmpty hempty]
        rfl
      · rw [if_neg hempty, split_eq_cons hempty]
        rfl
  | succ n ih =>
      rw [Function.iterate_succ_apply, ih]
      by_cases hempty : c.isEmpty = true
      · rw [splitOff, if_pos hempty, split_of_isEmpty hempty]
        rfl
      · rw [split_eq_cons hempty, List.getElem?_cons_succ]

end Iteration

end Cursor

open Cursor (Operation)

/-- The pieces between separators are handed out one after the other until there are none left; none
holds a separator, and together they are the text again: with a separator behind each piece if one
stands at the end of the text, and between each two otherwise.  Pieces that hold no separator and of
which the last is not empty come back from the text they are put together to, whether a separator is
added at the end or not. -/
theorem split_undoes_join (separator : UInt8) (hascii : separator < 0x80) :
    (∀ c : Cursor, c.OnCharacters →
      let pieces := c.split separator
      (∀ n, (Operation.splitOff separator).text? ((fun d => d.splitOff separator)^[n] c) =
        pieces[n]?) ∧
      (∀ piece ∈ pieces, separator ∉ piece) ∧
      (c.text = [] → pieces = []) ∧
      (c.text.getLast? = some separator → c.text = ended separator pieces) ∧
      (c.text.getLast? ≠ some separator → c.text = joined separator pieces)) ∧
    ∀ pieces : List Bytes, pieces ≠ [] →
      (∀ piece ∈ pieces, piece.IsUtf8 ∧ separator ∉ piece) → pieces.getLast? ≠ some [] →
      ∀ text, text = joined separator pieces ∨ text = joined separator pieces ++ [separator] →
        (Cursor.ofBuffer text).OnCharacters ∧
        ∀ c : Cursor, c.OnCharacters → c.text = text → c.split separator = pieces := by
  refine ⟨?_, ?_⟩
  · intro c hc pieces
    have hpieces : pieces = dropEmptyEnd (c.text.splitOn separator) := by
      rw [hc.text_eq]
      exact hc.split_eq hascii
    refine ⟨c.text?_iterate_splitOff, ?_⟩
    rw [hpieces]
    exact dropEmptyEnd_splitOn c.text
  · intro pieces hne hpieces hlast text htext
    have hutf8 := isUtf8_joined hascii fun piece h => (hpieces piece h).1
    obtain ⟨hback, hmore⟩ :=
      dropEmptyEnd_splitOn_joined hne (fun piece h => (hpieces piece h).2) hlast
    refine ⟨?_, ?_⟩
    · apply Cursor.onCharacters_of_isUtf8
      rcases htext with rfl | rfl
      · exact hutf8
      · exact hutf8.append (Bytes.isUtf8_of_ascii _ (by simpa using hascii))
    · intro c hc hctext
      rw [hc.split_eq hascii, ← hc.text_eq, hctext]
      rcases htext with rfl | rfl
      · exact hback
      · exact hmore

/-- Two commas next to each other have an empty piece between them, and one at the end has none behind
it. -/
theorem comma_separated_pieces :
    let pieces := [[byte 'a'], [], [byte 'b']]
    let c := Cursor.ofBuffer (Bytes.ofString "a,,b,")
    byte ',' < 0x80 ∧ c.OnCharacters ∧ c.split (byte ',') = pieces ∧
      c.text = ended (byte ',') pieces := by
  intro pieces c
  have hcomma : byte ',' < 0x80 := by decide
  have hc : c.OnCharacters := Cursor.onCharacters_ofBuffer _
  obtain ⟨hjoin, hsplit⟩ := split_undoes_join (byte ',') hcomma
  have hpieces : c.split (byte ',') = pieces :=
    (hsplit pieces (by decide) (by decide) (by decide) c.text (.inr (by decide +kernel))).2 c hc rfl
  obtain ⟨_, _, _, hended, _⟩ := hjoin c hc
  rw [hpieces] at hended
  exact ⟨hcomma, hc, hpieces, hended (by decide +kernel)⟩

end SExpression
