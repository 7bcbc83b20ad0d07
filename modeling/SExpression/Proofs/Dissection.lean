import SExpression.Parse
import SExpression.Proofs.LexicalGrammar

/-! # Taking a text apart

A dissection lists the lexemes of a text with the gap before each of them, and the gap at the end.
Every text has one and only one (`Dissection.existsUnique`), and the scan for lexemes finds it
(`Dissection.all_eq_located`). -/
set_option autoImplicit false
namespace SExpression

structure Dissection where
  parts : List (Bytes × Lexeme)
  tail : Bytes
  deriving DecidableEq, Repr

namespace Dissection

section Grammar

/-- The text of some lexemes, each after its gap, and of the gap at the end. -/
def textOf (tail : Bytes) : List (Bytes × Lexeme) → Bytes
  | [] => tail
  | (gap, l) :: parts => gap ++ (l.written ++ textOf tail parts)

/-- All gaps and lexemes are well formed where they stand. -/
def Grammatical (escapes : Bool) (tail : Bytes) : List (Bytes × Lexeme) → Prop
  | [] => IsGap [] tail
  | (gap, l) :: parts =>
    IsGap (l.written ++ textOf tail parts) gap ∧ l.StandsBefore escapes (textOf tail parts) ∧
      Grammatical escapes tail parts

/-- The dissection takes the text apart by the lexical grammar. -/
def IsOf (escapes : Bool) (text : Bytes) (d : Dissection) : Prop :=
  textOf d.tail d.parts = text ∧ Grammatical escapes d.tail d.parts

def lexemes (d : Dissection) : List Lexeme := d.parts.map Prod.snd

/-- The lexemes at their offsets, as far as they can be read; the text begins at `offset`. -/
def located (tornEnd : Bool) (tail : Bytes) : Nat → List (Bytes × Lexeme) → List (Located Lexeme)
  | _, [] => []
  | offset, (gap, l) :: parts =>
    ⟨offset + gap.length, l.seen tornEnd (textOf tail parts)⟩ ::
      located tornEnd tail (offset + gap.length + l.written.length) parts

end Grammar

section Scan
variable {escapes : Bool}

theorem gapLength_tail (tail : Bytes) (h : IsGap [] tail) : gapLength false tail = tail.length := by
  have := gapLength_append tail [] h (by simp [AtGapEnd])
  rwa [List.append_nil] at this

theorem gapLength_lexeme (gap rest : Bytes) (l : Lexeme) (hgap : IsGap (l.written ++ rest) gap)
    (hl : l.StandsBefore escapes rest) :
    gapLength false (gap ++ (l.written ++ rest)) = gap.length :=
  gapLength_append gap _ hgap (l.atGapEnd_written rest hl)

theorem all_tail (tornEnd : Bool) (offset : Nat) (tail : Bytes) (h : IsGap [] tail) :
    Lexeme.all escapes tornEnd offset tail = [] := by
  rw [Lexeme.all, gapLength_tail tail h]
  split
  · rfl
  · rename_i heq
    simp at heq

theorem all_lexeme (tornEnd : Bool) (offset : Nat) (gap rest : Bytes) (l : Lexeme)
    (hgap : IsGap (l.written ++ rest) gap) (hl : l.StandsBefore escapes rest) :
    Lexeme.all escapes tornEnd offset (gap ++ (l.written ++ rest)) =
      ⟨offset + gap.length, l.seen tornEnd rest⟩ ::
        Lexeme.all escapes tornEnd (offset + gap.length + l.written.length) rest := by
  obtain ⟨b, t, hbt, hfirst⟩ := l.first_written tornEnd rest hl
  have hpos : 0 < l.written.length := List.length_pos_iff.mpr (l.written_ne_nil rest hl)
  have hdrop : t.drop (l.written.length - 1) = rest := by
    have : (b :: t).drop (l.written.length - 1 + 1) = rest := by
      rw [← hbt, Nat.sub_add_cancel hpos, List.drop_left]
    simpa using this
  rw [Lexeme.all, gapLength_lexeme gap rest l hgap hl]
  split
  · rename_i heq
    rw [List.drop_left, hbt] at heq
    cases heq
  · rename_i b' t' heq
    rw [List.drop_left, hbt] at heq
    cases heq
    have hoffset : offset + gap.length + 1 + (l.written.length - 1) =
        offset + gap.length + l.written.length := by omega
    simp only [hfirst, hdrop, hoffset]

theorem all_eq_located (tornEnd : Bool) (tail : Bytes) (offset : Nat)
    (parts : List (Bytes × Lexeme)) (h : Grammatical escapes tail parts) :
    Lexeme.all escapes tornEnd offset (textOf tail parts) = located tornEnd tail offset parts := by
  induction parts generalizing offset with
  | nil => exact all_tail tornEnd offset tail h
  | cons part parts ih =>
      obtain ⟨gap, l⟩ := part
      obtain ⟨hgap, hl, hparts⟩ := h
      rw [textOf, located, all_lexeme tornEnd offset gap _ l hgap hl, ih _ hparts]

end Scan

section Uniqueness
variable {escapes : Bool}

theorem exists_isOf (escapes : Bool) (text : Bytes) : ∃ d, IsOf escapes text d := by
  induction hn : text.length using Nat.strong_induction_on generalizing text with
  | _ n ih =>
    obtain ⟨gap, rest, htext, hgap, hend⟩ := exists_gap text
    cases rest with
    | nil =>
        rw [List.append_nil] at htext
        exact ⟨⟨[], text⟩, rfl, by simpa only [Grammatical, htext] using hgap⟩
    | cons b bs =>
        obtain ⟨l, rest, hbs, hl⟩ := exists_lexeme escapes b bs hend
        have hpos : 0 < l.written.length := List.length_pos_iff.mpr (l.written_ne_nil rest hl)
        have hshort : rest.length < n := by
          rw [← hn, htext, hbs]
          simp only [List.length_append]
          omega
        obtain ⟨d, hd, hgram⟩ := ih rest.length hshort rest rfl
        refine ⟨⟨(gap, l) :: d.parts, d.tail⟩, ?_, ?_, ?_, hgram⟩
        · rw [textOf, hd, htext, hbs]
        · rw [hd, ← hbs]
          exact hgap
        · rw [hd]
          exact hl

/-- A lexeme and what follows it are determined by the text they make up. -/
theorem lexeme_inj {l l' : Lexeme} {rest rest' : Bytes} (hl : l.StandsBefore escapes rest)
    (hl' : l'.StandsBefore escapes rest') (h : l.written ++ rest = l'.written ++ rest') :
    l = l' ∧ rest = rest' := by
  obtain ⟨b, t, hbt, hfirst⟩ := l.first_written false rest hl
  obtain ⟨b', t', hbt', hfirst'⟩ := l'.first_written false rest' hl'
  have hcons : b :: t = b' :: t' := by rw [← hbt, h, hbt']
  obtain ⟨rfl, rfl⟩ := List.cons.inj hcons
  have hsame : l = l' := by
    have := congrArg Prod.fst (hfirst.symm.trans hfirst')
    simpa [Lexeme.seen] using this
  subst hsame
  exact ⟨rfl, List.append_cancel_left h⟩

theorem grammatical_inj (tail tail' : Bytes) (parts parts' : List (Bytes × Lexeme))
    (h : Grammatical escapes tail parts) (h' : Grammatical escapes tail' parts')
    (htext : textOf tail parts = textOf tail' parts') : parts = parts' ∧ tail = tail' := by
  induction parts generalizing parts' with
  | nil =>
      cases parts' with
      | nil => exact ⟨rfl, htext⟩
      | cons part parts' =>
          -- the one gap would be all of the text, and the other one only begins it
          obtain ⟨gap, l⟩ := part
          obtain ⟨hgap, hl, _⟩ := h'
          simp only [textOf] at htext
          have hlong := gapLength_tail tail h
          rw [htext, gapLength_lexeme gap _ l hgap hl] at hlong
          have hpos := List.length_pos_iff.mpr (l.written_ne_nil _ hl)
          simp only [List.length_append] at hlong
          omega
  | cons part parts ih =>
      obtain ⟨gap, l⟩ := part
      obtain ⟨hgap, hl, hparts⟩ := h
      cases parts' with
      | nil =>
          simp only [textOf] at htext
          have hlong := gapLength_tail tail' h'
          rw [← htext, gapLength_lexeme gap _ l hgap hl] at hlong
          have hpos := List.length_pos_iff.mpr (l.written_ne_nil _ hl)
          simp only [List.length_append] at hlong
          omega
      | cons part' parts' =>
          obtain ⟨gap', l'⟩ := part'
          obtain ⟨hgap', hl', hparts'⟩ := h'
          simp only [textOf] at htext
          have hlength : gap.length = gap'.length := by
            rw [← gapLength_lexeme gap _ l hgap hl, htext, gapLength_lexeme gap' _ l' hgap' hl']
          obtain ⟨rfl, hrest⟩ := List.append_inj htext hlength
          obtain ⟨rfl, hsuffix⟩ := lexeme_inj hl hl' hrest
          obtain ⟨rfl, rfl⟩ := ih parts' hparts hparts' hsuffix
          exact ⟨rfl, rfl⟩

theorem existsUnique (escapes : Bool) (text : Bytes) : ∃! d, IsOf escapes text d := by
  obtain ⟨d, hd⟩ := exists_isOf escapes text
  refine ⟨d, hd, ?_⟩
  intro d' hd'
  obtain ⟨hparts, htail⟩ := grammatical_inj d'.tail d.tail d'.parts d.parts hd'.2 hd.2
    (hd'.1.trans hd.1.symm)
  cases d
  cases d'
  simp only at hparts htail
  rw [hparts, htail]

end Uniqueness

end Dissection

end SExpression
