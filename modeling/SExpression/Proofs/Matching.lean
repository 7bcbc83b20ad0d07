import Mathlib.Data.List.Induction
import SExpression.Nesting

/-! # Matched brackets

Matching said without a stack: a list of lexemes is balanced if its brackets pair up, a closing
bracket is stray if balanced lexemes precede it, and an opening one is left open if balanced lexemes
follow it.  The stack of `Nesting` knows the same: it is unchanged after balanced lexemes
(`foldl_after_balanced`), and without a stray bracket its top is the bracket left open last
(`openedBy_foldl`).  With or without one it holds the brackets that nothing has closed
(`mem_opened_iff`), in the order in which they came (`sublist_opened`).

`matchBrackets_cases` says all that a limit can do: it cuts the lexemes before the first opening
bracket that finds the nesting full, or it does nothing. -/
set_option autoImplicit false
namespace SExpression

/-- Every bracket has its partner. -/
inductive Balanced : List (Located Lexeme) → Prop where
  | nil : Balanced []
  | other (l : Located Lexeme) (rest : List (Located Lexeme)) :
      l.value ≠ .opening → l.value ≠ .closing → Balanced rest → Balanced (l :: rest)
  | pair (l r : Located Lexeme) (inner rest : List (Located Lexeme)) :
      l.value = .opening → r.value = .closing → Balanced inner → Balanced rest →
      Balanced (l :: (inner ++ r :: rest))

/-- A closing bracket that is the first to close nothing. -/
def StrayAt (ls : List (Located Lexeme)) (l : Located Lexeme) : Prop :=
  ∃ pre post, ls = pre ++ l :: post ∧ l.value = .closing ∧ Balanced pre

/-- An opening bracket that nothing closes, and the last one such. -/
def UnclosedAt (ls : List (Located Lexeme)) (l : Located Lexeme) : Prop :=
  ∃ pre post, ls = pre ++ l :: post ∧ l.value = .opening ∧ Balanced post

/-- An opening bracket that nothing closes.  The bracket that closes one is the first after it that
has no partner there. -/
def LeftOpen (ls : List (Located Lexeme)) (l : Located Lexeme) : Prop :=
  ∃ pre post, ls = pre ++ l :: post ∧ l.value = .opening ∧ ∀ m, ¬ StrayAt post m

/-- The brackets left open, innermost first, in lexemes without a stray bracket. -/
inductive OpenedBy : List (Located Lexeme) → List Nat → Prop where
  | balanced (ls : List (Located Lexeme)) : Balanced ls → OpenedBy ls []
  | unclosed (pre post : List (Located Lexeme)) (l : Located Lexeme) (outer : List Nat) :
      OpenedBy pre outer → l.value = .opening → Balanced post →
      OpenedBy (pre ++ l :: post) (l.offset :: outer)

section Words

theorem tokens_cons (policy : NumericPolicy) (l : Located Lexeme) (ls : List (Located Lexeme)) :
    (l :: ls).filterMap (fun l => l.value.token? policy) =
      (l.value.token? policy).toList ++ ls.filterMap fun l => l.value.token? policy := by
  cases h : l.value.token? policy with
  | none => simp [h]
  | some t => simp [h]

theorem Balanced.append {ls ms : List (Located Lexeme)} (hls : Balanced ls) (hms : Balanced ms) :
    Balanced (ls ++ ms) := by
  induction hls with
  | nil => exact hms
  | other l rest hopening hclosing _ ih => exact .other l _ hopening hclosing ih
  | pair l r inner rest hl hr hinner _ _ ih =>
      rw [List.cons_append, List.append_assoc, List.cons_append]
      exact .pair l r inner _ hl hr hinner ih

theorem OpenedBy.append {ls ms : List (Located Lexeme)} {opened : List Nat}
    (hls : OpenedBy ls opened) (hms : Balanced ms) : OpenedBy (ls ++ ms) opened := by
  cases hls with
  | balanced _ h => exact .balanced _ (h.append hms)
  | unclosed pre post l outer hpre hl hpost =>
      rw [List.append_assoc, List.cons_append]
      exact .unclosed pre (post ++ ms) l outer hpre hl (hpost.append hms)

end Words

namespace Nesting

theorem after_opening (n : Nesting) (l : Located Lexeme) (h : l.value = .opening) :
    n.after l = ⟨l.offset :: n.opened, n.stray⟩ := by
  simp [after, h]

theorem after_closing_nil (n : Nesting) (l : Located Lexeme) (h : l.value = .closing)
    (hn : n.opened = []) : n.after l = ⟨[], n.stray.or (some l.offset)⟩ := by
  simp [after, h, hn]

theorem after_closing_cons (n : Nesting) (l : Located Lexeme) (o : Nat) (outer : List Nat)
    (h : l.value = .closing) (hn : n.opened = o :: outer) : n.after l = ⟨outer, n.stray⟩ := by
  simp [after, h, hn]

theorem after_other (n : Nesting) (l : Located Lexeme) (hopening : l.value ≠ .opening)
    (hclosing : l.value ≠ .closing) : n.after l = n := by
  unfold after
  split
  · rename_i h
    exact absurd h hopening
  · rename_i h
    exact absurd h hclosing
  · rfl

/-- A lexeme opens a list, closes one, closes none although it should, or leaves the nesting alone. -/
theorem after_cases (n : Nesting) (l : Located Lexeme) :
    (l.value = .opening ∧ n.after l = ⟨l.offset :: n.opened, n.stray⟩) ∨
    (∃ o outer, l.value = .closing ∧ n.opened = o :: outer ∧ n.after l = ⟨outer, n.stray⟩) ∨
    (l.value = .closing ∧ n.opened = [] ∧ n.after l = ⟨[], n.stray.or (some l.offset)⟩) ∨
    (l.value ≠ .opening ∧ l.value ≠ .closing ∧ n.after l = n) := by
  by_cases hopening : l.value = .opening
  · exact Or.inl ⟨hopening, n.after_opening l hopening⟩
  by_cases hclosing : l.value = .closing
  · cases hstack : n.opened with
    | nil => exact Or.inr (Or.inr (Or.inl ⟨hclosing, rfl, n.after_closing_nil l hclosing hstack⟩))
    | cons o outer =>
        exact Or.inr (Or.inl ⟨o, outer, hclosing, rfl, n.after_closing_cons l o outer hclosing hstack⟩)
  · exact Or.inr (Or.inr (Or.inr ⟨hopening, hclosing, n.after_other l hopening hclosing⟩))

theorem foldl_after_balanced (n : Nesting) (ls : List (Located Lexeme)) (h : Balanced ls) :
    ls.foldl after n = n := by
  induction h generalizing n with
  | nil => rfl
  | other l rest hopening hclosing _ ih =>
      rw [List.foldl_cons, n.after_other l hopening hclosing, ih]
  | pair l r inner rest hl hr _ _ ihInner ihRest =>
      rw [List.foldl_cons, List.foldl_append, List.foldl_cons, ihInner, n.after_opening l hl,
        after_closing_cons _ r l.offset n.opened hr rfl, ihRest]

theorem foldl_after_stray (n : Nesting) (o : Nat) (ls : List (Located Lexeme))
    (h : n.stray = some o) : (ls.foldl after n).stray = some o := by
  induction ls generalizing n with
  | nil => exact h
  | cons l ls ih =>
      apply ih
      unfold after
      split
      · exact h
      · split
        · simp [h]
        · exact h
      · exact h

theorem stray_of_after (n : Nesting) (l : Located Lexeme) (h : (n.after l).stray = none) :
    n.stray = none := by
  cases hstray : n.stray with
  | none => rfl
  | some o => simpa [h] using foldl_after_stray n o [l] hstray

end Nesting

section Stack

/-- Without a stray bracket the stack holds what the lexemes leave open. -/
theorem openedBy_foldl (ls : List (Located Lexeme))
    (h : (ls.foldl Nesting.after .start).stray = none) :
    OpenedBy ls (ls.foldl Nesting.after .start).opened := by
  induction ls using List.reverseRecOn with
  | nil => exact .balanced [] .nil
  | append_singleton ls l ih =>
      rw [List.foldl_append, List.foldl_cons, List.foldl_nil] at h ⊢
      generalize hn : ls.foldl Nesting.after .start = n at h ih ⊢
      have hbefore := n.stray_of_after l h
      have hopened := ih hbefore
      rcases n.after_cases l with ⟨hopening, hafter⟩ | ⟨o, outer, hclosing, hstack, hafter⟩ |
        ⟨_, _, hafter⟩ | ⟨hopening, hclosing, hafter⟩
      · rw [hafter]
        exact .unclosed ls [] l n.opened hopened hopening .nil
      · rw [hstack] at hopened
        rw [hafter]
        cases hopened with
        | unclosed pre post m _ hpre hm hpost =>
            -- the pair of `m` and `l` is balanced and joins what was left open before `m`
            rw [List.append_assoc, List.cons_append]
            exact hpre.append (.pair m l post [] hm hclosing hpost .nil)
      · rw [hafter, hbefore] at h
        cases h
      · rw [hafter]
        exact hopened.append (.other l [] hopening hclosing .nil)

theorem strayAt_of_foldl (ls : List (Located Lexeme)) (o : Nat)
    (h : (ls.foldl Nesting.after .start).stray = some o) : ∃ l, StrayAt ls l ∧ l.offset = o := by
  induction ls using List.reverseRecOn with
  | nil => cases h
  | append_singleton ls l ih =>
      have extend : (∃ m, StrayAt ls m ∧ m.offset = o) → ∃ m, StrayAt (ls ++ [l]) m ∧ m.offset = o := by
        rintro ⟨m, ⟨pre, post, rfl, hm, hpre⟩, hoffset⟩
        exact ⟨m, ⟨pre, post ++ [l], by simp, hm, hpre⟩, hoffset⟩
      have hopened := openedBy_foldl ls
      rw [List.foldl_append, List.foldl_cons, List.foldl_nil] at h
      generalize hn : ls.foldl Nesting.after .start = n at h ih hopened
      cases hstray : n.stray with
      | some o' =>
          have hkept := Nesting.foldl_after_stray n o' [l] hstray
          simp only [List.foldl_cons, List.foldl_nil, h, Option.some.injEq] at hkept
          exact extend (ih (by rw [hstray, hkept]))
      | none =>
          rcases n.after_cases l with ⟨_, hafter⟩ | ⟨_, _, _, _, hafter⟩ |
            ⟨hclosing, hstack, hafter⟩ | ⟨_, _, hafter⟩
          · rw [hafter, hstray] at h
            cases h
          · rw [hafter, hstray] at h
            cases h
          · rw [hafter, hstray] at h
            have hpre : Balanced ls := by
              have hnone := hopened hstray
              rw [hstack] at hnone
              cases hnone with
              | balanced _ hls => exact hls
            exact ⟨l, ⟨ls, [], rfl, hclosing, hpre⟩, by simpa using h⟩
          · rw [hafter, hstray] at h
            cases h

theorem foldl_of_strayAt (ls : List (Located Lexeme)) (l : Located Lexeme) (h : StrayAt ls l) :
    (ls.foldl Nesting.after .start).stray = some l.offset := by
  obtain ⟨pre, post, rfl, hclosing, hpre⟩ := h
  rw [List.foldl_append, Nesting.foldl_after_balanced _ pre hpre, List.foldl_cons]
  apply Nesting.foldl_after_stray
  rw [Nesting.after_closing_nil _ l hclosing rfl]
  rfl

theorem foldl_of_unclosedAt (ls : List (Located Lexeme)) (l : Located Lexeme)
    (h : UnclosedAt ls l) :
    ∃ outer, (ls.foldl Nesting.after .start).opened = l.offset :: outer := by
  obtain ⟨pre, post, rfl, hopening, hpost⟩ := h
  rw [List.foldl_append, List.foldl_cons, Nesting.foldl_after_balanced _ post hpost,
    Nesting.after_opening _ l hopening]
  exact ⟨_, rfl⟩

/-- Lexemes without a stray bracket leave alone what was on the stack before them. -/
theorem foldl_after_settled (n : Nesting) (ls : List (Located Lexeme))
    (h : (ls.foldl Nesting.after .start).stray = none) :
    ls.foldl Nesting.after n =
      ⟨(ls.foldl Nesting.after .start).opened ++ n.opened, n.stray⟩ := by
  induction ls using List.reverseRecOn with
  | nil => rfl
  | append_singleton ls l ih =>
      simp only [List.foldl_append, List.foldl_cons, List.foldl_nil] at h ⊢
      generalize ls.foldl Nesting.after .start = settled at h ih ⊢
      have hbefore := settled.stray_of_after l h
      rw [ih hbefore]
      rcases settled.after_cases l with ⟨hopening, hafter⟩ | ⟨o, outer, hclosing, hstack, hafter⟩ |
        ⟨_, _, hafter⟩ | ⟨hopening, hclosing, hafter⟩
      · rw [hafter, Nesting.after_opening _ l hopening]
        rfl
      · rw [hafter, hstack]
        exact Nesting.after_closing_cons _ l o (outer ++ n.opened) hclosing rfl
      · rw [hafter, hbefore] at h
        cases h
      · rw [hafter, Nesting.after_other _ l hopening hclosing]

/-- Each offset on the stack is that of a bracket after which the stack has grown by those above it. -/
theorem exists_of_opened_eq (ls : List (Located Lexeme)) (inner outer : List Nat) (o : Nat)
    (h : (ls.foldl Nesting.after .start).opened = inner ++ o :: outer) :
    ∃ pre l post, ls = pre ++ l :: post ∧ l.value = .opening ∧ l.offset = o ∧
      post.foldl Nesting.after .start = ⟨inner, none⟩ := by
  induction ls using List.reverseRecOn generalizing inner with
  | nil => cases inner <;> cases h
  | append_singleton ls l ih =>
      rw [List.foldl_append, List.foldl_cons, List.foldl_nil] at h
      generalize ls.foldl Nesting.after .start = n at h ih
      have extend : ∀ before, n.opened = before ++ o :: outer →
          (Nesting.after ⟨before, none⟩ l = ⟨inner, none⟩) →
          ∃ pre m post, ls ++ [l] = pre ++ m :: post ∧ m.value = .opening ∧ m.offset = o ∧
            post.foldl Nesting.after .start = ⟨inner, none⟩ := by
        intro before hbefore hafter
        obtain ⟨pre, m, post, rfl, hm, hoffset, hpost⟩ := ih before hbefore
        refine ⟨pre, m, post ++ [l], by simp, hm, hoffset, ?_⟩
        rw [List.foldl_append, hpost, List.foldl_cons, List.foldl_nil, hafter]
      rcases n.after_cases l with ⟨hopening, hafter⟩ | ⟨x, rest, hclosing, hstack, hafter⟩ |
        ⟨_, _, hafter⟩ | ⟨hopening, hclosing, hafter⟩
      · rw [hafter] at h
        cases inner with
        | nil =>
            obtain ⟨hoffset, -⟩ := List.cons.inj h
            exact ⟨ls, l, [], rfl, hopening, hoffset, rfl⟩
        | cons x inner =>
            obtain ⟨rfl, hrest⟩ := List.cons.inj h
            exact extend inner hrest (Nesting.after_opening _ l hopening)
      · rw [hafter] at h
        refine extend (x :: inner) ?_ (Nesting.after_closing_cons _ l x inner hclosing rfl)
        rw [hstack]
        exact congrArg (x :: ·) h
      · rw [hafter] at h
        cases inner <;> cases h
      · rw [hafter] at h
        exact extend inner h (Nesting.after_other _ l hopening hclosing)

/-- The stack keeps the order in which its brackets came. -/
theorem sublist_opened (ls : List (Located Lexeme)) :
    (ls.foldl Nesting.after .start).opened.reverse.Sublist (ls.map (·.offset)) := by
  induction ls using List.reverseRecOn with
  | nil => exact List.Sublist.refl []
  | append_singleton ls l ih =>
      rw [List.foldl_append, List.foldl_cons, List.foldl_nil, List.map_append]
      generalize ls.foldl Nesting.after .start = n at ih ⊢
      have hlonger : (ls.map (·.offset)).Sublist (ls.map (·.offset) ++ [l].map (·.offset)) :=
        List.sublist_append_left _ _
      rcases n.after_cases l with ⟨_, hafter⟩ | ⟨o, outer, _, hstack, hafter⟩ | ⟨_, _, hafter⟩ |
        ⟨_, _, hafter⟩
      · rw [hafter, List.reverse_cons]
        exact ih.append (List.Sublist.refl _)
      · rw [hstack, List.reverse_cons] at ih
        rw [hafter]
        exact ((List.sublist_append_left _ [o]).trans ih).trans hlonger
      · rw [hafter]
        exact List.nil_sublist _
      · rw [hafter]
        exact ih.trans hlonger

end Stack

section Outcome

theorem not_strayAt_iff (ls : List (Located Lexeme)) :
    (∀ l, ¬ StrayAt ls l) ↔ (ls.foldl Nesting.after .start).stray = none := by
  constructor
  · intro h
    cases hstray : (ls.foldl Nesting.after .start).stray with
    | none => rfl
    | some o =>
        obtain ⟨l, hl, _⟩ := strayAt_of_foldl ls o hstray
        exact absurd hl (h l)
  · intro h l hl
    rw [foldl_of_strayAt ls l hl] at h
    cases h

/-- The stack holds what nothing has closed, stray brackets or not. -/
theorem mem_opened_iff (ls : List (Located Lexeme)) (o : Nat) :
    o ∈ (ls.foldl Nesting.after .start).opened ↔ ∃ l, LeftOpen ls l ∧ l.offset = o := by
  constructor
  · intro h
    obtain ⟨inner, outer, hsplit⟩ := List.append_of_mem h
    obtain ⟨pre, l, post, rfl, hopening, hoffset, hpost⟩ := exists_of_opened_eq ls inner outer o hsplit
    have hsettled : ∀ m, ¬ StrayAt post m := (not_strayAt_iff post).mpr (by rw [hpost])
    exact ⟨l, ⟨pre, post, rfl, hopening, hsettled⟩, hoffset⟩
  · rintro ⟨l, ⟨pre, post, rfl, hopening, hsettled⟩, rfl⟩
    rw [List.foldl_append, List.foldl_cons, Nesting.after_opening _ l hopening,
      foldl_after_settled _ post ((not_strayAt_iff post).mp hsettled)]
    simp

theorem outcome_of_strayAt (ls : List (Located Lexeme)) (l : Located Lexeme) (h : StrayAt ls l) :
    (ls.foldl Nesting.after .start).outcome = .malformed .unexpectedClosing l.offset := by
  simp only [Nesting.outcome, foldl_of_strayAt ls l h]

theorem outcome_of_unclosedAt (ls : List (Located Lexeme)) (l : Located Lexeme)
    (hstray : ∀ m, ¬ StrayAt ls m) (h : UnclosedAt ls l) :
    (ls.foldl Nesting.after .start).outcome = .truncated l.offset := by
  obtain ⟨outer, hopened⟩ := foldl_of_unclosedAt ls l h
  simp only [Nesting.outcome, (not_strayAt_iff ls).mp hstray, hopened]

theorem outcome_of_neither (ls : List (Located Lexeme)) (hstray : ∀ l, ¬ StrayAt ls l)
    (hunclosed : ∀ l, ¬ UnclosedAt ls l) :
    Balanced ls ∧ (ls.foldl Nesting.after .start).outcome = .complete := by
  have hnone := (not_strayAt_iff ls).mp hstray
  have hopened := openedBy_foldl ls hnone
  cases hstack : (ls.foldl Nesting.after .start).opened with
  | nil =>
      rw [hstack] at hopened
      cases hopened with
      | balanced _ hls => exact ⟨hls, by simp only [Nesting.outcome, hnone, hstack]⟩
  | cons o outer =>
      rw [hstack] at hopened
      cases hopened with
      | unclosed pre post l _ _ hl hpost => exact absurd ⟨pre, post, rfl, hl, hpost⟩ (hunclosed l)

/-- A limit cuts the lexemes before the first opening bracket that finds the nesting full.  Where no
bracket does, it makes no difference. -/
theorem matchBrackets_cases (limit : Option Nat) (n : Nesting) (ls : List (Located Lexeme)) :
    (∃ pre l post, ls = pre ++ l :: post ∧ l.value = .opening ∧
      (pre.foldl Nesting.after n).isFull limit = true ∧
      matchBrackets limit n ls = (pre, .malformed .nestingTooDeep l.offset)) ∨
    matchBrackets limit n ls = (ls, (ls.foldl Nesting.after n).outcome) := by
  induction ls generalizing n with
  | nil => exact Or.inr rfl
  | cons l ls ih =>
      by_cases hfull : l.value = .opening ∧ n.isFull limit = true
      · exact Or.inl ⟨[], l, ls, rfl, hfull.1, hfull.2, by simp [matchBrackets, hfull]⟩
      · rcases ih (n.after l) with ⟨pre, m, post, rfl, hm, hdeep, hcut⟩ | hall
        · refine Or.inl ⟨l :: pre, m, post, rfl, hm, hdeep, ?_⟩
          simp [matchBrackets, hfull, hcut]
        · refine Or.inr ?_
          simp [matchBrackets, hfull, hall]

theorem matchBrackets_plain (limit : Option Nat) (n : Nesting) (ls : List (Located Lexeme))
    (h : ∀ l ∈ ls, l.value ≠ .opening ∧ l.value ≠ .closing) :
    matchBrackets limit n ls = (ls, n.outcome) := by
  induction ls with
  | nil => rfl
  | cons l ls ih =>
      obtain ⟨hopening, hclosing⟩ := h l (by simp)
      have hrest := ih fun m hm => h m (by simp [hm])
      simp [matchBrackets, hopening, n.after_other l hopening hclosing, hrest]

theorem matchBrackets_unlimited (n : Nesting) (ls : List (Located Lexeme)) :
    matchBrackets none n ls = (ls, (ls.foldl Nesting.after n).outcome) := by
  rcases matchBrackets_cases none n ls with ⟨_, _, _, _, _, hfull, _⟩ | hall
  · simp [Nesting.isFull] at hfull
  · exact hall

end Outcome

end SExpression
