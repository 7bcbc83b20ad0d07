import SExpression.Proofs.Depth
import SExpression.Proofs.Outcomes

/-! # What the nesting limit does

A parse with a limit reads the same lexemes as the parse without one, up to the first opening
bracket that would open one list too many, and stops there (`limit_only_cuts`).  What it has read
until then never opens more lists than the limit allows (`depth_delivered_le`), and lists that are
open when the parse begins do not count. -/
set_option autoImplicit false
namespace SExpression
open Report (depthAfter)

section Cut

theorem length_opened_after_le (most : Nat) (n : Nesting) (l : Located Lexeme)
    (hn : n.opened.length ≤ most)
    (hfits : ¬ (l.value = .opening ∧ n.isFull (some most) = true)) :
    (n.after l).opened.length ≤ most := by
  rcases n.after_cases l with ⟨hopening, hafter⟩ | ⟨o, outer, _, hstack, hafter⟩ | ⟨_, _, hafter⟩ |
    ⟨_, _, hafter⟩
  · have hroom : ¬ most ≤ n.opened.length := fun hfull => hfits ⟨hopening, decide_eq_true hfull⟩
    rw [hafter, List.length_cons]
    omega
  · rw [hstack, List.length_cons] at hn
    rw [hafter]
    exact Nat.le_of_succ_le hn
  · rw [hafter]
    exact Nat.zero_le most
  · rw [hafter]
    exact hn

/-- At no time are more lists open than the limit allows. -/
theorem length_opened_le (most : Nat) (n : Nesting) (ls pre : List (Located Lexeme))
    (hn : n.opened.length ≤ most) (hpre : pre <+: (matchBrackets (some most) n ls).1) :
    (pre.foldl Nesting.after n).opened.length ≤ most := by
  induction ls generalizing n pre with
  | nil =>
      rw [List.prefix_nil.mp hpre]
      exact hn
  | cons l ls ih =>
      cases pre with
      | nil => exact hn
      | cons m pre =>
          by_cases hfull : l.value = .opening ∧ n.isFull (some most) = true
          · simp [matchBrackets, hfull] at hpre
          · rw [matchBrackets, if_neg hfull] at hpre
            obtain ⟨rfl, hrest⟩ := List.cons_prefix_cons.mp hpre
            exact ih (n.after m) pre (length_opened_after_le most n m hn hfull) hrest

end Cut

section Runs
variable (settings : Settings) (c : Cursor)

/-- What a parse delivers never opens more lists than the limit allows. -/
theorem depth_delivered_le (ts : List Token) (h : ts <+: delivered settings c) :
    ∀ most ∈ settings.maxDepth, ts.foldl depthAfter 0 ≤ most := by
  intro most hmost
  obtain ⟨pre, hpre, rfl⟩ := List.prefix_filterMap_iff.mp h
  have hheight := length_opened_eq_depth settings.numeric .start pre
  simp only [Nesting.start, List.length_nil] at hheight
  rw [← hheight]
  rcases parsedLexemes_cases settings c with hnil | hmatched
  · rw [hnil, List.prefix_nil] at hpre
    rw [hpre]
    exact Nat.zero_le most
  · rw [hmatched, Option.mem_def.mp hmost] at hpre
    exact length_opened_le most .start _ pre (Nat.zero_le most) hpre

/-- A limit either changes nothing or stops the parse at the first opening bracket that finds as many
lists open as the limit allows. -/
theorem parsedLexemes_limited (most : Nat) :
    let free : Settings := { settings with maxDepth := none }
    let limited : Settings := { settings with maxDepth := some most }
    parsedLexemes limited c = parsedLexemes free c ∨
    ∃ before l after, c.lexemes settings.escapes = before ++ l :: after ∧ l.value = .opening ∧
      parsedLexemes limited c = (before, .malformed .nestingTooDeep l.offset) ∧
      delivered limited c ++ [.opening] <+: delivered free c ∧
      (delivered limited c).foldl depthAfter 0 = most := by
  intro free limited
  cases hlexemes : c.lexemes settings.escapes with
  | nil => exact Or.inl (by simp only [parsedLexemes, free, limited, hlexemes])
  | cons first rest =>
      by_cases hfirst : first.value = .opening
      · have hfree : parsedLexemes free c = matchBrackets none .start (first :: rest) := by
          simp only [parsedLexemes, free, hlexemes, if_pos hfirst]
        have hlimited : parsedLexemes limited c = matchBrackets (some most) .start (first :: rest) := by
          simp only [parsedLexemes, limited, hlexemes, if_pos hfirst]
        rw [matchBrackets_unlimited] at hfree
        rcases matchBrackets_cases (some most) .start (first :: rest) with
          ⟨before, l, after, hsplit, hopening, hfull, hcut⟩ | hall
        · rw [hcut] at hlimited
          refine Or.inr ⟨before, l, after, hsplit, hopening, hlimited, ?_, ?_⟩
          · rw [delivered, hlimited, delivered, hfree, hsplit]
            refine ⟨after.filterMap fun l => l.value.token? settings.numeric, ?_⟩
            simp [hopening, Lexeme.token?, free, limited]
          · have hmost := depth_delivered_le limited c _ (List.prefix_refl _) most rfl
            have hheight := length_opened_eq_depth settings.numeric .start before
            have hreached : most ≤ (before.foldl Nesting.after .start).opened.length :=
              of_decide_eq_true hfull
            rw [delivered, hlimited] at hmost ⊢
            simp only [Nesting.start, List.length_nil] at hheight hreached
            simp only [limited] at hmost ⊢
            omega
        · exact Or.inl (by rw [hlimited, hfree, hall])
      · exact Or.inl (by simp only [parsedLexemes, free, limited, hlexemes, if_neg hfirst])

/-- Whether the parse without a limit stays within `most` open lists all along. -/
def StaysWithin (most : Nat) : Prop :=
  ∀ ts, ts <+: delivered { settings with maxDepth := none } c → ts.foldl depthAfter 0 ≤ most

theorem parsedLexemes_of_staysWithin (most : Nat) (h : StaysWithin settings c most) :
    parsedLexemes { settings with maxDepth := some most } c =
      parsedLexemes { settings with maxDepth := none } c := by
  rcases parsedLexemes_limited settings c most with hsame | ⟨_, _, _, _, _, _, hread, hdepth⟩
  · exact hsame
  · -- the bracket at the cut would open list number `most + 1`
    have hbeyond := h _ hread
    rw [List.foldl_append, hdepth] at hbeyond
    exact absurd hbeyond (Nat.not_succ_le_self most)

theorem staysWithin_of_parsedLexemes (most : Nat)
    (h : parsedLexemes { settings with maxDepth := some most } c =
      parsedLexemes { settings with maxDepth := none } c) : StaysWithin settings c most := by
  intro ts hts
  have hsame : delivered { settings with maxDepth := some most } c =
      delivered { settings with maxDepth := none } c := by
    rw [delivered, delivered, h]
  rw [← hsame] at hts
  exact depth_delivered_le { settings with maxDepth := some most } c ts hts most rfl

theorem parseInto_of_staysWithin (most : Nat) (h : StaysWithin settings c most) (start : Int)
    {σ : Type} [Sink σ] (sink : σ) :
    parseInto { settings with maxDepth := some most } c start sink =
      parseInto { settings with maxDepth := none } c start sink := by
  have hsame := parsedLexemes_of_staysWithin settings c most h
  simp only [parseInto, parse, delivered, outcomeAt, hsame]

end Runs

end SExpression
