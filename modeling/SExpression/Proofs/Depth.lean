import SExpression.Report
import SExpression.Proofs.Matching

/-! # Open lists

The stack of a parse is as high as the number of open lists that a report counts for the same
tokens, stray brackets ignored (`length_opened_eq_depth`).  A limit that the count never exceeds
therefore changes nothing (`matchBrackets_within`).  Stray brackets are counted likewise, and all
brackets match if there are none and no list stays open (`outcome_eq_complete_iff`). -/
set_option autoImplicit false
namespace SExpression
open Report (depthAfter)

section Depth

theorem depthAfter_ofBare (policy : NumericPolicy) (text : Bytes) (depth : Nat) :
    depthAfter depth (Token.ofBare policy text) = depth := by
  rcases Token.ofBare_cases policy text with ⟨r, _, h⟩ | ⟨r, _, h⟩ | h <;> rw [h] <;> rfl

theorem foldl_depthAfter_token? (policy : NumericPolicy) (l : Lexeme) (hopening : l ≠ .opening)
    (hclosing : l ≠ .closing) (depth : Nat) :
    (l.token? policy).toList.foldl depthAfter depth = depth := by
  cases l with
  | opening => exact absurd rfl hopening
  | closing => exact absurd rfl hclosing
  | quoted text closed => rfl
  | bare text =>
      cases text with
      | nil => rfl
      | cons b text => exact depthAfter_ofBare policy (b :: text) depth

theorem length_opened_eq_depth (policy : NumericPolicy) (n : Nesting) (ls : List (Located Lexeme)) :
    (ls.foldl Nesting.after n).opened.length =
      (ls.filterMap fun l => l.value.token? policy).foldl depthAfter n.opened.length := by
  induction ls generalizing n with
  | nil => rfl
  | cons l ls ih =>
      rw [List.foldl_cons, ih, tokens_cons, List.foldl_append]
      congr 1
      rcases n.after_cases l with ⟨hopening, hafter⟩ | ⟨o, outer, hclosing, hstack, hafter⟩ |
        ⟨hclosing, hstack, hafter⟩ | ⟨hopening, hclosing, hafter⟩
      · rw [hafter, hopening]
        rfl
      · rw [hafter, hclosing, hstack]
        rfl
      · rw [hafter, hclosing, hstack]
        rfl
      · rw [hafter, foldl_depthAfter_token? policy l.value hopening hclosing]

theorem matchBrackets_within (policy : NumericPolicy) (limit : Option Nat)
    (ls : List (Located Lexeme))
    (h : ∀ ts, ts <+: ls.filterMap (fun l => l.value.token? policy) →
      ∀ most ∈ limit, ts.foldl depthAfter 0 ≤ most) :
    matchBrackets limit .start ls = (ls, (ls.foldl Nesting.after .start).outcome) := by
  rcases matchBrackets_cases limit .start ls with ⟨pre, l, post, rfl, hopening, hfull, _⟩ | hall
  · exfalso
    cases limit with
    | none => cases hfull
    | some most =>
        -- with the bracket the tokens before it would open one list too many
        have hprefix : (pre ++ [l]).filterMap (fun l => l.value.token? policy) <+:
            (pre ++ l :: post).filterMap fun l => l.value.token? policy := by
          refine ⟨post.filterMap fun l => l.value.token? policy, ?_⟩
          rw [← List.filterMap_append, List.append_assoc, List.singleton_append]
        have hmost := h _ hprefix most rfl
        have hheight := length_opened_eq_depth policy .start (pre ++ [l])
        have hbefore : most ≤ (pre.foldl Nesting.after .start).opened.length := of_decide_eq_true hfull
        rw [List.foldl_append, List.foldl_cons, List.foldl_nil, Nesting.after_opening _ l hopening,
          List.length_cons] at hheight
        simp only [Nesting.start, List.length_nil] at hheight hbefore
        omega
  · exact hall

end Depth

section Strays

/-- The number of closing brackets that close nothing, after tokens that leave `depth` lists open. -/
def strayCount (depth : Nat) : List Token → Nat
  | [] => 0
  | t :: rest =>
    (if t = .closing ∧ depth = 0 then 1 else 0) + strayCount (depthAfter depth t) rest

theorem strayCount_append (depth : Nat) (ts us : List Token) :
    strayCount depth (ts ++ us) =
      strayCount depth ts + strayCount (ts.foldl depthAfter depth) us := by
  induction ts generalizing depth with
  | nil => simp [strayCount]
  | cons t ts ih =>
      rw [List.cons_append, strayCount, ih, strayCount, List.foldl_cons, Nat.add_assoc]

theorem strayCount_token? (policy : NumericPolicy) (l : Lexeme) (hclosing : l ≠ .closing)
    (depth : Nat) : strayCount depth (l.token? policy).toList = 0 := by
  cases l with
  | opening => rfl
  | closing => exact absurd rfl hclosing
  | quoted text closed => rfl
  | bare text =>
      cases text with
      | nil => rfl
      | cons b text =>
          rcases Token.ofBare_cases policy (b :: text) with ⟨r, _, h⟩ | ⟨r, _, h⟩ | h <;>
            simp [Lexeme.token?, strayCount, h]

theorem stray_foldl_iff (policy : NumericPolicy) (n : Nesting) (ls : List (Located Lexeme)) :
    (ls.foldl Nesting.after n).stray = none ↔
      n.stray = none ∧
        strayCount n.opened.length (ls.filterMap fun l => l.value.token? policy) = 0 := by
  induction ls generalizing n with
  | nil => simp [strayCount]
  | cons l ls ih =>
      have hheight := length_opened_eq_depth policy n [l]
      rw [tokens_cons, List.filterMap_nil, List.append_nil, List.foldl_cons, List.foldl_nil] at hheight
      rw [List.foldl_cons, ih, tokens_cons, strayCount_append, ← hheight]
      rcases n.after_cases l with ⟨hopening, hafter⟩ | ⟨o, outer, hclosing, hstack, hafter⟩ |
        ⟨hclosing, hstack, hafter⟩ | ⟨_, hclosing, hafter⟩
      · rw [hafter, strayCount_token? policy l.value (by simp [hopening]), Nat.zero_add]
      · rw [hafter]
        simp [hclosing, hstack, Lexeme.token?, strayCount]
      · rw [hafter]
        cases n.stray <;> simp [hclosing, hstack, Lexeme.token?, strayCount]
      · rw [hafter, strayCount_token? policy l.value hclosing, Nat.zero_add]

/-- Whether brackets match can be told from the tokens. -/
theorem outcome_eq_complete_iff (policy : NumericPolicy) (ls : List (Located Lexeme)) :
    (ls.foldl Nesting.after .start).outcome = .complete ↔
      (ls.filterMap fun l => l.value.token? policy).foldl depthAfter 0 = 0 ∧
        strayCount 0 (ls.filterMap fun l => l.value.token? policy) = 0 := by
  have hheight := length_opened_eq_depth policy .start ls
  have hstrays := stray_foldl_iff policy .start ls
  simp only [Nesting.start, List.length_nil, true_and] at hheight hstrays
  rw [← hheight, ← hstrays]
  unfold Nesting.outcome
  cases hstray : (ls.foldl Nesting.after ⟨[], none⟩).stray with
  | some o => simp [Nesting.start, hstray]
  | none =>
      cases hstack : (ls.foldl Nesting.after ⟨[], none⟩).opened <;>
        simp [Nesting.start, hstray, hstack]

end Strays

end SExpression
