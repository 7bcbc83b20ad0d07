import SExpression.Proofs.Delivery

/-! # How a parse ends, by its brackets

The outcome of a parse that stays within the nesting limit is read off the matching of its brackets,
and its balance is the number of lists it opens beyond those it closes (`outcome_by_matching`).
The counter of a parse and its stack agree as long as no bracket is stray
(`length_opened`), and so a truncated parse ends above the balance it began with. -/
set_option autoImplicit false
namespace SExpression

theorem balance_eq_count (ts : List Token) :
    balance ts = (ts.count .opening : Int) - ts.count .closing := by
  induction ts with
  | nil => rfl
  | cons t ts ih =>
      rw [balance_cons, ih]
      cases t <;> simp [Token.step] <;> omega

section Counter

theorem balance_token? (policy : NumericPolicy) (l : Lexeme) (hopening : l ≠ .opening)
    (hclosing : l ≠ .closing) (ts : List Token) :
    balance ((l.token? policy).toList ++ ts) = balance ts := by
  cases l with
  | opening => exact absurd rfl hopening
  | closing => exact absurd rfl hclosing
  | quoted text closed => simp [Lexeme.token?, Token.step]
  | bare text =>
      cases text with
      | nil => simp [Lexeme.token?]
      | cons b text => simp [Lexeme.token?, step_ofBare]

/-- Without a stray bracket the counter of open lists is the height of the stack. -/
theorem length_opened (policy : NumericPolicy) (n : Nesting) (ls : List (Located Lexeme))
    (h : (ls.foldl Nesting.after n).stray = none) :
    ((ls.foldl Nesting.after n).opened.length : Int) =
      n.opened.length + balance (ls.filterMap fun l => l.value.token? policy) := by
  induction ls generalizing n with
  | nil => simp
  | cons l ls ih =>
      have hrest := ih (n.after l) h
      rw [List.foldl_cons, hrest]
      rcases n.after_cases l with ⟨hopening, hafter⟩ | ⟨o, outer, hclosing, hstack, hafter⟩ |
        ⟨_, _, hafter⟩ | ⟨hopening, hclosing, hafter⟩
      · rw [hafter, tokens_cons]
        simp only [hopening, Lexeme.token?, Option.toList_some, List.singleton_append, balance_cons,
          Token.step, List.length_cons]
        omega
      · rw [hafter, hstack, tokens_cons]
        simp only [hclosing, Lexeme.token?, Option.toList_some, List.singleton_append, balance_cons,
          Token.step, List.length_cons]
        omega
      · -- here the bracket would be stray, now and for good
        have hstray : ∃ o, (n.after l).stray = some o := by
          rw [hafter]
          cases n.stray with
          | none => exact ⟨l.offset, rfl⟩
          | some o => exact ⟨o, rfl⟩
        obtain ⟨o, ho⟩ := hstray
        rw [List.foldl_cons, Nesting.foldl_after_stray _ o ls ho] at h
        cases h
      · rw [hafter, tokens_cons, balance_token? policy l.value hopening hclosing]

end Counter

section Outcome

theorem map_eq_truncated {P Q : Type} (f : P → Q) (o : Outcome P) (q : Q)
    (h : o.map f = .truncated q) : ∃ p, o = .truncated p ∧ f p = q := by
  cases o with
  | truncated p => exact ⟨p, rfl, by simpa [Outcome.map] using h⟩
  | complete => cases h
  | malformed error place => cases h

theorem map_eq_complete {P Q : Type} (f : P → Q) (o : Outcome P) (h : o.map f = .complete) :
    o = .complete := by
  cases o with
  | complete => rfl
  | truncated place => cases h
  | malformed error place => cases h

theorem outcome_eq_truncated (n : Nesting) (o : Nat) (h : n.outcome = .truncated o) :
    n.stray = none ∧ 0 < n.opened.length := by
  unfold Nesting.outcome at h
  split at h
  · cases h
  · cases h
  · rename_i hstray hopened
    exact ⟨hstray, by simp [hopened]⟩

variable (settings : Settings) (c : Cursor) (d : Dissection)
  (hd : d.IsOf settings.escapes c.bytes)

include hd in
/-- Within the limit a parse reads all lexemes, and the stack decides the outcome. -/
theorem parsedLexemes_within (start : Int) (gap : Bytes) (parts : List (Bytes × Lexeme))
    (h : d.parts = (gap, .opening) :: parts)
    (hlimit : ∀ place, (parse settings c start).outcome ≠ .malformed .nestingTooDeep place) :
    parsedLexemes settings c =
      (d.lexemesIn c, ((d.lexemesIn c).foldl Nesting.after .start).outcome) := by
  have hcourse := parsedLexemes_opening settings c d hd gap parts h
  rcases matchBrackets_cases settings.maxDepth .start (d.lexemesIn c) with
    ⟨pre, l, post, _, _, _, hcut⟩ | hall
  · exfalso
    apply hlimit (.ofOffset c.buffer l.offset)
    simp only [parse, outcomeAt, hcourse, hcut, Outcome.map]
  · rw [hcourse, hall]

include hd in
/-- Where a list is left open, more are opened than closed. -/
theorem balance_pos_of_truncated (start : Int)
    (hlimit : ∀ place, (parse settings c start).outcome ≠ .malformed .nestingTooDeep place)
    (o : Nat) (ho : outcomeAt settings c = .truncated o) : 0 < balance (delivered settings c) := by
  cases hparts : d.parts with
  | nil =>
      rw [outcomeAt, parsedLexemes_blank settings c d hd hparts] at ho
      cases ho
  | cons part parts =>
      obtain ⟨gap, l⟩ := part
      by_cases hl : l = .opening
      · subst hl
        have hcourse := parsedLexemes_within settings c d hd start gap parts hparts hlimit
        rw [outcomeAt, hcourse] at ho
        obtain ⟨hstray, hopen⟩ := outcome_eq_truncated _ o ho
        have hcount := length_opened settings.numeric .start _ hstray
        simp only [Nesting.start, List.length_nil] at hcount hopen
        simp only [delivered, hcourse, Nesting.start]
        omega
      · rw [outcomeAt, parsedLexemes_other settings c d hd gap l parts hparts hl] at ho
        cases ho

end Outcome

/-- The text `()) (`, which opens as many lists as it closes. -/
def overclosed : Bytes := [byte '(', byte ')', byte ')', byte ' ', byte '(']

end SExpression
