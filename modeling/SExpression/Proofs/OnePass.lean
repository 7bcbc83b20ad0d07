import SExpression.Proofs.CursorLexemes
import SExpression.Proofs.Matching

/-! # One pass and two

A reader takes one lexeme after the other and forgets it; the parse finds all lexemes and matches
their brackets afterwards.  They agree: what is still to come of a reader is read off the lexemes
under its cursor (`Reader.forecast`), no turn changes that (`leadsTo_turn`), and so a reader ends
with what the parse says (`read_eq_parseInto`).  The counter of open lists and the stack stay in
step as long as no bracket is stray (`Reader.IsSound`). -/
set_option autoImplicit false
namespace SExpression

theorem step_ofBare (policy : NumericPolicy) (text : Bytes) : (Token.ofBare policy text).step = 0 := by
  rcases Token.ofBare_cases policy text with ⟨r, _, h⟩ | ⟨r, _, h⟩ | h <;> rw [h] <;> rfl

theorem ofBare_eq_atom (policy : NumericPolicy) (text text' : Bytes)
    (h : Token.ofBare policy text = .atom text') : text' = text := by
  rcases Token.ofBare_cases policy text with ⟨r, _, hr⟩ | ⟨r, _, hr⟩ | hr <;> rw [h] at hr <;> cases hr
  rfl

/-- A range that can be read is classified by its bytes. -/
theorem Cursor.bareToken_eq (policy : NumericPolicy) (c : Cursor) (h : c.text = c.bytes) :
    c.bareToken policy = Token.ofBare policy c.bytes := by
  rw [bareToken]
  split
  · rename_i text hatom
    rw [h, hatom, ofBare_eq_atom policy _ _ hatom]
  · rfl

/-- The same of the first bytes of a range, if they can be read. -/
theorem Cursor.bareToken_take (policy : NumericPolicy) (c : Cursor) {n : Nat} (hn : n ≤ c.length)
    (h : c.textTo (c.advance n) = c.bytes.take n) :
    (c.take n).bareToken policy = Token.ofBare policy (c.bytes.take n) := by
  rw [bareToken_eq _ _ (by rw [c.text_take n hn, h, bytes_take]), bytes_take]

namespace Reader
variable {σ : Type} [Sink σ] (settings : Settings) (start : Int)

section Forecasts

/-- What a reader will end with, by the lexemes that are left. -/
def forecast (r : Reader σ) : σ × Parsed :=
  let course := matchBrackets settings.maxDepth r.nesting (r.cursor.lexemes settings.escapes)
  let ts := course.1.filterMap fun l => l.value.token? settings.numeric
  (feed r.sink ts,
    ⟨r.cursor.atEnd, r.balance + SExpression.balance ts,
      course.2.map (Position.ofOffset r.cursor.buffer)⟩)

/-- The reader stands between lexemes, and its counter agrees with its stack. -/
structure IsSound (r : Reader σ) : Prop where
  utf8 : r.cursor.buffer.IsUtf8
  whole : r.cursor.IsWhole
  counts : r.nesting.stray = none → r.balance = start + r.nesting.opened.length

theorem forecast_move (r : Reader σ) (c : Cursor) (hbuffer : c.buffer = r.cursor.buffer)
    (hend : c.atEnd = r.cursor.atEnd)
    (hlexemes : c.lexemes settings.escapes = r.cursor.lexemes settings.escapes) :
    forecast settings (r.moveTo c) = forecast settings r := by
  simp only [forecast, moveTo, hbuffer, hend, hlexemes]

/-- Reading a lexeme changes nothing, if it does not nest too deep. -/
theorem forecast_lexeme (r r' : Reader σ) (l : Located Lexeme)
    (hbuffer : r'.cursor.buffer = r.cursor.buffer) (hend : r'.cursor.atEnd = r.cursor.atEnd)
    (hlexemes : r.cursor.lexemes settings.escapes = l :: r'.cursor.lexemes settings.escapes)
    (hfits : ¬ (l.value = .opening ∧ r.nesting.isFull settings.maxDepth = true))
    (hnesting : r'.nesting = r.nesting.after l)
    (hsink : r'.sink = feed r.sink (l.value.token? settings.numeric).toList)
    (hbalance : r'.balance =
      r.balance + SExpression.balance (l.value.token? settings.numeric).toList) :
    forecast settings r' = forecast settings r := by
  simp only [forecast, hbuffer, hend, hlexemes, matchBrackets, if_neg hfits, hnesting, hsink,
    hbalance, tokens_cons, feed_append, balance_append, Int.add_assoc]

theorem forecast_end (r : Reader σ)
    (h : ∀ l ∈ r.cursor.lexemes settings.escapes, l.value = .bare []) :
    forecast settings r =
      (r.sink, ⟨r.cursor.atEnd, r.balance,
        r.nesting.outcome.map (Position.ofOffset r.cursor.buffer)⟩) := by
  have hcourse := matchBrackets_plain settings.maxDepth r.nesting (r.cursor.lexemes settings.escapes)
    fun l hl => by simp [h l hl]
  have htokens : (r.cursor.lexemes settings.escapes).filterMap
      (fun l => l.value.token? settings.numeric) = [] := by
    rw [List.filterMap_eq_nil_iff]
    intro l hl
    rw [h l hl]
    rfl
  simp [forecast, hcourse, htokens]

theorem forecast_tooDeep (r : Reader σ) (l : Located Lexeme) (ls : List (Located Lexeme))
    (hlexemes : r.cursor.lexemes settings.escapes = l :: ls)
    (hfull : l.value = .opening ∧ r.nesting.isFull settings.maxDepth = true) :
    forecast settings r =
      (r.sink, ⟨r.cursor.atEnd, r.balance,
        .malformed .nestingTooDeep (.ofOffset r.cursor.buffer l.offset)⟩) := by
  simp [forecast, hlexemes, matchBrackets, if_pos hfull, Outcome.map]

theorem result_tooDeep (r : Reader σ) {b : UInt8} {rest : Bytes}
    (hbytes : r.cursor.bytes = b :: rest) (hopening : b = byte '(')
    (hfull : r.nesting.isFull settings.maxDepth = true) :
    (r.moveTo r.cursor.atEnd).result (.malformed .nestingTooDeep r.cursor.start) =
      forecast settings r := by
  subst hopening
  have hlexemes := r.cursor.lexemes_front settings.escapes hbytes rfl (by decide) .opening 0 rfl
    (Nat.zero_le _)
  rw [forecast_tooDeep settings r _ _ hlexemes ⟨rfl, hfull⟩]
  rfl

end Forecasts

section Turns

/-- The balance falls below its start where the stack is empty. -/
theorem closeList_nesting (r : Reader σ)
    (hcounts : r.nesting.stray = none → r.balance = start + r.nesting.opened.length) :
    (r.closeList start).nesting = r.nesting.after ⟨r.cursor.start, .closing⟩ := by
  cases hopened : r.nesting.opened with
  | nil =>
      rw [Nesting.after_closing_nil _ _ rfl hopened]
      cases hstray : r.nesting.stray with
      | some o => simp [closeList, hopened, hstray]
      | none =>
          have hcounts := hcounts hstray
          have hbelow : r.balance - 1 < start := by
            rw [hopened, List.length_nil] at hcounts
            omega
          simp [closeList, hopened, hstray, hbelow]
  | cons o outer =>
      rw [Nesting.after_closing_cons _ _ o outer rfl hopened]
      cases hstray : r.nesting.stray with
      | some o => simp [closeList, hopened, hstray]
      | none =>
          have hcounts := hcounts hstray
          rw [hopened, List.length_cons] at hcounts
          have habove : ¬ r.balance - 1 < start := by omega
          simp [closeList, hopened, hstray, habove]

/-- A turn leads to the given end. -/
def LeadsTo (origin : Nat) (final : σ × Parsed) : Turn σ → Prop
  | .more r => r.IsSound start ∧ forecast settings r = final
  | .finished r => r.result (r.outcome start origin) = final
  | .tooDeep r offset => r.result (.malformed .nestingTooDeep offset) = final

variable (r : Reader σ) (h : r.IsSound start) {b : UInt8} {rest : Bytes}
  (hbytes : r.cursor.bytes = b :: rest)
include h

omit [Sink σ] in
/-- At the end of the range the counter tells whether a list is open. -/
theorem outcome_eq (origin : Nat) : r.outcome start origin = r.nesting.outcome := by
  unfold outcome Nesting.outcome
  cases hstray : r.nesting.stray with
  | some offset => rfl
  | none =>
      have hcounts := h.counts hstray
      cases hopened : r.nesting.opened with
      | nil =>
          rw [hopened] at hcounts
          have hbalanced : r.balance = start := by simpa using hcounts
          simp [hbalanced]
      | cons o outer =>
          rw [hopened, List.length_cons] at hcounts
          have hopen : r.balance ≠ start := by omega
          simp [hopen]

theorem result_end (origin : Nat) (hnil : r.cursor.bytes = []) :
    r.result (r.outcome start origin) = forecast settings r := by
  have hlexemes := Cursor.lexemes_nil settings.escapes hnil
  rw [forecast_end settings r (by simp [hlexemes]), outcome_eq start r h, result,
    ← Cursor.eq_atEnd_of_nil _ hnil]

include hbytes

theorem openList_sound (hopening : b = byte '(')
    (hfits : ¬ r.nesting.isFull settings.maxDepth = true) :
    (r.openList).IsSound start ∧
      forecast settings (r.openList) = forecast settings r := by
  subst hopening
  have hfront : r.cursor.bytes[0]? = some (byte '(') := by rw [hbytes]; rfl
  refine ⟨⟨h.utf8, r.cursor.isWhole_past h.utf8 0 _ hfront (by decide), ?_⟩, ?_⟩
  · intro hstray
    have hcounts := h.counts hstray
    simp only [openList, List.length_cons]
    omega
  · have hlexemes := r.cursor.lexemes_front settings.escapes hbytes rfl (by decide) .opening 0 rfl
      (Nat.zero_le _)
    apply forecast_lexeme settings r (r.openList) _ rfl rfl hlexemes
    · exact fun hdeep => hfits hdeep.2
    · rw [Nesting.after_opening _ _ rfl]
      rfl
    · rfl
    · rfl

theorem closeList_sound (hclosing : b = byte ')') :
    (r.closeList start).IsSound start ∧
      forecast settings (r.closeList start) = forecast settings r := by
  subst hclosing
  have hfront : r.cursor.bytes[0]? = some (byte ')') := by rw [hbytes]; rfl
  refine ⟨⟨h.utf8, r.cursor.isWhole_past h.utf8 0 _ hfront (by decide), ?_⟩, ?_⟩
  · intro hstray
    simp only [closeList] at hstray ⊢
    split at hstray
    · cases hstray
    · rename_i hkept
      have hcounts := h.counts hstray
      have habove : ¬ r.balance - 1 < start := fun hbelow => hkept ⟨hbelow, hstray⟩
      rw [List.length_tail]
      omega
  · have hlexemes := r.cursor.lexemes_front settings.escapes hbytes rfl (by decide) .closing 0 rfl
      (Nat.zero_le _)
    apply forecast_lexeme settings r (r.closeList start) _ rfl rfl hlexemes
    · simp
    · exact closeList_nesting start r h.counts
    · rfl
    · rfl

theorem quoted_sound (hquote : b = byte '"') :
    ∃ next text, r.cursor.quoted? (byte '"') settings.escapes = some (next, text) ∧
      (r.deliver next (.string text)).IsSound start ∧
      forecast settings (r.deliver next (.string text)) = forecast settings r := by
  obtain ⟨text, closed, n, hn, hfirst, hquoted, hwhole⟩ :=
    r.cursor.quoted?_front settings.escapes hbytes h.utf8 hquote
  have hplain : isWhitespace b = false ∧ b ≠ byte ';' := by
    rw [hquote]
    decide
  have hlexemes := r.cursor.lexemes_front settings.escapes hbytes hplain.1 hplain.2 _ n hfirst hn
  refine ⟨_, text, hquoted, ⟨h.utf8, hwhole, h.counts⟩, ?_⟩
  apply forecast_lexeme settings r (r.deliver (r.cursor.advance (n + 1)) (.string text)) _ rfl rfl
    hlexemes
  · simp
  · rw [Nesting.after_other _ _ (by simp) (by simp)]
    rfl
  · rfl
  · simp [deliver, Lexeme.token?, Token.step]

omit hbytes in
theorem skipToNextLine_sound (hsign : r.cursor.peek? = some (byte ';')) :
    (r.moveTo r.cursor.skipToNextLine).IsSound start ∧
      forecast settings (r.moveTo r.cursor.skipToNextLine) = forecast settings r :=
  ⟨⟨h.utf8, r.cursor.isWhole_skipToNextLine h.utf8, h.counts⟩,
    forecast_move settings r _ rfl rfl (r.cursor.lexemes_skipToNextLine _ hsign)⟩

omit hbytes in
theorem torn_sound (htorn : r.cursor.IsTornText) :
    (r.moveTo (r.cursor.advance 1)).IsSound start ∧
      forecast settings (r.moveTo (r.cursor.advance 1)) = forecast settings r := by
  have hnext := htorn.advance 1
  refine ⟨⟨h.utf8, Or.inr hnext, h.counts⟩, ?_⟩
  rw [forecast_end settings r (htorn.lexemes _),
    forecast_end settings (r.moveTo (r.cursor.advance 1)) (hnext.lexemes _)]
  rfl

theorem bare_sound (hb : isBoundary b = false)
    (htext : (r.cursor.takeUntil isBoundary).2 ≠ []) :
    let word := r.cursor.takeUntil isBoundary
    let t := (r.cursor.take word.2.length).bareToken settings.numeric
    (r.deliver word.1 t).IsSound start ∧
      forecast settings (r.deliver word.1 t) = forecast settings r := by
  have huntorn : ¬ r.cursor.IsTornText := fun htorn => htext htorn.takeUntil
  obtain ⟨run, hn, htake, hfirst, hword, hwhole⟩ :=
    r.cursor.takeUntil_front settings.escapes hbytes h.whole huntorn hb
  have htaken : r.cursor.textTo (r.cursor.advance (run.length + 1)) = b :: run := by
    have hpair : r.cursor.textTo (r.cursor.takeUntil isBoundary).1 = b :: run :=
      congrArg Prod.snd hword
    rwa [hword] at hpair
  have hle : run.length + 1 ≤ r.cursor.length := by
    rw [r.cursor.length_front hbytes]
    omega
  have htoken : (r.cursor.take (b :: run).length).bareToken settings.numeric =
      Token.ofBare settings.numeric (b :: run) := by
    rw [List.length_cons, Cursor.bareToken_take _ _ hle (htaken.trans htake.symm), htake]
  have hplain := hb
  simp only [isBoundary, Bool.or_eq_false_iff, beq_eq_false_iff_ne] at hplain
  have hlexemes := r.cursor.lexemes_front settings.escapes hbytes hplain.2 hplain.1.2 _ _ hfirst hn
  simp only [hword]
  rw [htoken]
  refine ⟨⟨h.utf8, hwhole, h.counts⟩, ?_⟩
  apply forecast_lexeme settings r (r.deliver (r.cursor.advance (run.length + 1)) _) _ rfl rfl
    hlexemes
  · simp
  · rw [Nesting.after_other _ _ (by simp) (by simp)]
    rfl
  · rfl
  · simp [deliver, Lexeme.token?, step_ofBare]

end Turns

section Runs

theorem leadsTo_takeFront (r : Reader σ) (h : r.IsSound start)
    (hspace : ∀ b ∈ r.cursor.bytes.head?, isWhitespace b = false) (origin : Nat) :
    LeadsTo settings start origin (forecast settings r) (takeFront settings start r) := by
  cases hbytes : r.cursor.bytes with
  | nil =>
      have hpeek : r.cursor.peek? = none := by rw [Cursor.peek?, hbytes]; rfl
      simp only [takeFront, hpeek]
      exact result_end settings start r h origin hbytes
  | cons b rest =>
      have hpeek : r.cursor.peek? = some b := by rw [Cursor.peek?, hbytes]; rfl
      simp only [takeFront, hpeek]
      split
      · rename_i hsign
        rw [hsign] at hpeek
        exact skipToNextLine_sound settings start r h hpeek
      split
      · rename_i hquote
        obtain ⟨next, text, hquoted, hsound⟩ := quoted_sound settings start r h hbytes hquote
        simp only [hquoted]
        exact hsound
      split
      · rename_i hclosing
        exact closeList_sound settings start r h hbytes hclosing
      split
      · rename_i hopening
        split
        · rename_i hfull
          exact result_tooDeep settings r hbytes hopening hfull
        · rename_i hfits
          exact openList_sound settings start r h hbytes hopening hfits
      · rename_i hsign hquote hclosing hopening
        have hb : isBoundary b = false := by
          have := hspace b (by rw [hbytes]; rfl)
          simp [isBoundary, hsign, hquote, hclosing, hopening, this]
        split
        · rename_i hlost
          have htorn : r.cursor.IsTornText := by
            by_contra huntorn
            obtain ⟨run, _, _, _, hword, _⟩ :=
              r.cursor.takeUntil_front settings.escapes hbytes h.whole huntorn hb
            rw [hword] at hlost
            cases hlost
          exact torn_sound settings start r h htorn
        · rename_i hread
          exact bare_sound settings start r h hbytes hb hread

theorem leadsTo_turn (r : Reader σ) (h : r.IsSound start) (origin : Nat) :
    LeadsTo settings start origin (forecast settings r) (turn settings start r) := by
  have hsound : (r.moveTo r.cursor.skipWhitespace).IsSound start :=
    ⟨h.utf8, r.cursor.isWhole_skipWhitespace h.utf8 h.whole, h.counts⟩
  have hforecast := forecast_move settings r r.cursor.skipWhitespace rfl rfl
    (r.cursor.lexemes_skipWhitespace _)
  rw [← hforecast]
  exact leadsTo_takeFront settings start _ hsound r.cursor.head_skipWhitespace origin

omit [Sink σ] in
/-- A reader that begins at an opening bracket. -/
theorem isSound_front (front : Cursor) (hutf8 : front.buffer.IsUtf8)
    (hpeek : front.peek? = some (byte '(')) (sink : σ) :
    IsSound start (⟨front, sink, start, .start⟩ : Reader σ) := by
  have hfront : front.bytes[0]? = some (byte '(') := by rwa [← List.head?_eq_getElem?]
  have hwhole := front.isWhole_at 0 _ hfront (by decide)
  rw [Cursor.advance_zero] at hwhole
  exact ⟨hutf8, hwhole, fun _ => (Int.add_zero start).symm⟩

theorem run_eq_forecast (r : Reader σ) (h : r.IsSound start) (origin : Nat) :
    run settings start origin r = forecast settings r := by
  induction hn : r.cursor.length using Nat.strong_induction_on generalizing r with
  | _ n ih =>
    have hturn := leadsTo_turn settings start r h origin
    rw [run]
    split
    · rename_i r' hmore
      rw [hmore] at hturn
      have hshort := length_turn settings start hmore
      rw [ih r'.cursor.length (by omega) r' hturn.1 rfl]
      exact hturn.2
    · rename_i r' hfinished
      rw [hfinished] at hturn
      exact hturn
    · rename_i r' offset hdeep
      rw [hdeep] at hturn
      exact hturn

theorem read_eq_parseInto (c : Cursor) (hutf8 : c.buffer.IsUtf8) (sink : σ) :
    read settings start c sink = parseInto settings c start sink := by
  obtain ⟨hbuffer, hend, hlexemes, hgap⟩ := c.skipGap_spec settings.escapes
  simp only [read]
  generalize c.skipGap = front at hbuffer hend hlexemes hgap
  have hstop : front.atEnd.stop = c.atEnd.stop := by rw [hend]
  change front.stop = c.stop at hstop
  cases hbytes : front.bytes with
  | nil =>
      have hpeek : front.peek? = none := by rw [Cursor.peek?, hbytes]; rfl
      have hnil : c.lexemes settings.escapes = [] := by
        rw [← hlexemes, Cursor.lexemes_nil _ hbytes]
      have hdone : front = c.atEnd := by rw [← hend, ← Cursor.eq_atEnd_of_nil _ hbytes]
      simp only [hpeek]
      simp [result, hdone, parseInto, parse, delivered, outcomeAt, parsedLexemes, hnil, Outcome.map]
  | cons b rest =>
      have hpeek : front.peek? = some b := by rw [Cursor.peek?, hbytes]; rfl
      obtain ⟨hspace, hsign⟩ := hgap b (by rw [hbytes]; rfl)
      obtain ⟨l, ls, hfront, hopening⟩ :=
        front.exists_lexemes_front settings.escapes hbytes hspace hsign
      rw [hlexemes] at hfront
      simp only [hpeek]
      split
      · rename_i hb
        have hsound : IsSound start (⟨front, sink, start, .start⟩ : Reader σ) :=
          isSound_front start front (by rwa [hbuffer]) (by rw [hpeek, hb]) sink
        rw [run_eq_forecast settings start _ hsound]
        simp only [forecast, hlexemes, hend, hbuffer, parseInto, parse, delivered, outcomeAt,
          parsedLexemes, hfront, hopening.mpr hb, if_true]
      · rename_i hb
        have hother : l ≠ .opening := fun h => hb (hopening.mp h)
        simp only [moveTo, result, hend, hbuffer, parseInto, parse, delivered, outcomeAt,
          parsedLexemes, hfront, if_neg hother, foundInstead, Cursor.text, hstop, Outcome.map]
        simp [Cursor.atEnd]

end Runs

end Reader

end SExpression
