import SExpression.Proofs.BareRuns

/-! # What the loop of a parse remembers

Between its turns a parse remembers a stack of offsets, a balance and the offset of a stray bracket.
All three are told here from the readers that the loop has gone through (`Reader.HasPassed`), which
have met one bracket each or none (`Reader.met`) and some of them a closing bracket while the stack was
empty (`Reader.strays`).

The balance alone does not give the height of the stack: a closing bracket that finds the stack empty
lowers the one and not the other.  So the two differ by the number of stray brackets
(`HasPassed.counts`), and the first of these is where the balance falls below its start while none is
remembered (`HasPassed.firstStray`).  From both it follows that the stack is that of the brackets met
(`HasPassed.nesting_eq`), and hence what it holds, and in which order.

Every turn takes at least one byte, and so does every pass of the loop over the comments at the front,
so that both come to an end (`HasPassed.exists_last`, `Cursor.remarksTo_iff`). -/
set_option autoImplicit false
namespace SExpression

def Lexeme.isBracket : Lexeme → Bool
  | opening | closing => true
  | _ => false

def brackets (ls : List (Located Lexeme)) : List (Located Lexeme) :=
  ls.filter fun l => l.value.isBracket

namespace Cursor

section Front

/-- From the first cursor the loop over the comments at the front comes to the second: it passes a
comment and the whitespace after it as long as one stands there. -/
inductive RemarksTo : Cursor → Cursor → Prop where
  | done (c : Cursor) : c.peek? ≠ some (byte ';') → RemarksTo c c
  | again (c d : Cursor) : c.peek? = some (byte ';') → RemarksTo c.skipToNextLine d → RemarksTo c d

theorem remarksTo_iff (c d : Cursor) : c.RemarksTo d ↔ d = c.skipRemarks := by
  refine ⟨?_, ?_⟩
  · intro h
    induction h with
    | done c hsign => rw [skipRemarks, if_neg hsign]
    | again c d hsign _ ih => rw [skipRemarks, if_pos hsign, ih]
  · rintro rfl
    fun_induction skipRemarks c with
    | case1 c hsign ih => exact .again c _ hsign ih
    | case2 c hsign => exact .done c hsign

/-- The bracket at the front, if one stands there. -/
def bracket? (c : Cursor) : Option (Located Lexeme) :=
  if c.peek? = some (byte '(') then some ⟨c.start, .opening⟩
  else if c.peek? = some (byte ')') then some ⟨c.start, .closing⟩
  else none

variable {c : Cursor}

theorem bracket?_opening (hpeek : c.peek? = some (byte '(')) :
    c.bracket? = some ⟨c.start, .opening⟩ := if_pos hpeek

theorem bracket?_closing (hpeek : c.peek? = some (byte ')')) :
    c.bracket? = some ⟨c.start, .closing⟩ := by
  rw [bracket?, if_neg (by rw [hpeek]; decide), if_pos hpeek]

theorem bracket?_of_ne (hopening : c.peek? ≠ some (byte '(')) (hclosing : c.peek? ≠ some (byte ')')) :
    c.bracket? = none := by
  rw [bracket?, if_neg hopening, if_neg hclosing]

theorem start_past_front {b : UInt8} (hpeek : c.peek? = some b) :
    (c.advance 1).start = c.start + 1 :=
  c.start_advance 1 (c.length_pos_of_peek? hpeek)

theorem offset_bracket? {l : Located Lexeme} (h : c.bracket? = some l) :
    l.offset = c.start ∧ (l.value = .opening → c.buffer[l.offset]? = some (byte '(')) := by
  rw [bracket?] at h
  split at h
  · rename_i hpeek
    cases h
    have hfront : c.bytes[0]? = some (byte '(') := by rwa [← List.head?_eq_getElem?]
    exact ⟨rfl, fun _ => c.getElem?_buffer 0 _ hfront⟩
  split at h
  · cases h
    exact ⟨rfl, nofun⟩
  · cases h

theorem bracket?_eq_first (escapes torn : Bool) {b : UInt8} (rest : Bytes) (hpeek : c.peek? = some b) :
    let l := (Lexeme.first escapes torn b rest).1
    c.bracket? = if l.isBracket then some ⟨c.start, l⟩ else none := by
  intro l
  by_cases hopening : b = byte '('
  · subst hopening
    exact bracket?_opening hpeek
  by_cases hclosing : b = byte ')'
  · subst hclosing
    exact bracket?_closing hpeek
  · have hplain : l.isBracket = false := by
      simp only [l, Lexeme.first, if_neg hopening, if_neg hclosing]
      split
      · split <;> rfl
      · rfl
    have hnone : c.bracket? = none :=
      bracket?_of_ne (by simpa [hpeek] using hopening) (by simpa [hpeek] using hclosing)
    rw [hnone, hplain]
    rfl

/-- A lexeme at the front is taken from the brackets of the range, if it is one. -/
theorem brackets_front (c : Cursor) (escapes : Bool) {b : UInt8} {rest : Bytes}
    (hbytes : c.bytes = b :: rest) (hspace : isWhitespace b = false) (hsign : b ≠ byte ';')
    (l : Lexeme) (n : Nat)
    (hfirst : Lexeme.first escapes (!c.buffer.isBoundaryAt c.stop) b rest = (l, n))
    (hn : n ≤ rest.length) :
    brackets (c.lexemes escapes) =
      c.bracket?.toList ++ brackets ((c.advance (n + 1)).lexemes escapes) := by
  have hpeek : c.peek? = some b := by rw [peek?, hbytes]; rfl
  have hkind := bracket?_eq_first escapes (!c.buffer.isBoundaryAt c.stop) rest hpeek
  rw [hfirst] at hkind
  rw [c.lexemes_front escapes hbytes hspace hsign l n hfirst hn, hkind, brackets, brackets,
    List.filter_cons]
  cases l.isBracket <;> rfl

theorem IsTornText.brackets_lexemes (h : c.IsTornText) (escapes : Bool) :
    brackets (c.lexemes escapes) = [] := by
  rw [brackets, List.filter_eq_nil_iff]
  intro l hl
  simp [h.lexemes escapes l hl, Lexeme.isBracket]

end Front

end Cursor

/-- What a parse gives if it ends with this turn. -/
def Turn.result? {σ : Type} (start : Int) (origin : Nat) : Turn σ → Option (σ × Parsed)
  | more _ => none
  | finished r => some (r.result (r.outcome start origin))
  | tooDeep r offset => some (r.result (.malformed .nestingTooDeep offset))

namespace Reader

section Memory
variable {σ : Type}

/-- Where the turn of a reader looks for a lexeme. -/
def front (r : Reader σ) : Cursor := r.cursor.skipWhitespace

/-- The offset of a closing bracket that the turn comes to while no list is open. -/
def stray? (r : Reader σ) : Option Nat :=
  if r.front.peek? = some (byte ')') ∧ r.nesting.opened = [] then some r.front.start else none

/-- The brackets that the turns of the readers came to. -/
def met (past : List (Reader σ)) : List (Located Lexeme) := past.filterMap fun r => r.front.bracket?

def strays (past : List (Reader σ)) : List Nat := past.filterMap stray?

/-- What a reader remembers, and where it stands, after the readers `past`. -/
structure InStep (settings : Settings) (start : Int) (c : Cursor) (past : List (Reader σ))
    (r : Reader σ) : Prop where
  range : r.cursor.Follows c
  /-- What is left got shorter with every turn. -/
  shorter : (past ++ [r]).Pairwise fun q q' => q'.cursor.length < q.cursor.length
  /-- The stack, outermost list first, is in the order of the text. -/
  ascending : r.nesting.opened.reverse.Pairwise (· < ·)
  inside : ∀ o ∈ r.nesting.opened,
    c.start ≤ o ∧ o < c.stop ∧ o < r.cursor.start ∧ c.buffer[o]? = some (byte '(')
  leftOpen : ∀ o, o ∈ r.nesting.opened ↔ ∃ l, LeftOpen (met past) l ∧ l.offset = o
  counts : (r.nesting.opened.length : Int) = r.balance - start + (strays past).length
  firstStray : r.nesting.stray = (strays past).head?
  within : ∀ most ∈ settings.maxDepth, r.nesting.opened.length ≤ most

theorem met_concat (past : List (Reader σ)) (r : Reader σ) :
    met (past ++ [r]) = met past ++ r.front.bracket?.toList := by
  simp only [met, List.filterMap_eq_flatMap_toList, List.flatMap_append, List.flatMap_singleton]

theorem strays_concat (past : List (Reader σ)) (r : Reader σ) :
    strays (past ++ [r]) = strays past ++ r.stray?.toList := by
  simp only [strays, List.filterMap_eq_flatMap_toList, List.flatMap_append, List.flatMap_singleton]

theorem stray?_of_ne {r : Reader σ} (h : r.front.peek? ≠ some (byte ')')) : r.stray? = none :=
  if_neg fun hclosing => h hclosing.1

/-- A bracket is the first to be stray if none was so before and it closes nothing. -/
theorem stray_after_front (r : Reader σ) :
    (r.front.bracket?.toList.foldl Nesting.after r.nesting).stray = r.nesting.stray.or r.stray? := by
  by_cases hclosing : r.front.peek? = some (byte ')')
  · rw [Cursor.bracket?_closing hclosing, Option.toList_some, List.foldl_cons, List.foldl_nil]
    cases hstack : r.nesting.opened with
    | nil => rw [Nesting.after_closing_nil _ _ rfl hstack, stray?, if_pos ⟨hclosing, hstack⟩]
    | cons o outer =>
        rw [Nesting.after_closing_cons _ _ o outer rfl hstack, stray?, if_neg (by simp [hstack]),
          Option.or_none]
  · rw [stray?_of_ne hclosing, Option.or_none]
    by_cases hopening : r.front.peek? = some (byte '(')
    · rw [Cursor.bracket?_opening hopening, Option.toList_some, List.foldl_cons,
        Nesting.after_opening _ _ rfl]
      rfl
    · rw [Cursor.bracket?_of_ne hopening hclosing]
      rfl

/-- As long as no bracket is stray, the balance has risen by the height of the stack. -/
theorem balance_of_strays {start : Int} {past : List (Reader σ)} {r : Reader σ}
    (hcounts : (r.nesting.opened.length : Int) = r.balance - start + (strays past).length)
    (hfirst : r.nesting.stray = (strays past).head?) (hnone : r.nesting.stray = none) :
    r.balance = start + r.nesting.opened.length := by
  rw [hnone, eq_comm, List.head?_eq_none_iff] at hfirst
  rw [hfirst, List.length_nil] at hcounts
  omega

end Memory

variable {σ : Type} [Sink σ] (settings : Settings) (start : Int)

/-- The loop has gone through the readers `past` and stands before the turn of `r`. -/
inductive HasPassed (c : Cursor) (sink : σ) : List (Reader σ) → Reader σ → Prop where
  | front : c.skipGap.peek? = some (byte '(') →
      HasPassed c sink [] ⟨c.skipGap, sink, start, .start⟩
  | after {past : List (Reader σ)} {r r' : Reader σ} :
      HasPassed c sink past r → turn settings start r = .more r' →
        HasPassed c sink (past ++ [r]) r'

section Turns
variable {settings start} {r r' : Reader σ}

/-- What a turn does to the balance and the brackets that are remembered. -/
theorem turn_more_cases (h : turn settings start r = .more r') :
    (r.front.peek? = some (byte '(') ∧ r.nesting.isFull settings.maxDepth = false ∧
      r' = (r.moveTo r.front).openList) ∨
    (r.front.peek? = some (byte ')') ∧ r' = (r.moveTo r.front).closeList start) ∨
    (r.front.peek? ≠ some (byte '(') ∧ r.front.peek? ≠ some (byte ')') ∧
      r'.balance = r.balance ∧ r'.nesting = r.nesting) := by
  have hother : ∀ b, r.front.peek? = some b → b ≠ byte '(' → b ≠ byte ')' →
      ∀ d sink, r' = { r with cursor := d, sink := sink } →
      r.front.peek? ≠ some (byte '(') ∧ r.front.peek? ≠ some (byte ')') ∧
        r'.balance = r.balance ∧ r'.nesting = r.nesting := by
    rintro b hpeek hopening hclosing d sink rfl
    rw [hpeek]
    exact ⟨by simpa using hopening, by simpa using hclosing, rfl, rfl⟩
  cases takes_of_takeFront settings start h with
  | opening hpeek hfits => exact Or.inl ⟨hpeek, hfits, rfl⟩
  | closing hpeek => exact Or.inr (Or.inl ⟨hpeek, rfl⟩)
  | comment hpeek | quoted _ _ hpeek _ | unquoted hpeek _ =>
      exact Or.inr (Or.inr (hother _ hpeek (by decide) (by decide) _ _ rfl))
  | unread b hpeek hplain _ | bare b hpeek hplain _ =>
      exact Or.inr (Or.inr (hother b hpeek hplain.2.2.2 hplain.2.2.1 _ _ rfl))

/-- A turn matches the bracket that it comes to, if it comes to one. -/
theorem nesting_turn (hcounts : r.nesting.stray = none → r.balance = start + r.nesting.opened.length)
    (h : turn settings start r = .more r') :
    r'.nesting = r.front.bracket?.toList.foldl Nesting.after r.nesting := by
  rcases turn_more_cases h with ⟨hpeek, _, rfl⟩ | ⟨hpeek, rfl⟩ | ⟨hopening, hclosing, _, hnesting⟩
  · rw [Cursor.bracket?_opening hpeek, Option.toList_some, List.foldl_cons,
      Nesting.after_opening _ _ rfl]
    rfl
  · rw [Cursor.bracket?_closing hpeek]
    exact closeList_nesting start (r.moveTo r.front) hcounts
  · rw [Cursor.bracket?_of_ne hopening hclosing, hnesting]
    rfl

theorem start_turn (h : turn settings start r = .more r') (hbracket : r.front.bracket? ≠ none) :
    r'.cursor.start = r.front.start + 1 := by
  rcases turn_more_cases h with ⟨hpeek, _, rfl⟩ | ⟨hpeek, rfl⟩ | ⟨hopening, hclosing, _⟩
  · exact Cursor.start_past_front hpeek
  · exact Cursor.start_past_front hpeek
  · exact absurd (Cursor.bracket?_of_ne hopening hclosing) hbracket

theorem IsPlain.isBoundary {b : UInt8} (h : IsPlain b) (hspace : isWhitespace b = false) :
    isBoundary b = false := by
  obtain ⟨hsign, hquote, hclosing, hopening⟩ := h
  simp [SExpression.isBoundary, hsign, hquote, hclosing, hopening, hspace]

/-- Of the brackets of the range a turn takes the one at the front, or none if none stands there. -/
theorem brackets_takeFront (r : Reader σ) (hsound : r.IsSound start)
    (hspace : ∀ b ∈ r.cursor.bytes.head?, isWhitespace b = false)
    (h : takeFront settings start r = .more r') :
    brackets (r.cursor.lexemes settings.escapes) =
      r.cursor.bracket?.toList ++ brackets (r'.cursor.lexemes settings.escapes) := by
  have hbytes : ∀ b, r.cursor.peek? = some b →
      ∃ rest, r.cursor.bytes = b :: rest ∧ isWhitespace b = false := by
    intro b hpeek
    obtain ⟨rest, hrest⟩ := List.head?_eq_some_iff.mp hpeek
    exact ⟨rest, hrest, hspace b hpeek⟩
  cases takes_of_takeFront settings start h with
  | comment hpeek =>
      have hnone : r.cursor.bracket? = none :=
        Cursor.bracket?_of_ne (by rw [hpeek]; decide) (by rw [hpeek]; decide)
      rw [hnone, ← r.cursor.lexemes_skipToNextLine settings.escapes hpeek]
      rfl
  | quoted rest text hpeek hquoted =>
      obtain ⟨after, hbytes, hb⟩ := hbytes _ hpeek
      obtain ⟨text', closed, n, hn, hfirst, hquoted', _⟩ :=
        r.cursor.quoted?_front settings.escapes hbytes hsound.utf8 rfl
      obtain ⟨rfl, rfl⟩ := Prod.mk.inj (Option.some.inj (hquoted.symm.trans hquoted'))
      exact r.cursor.brackets_front settings.escapes hbytes hb (by decide) _ n hfirst hn
  | unquoted hpeek hquoted =>
      obtain ⟨after, hbytes, hb⟩ := hbytes _ hpeek
      obtain ⟨text, closed, n, _, _, hquoted', _⟩ :=
        r.cursor.quoted?_front settings.escapes hbytes hsound.utf8 rfl
      rw [hquoted'] at hquoted
      cases hquoted
  | closing hpeek =>
      obtain ⟨after, hbytes, hb⟩ := hbytes _ hpeek
      exact r.cursor.brackets_front settings.escapes hbytes hb (by decide) .closing 0 rfl
        (Nat.zero_le _)
  | opening hpeek _ =>
      obtain ⟨after, hbytes, hb⟩ := hbytes _ hpeek
      exact r.cursor.brackets_front settings.escapes hbytes hb (by decide) .opening 0 rfl
        (Nat.zero_le _)
  | unread b hpeek hplain hword =>
      obtain ⟨after, hbytes, hb⟩ := hbytes b hpeek
      have htorn : r.cursor.IsTornText := by
        by_contra huntorn
        obtain ⟨run, _, _, _, htaken, _⟩ := r.cursor.takeUntil_front settings.escapes hbytes
          hsound.whole huntorn (hplain.isBoundary hb)
        rw [htaken] at hword
        cases hword
      have hnone : r.cursor.bracket? = none := by
        obtain ⟨_, _, hclosing, hopening⟩ := hplain
        simp [Cursor.bracket?, hpeek, hclosing, hopening]
      rw [hnone, htorn.brackets_lexemes]
      exact ((htorn.advance 1).brackets_lexemes settings.escapes).symm
  | bare b hpeek hplain hword =>
      obtain ⟨after, hbytes, hb⟩ := hbytes b hpeek
      have huntorn : ¬ r.cursor.IsTornText := fun htorn => hword htorn.takeUntil
      obtain ⟨run, hn, _, hfirst, htaken, _⟩ := r.cursor.takeUntil_front settings.escapes hbytes
        hsound.whole huntorn (hplain.isBoundary hb)
      rw [htaken]
      exact r.cursor.brackets_front settings.escapes hbytes hb hplain.1 _ run.length hfirst hn

/-- The same of a turn, which passes whitespace first. -/
theorem brackets_turn (hsound : r.IsSound start) (h : turn settings start r = .more r') :
    brackets (r.cursor.lexemes settings.escapes) =
      r.front.bracket?.toList ++ brackets (r'.cursor.lexemes settings.escapes) := by
  have hmoved : (r.moveTo r.front).IsSound start :=
    ⟨hsound.utf8, r.cursor.isWhole_skipWhitespace hsound.utf8 hsound.whole, hsound.counts⟩
  rw [← r.cursor.lexemes_skipWhitespace settings.escapes]
  exact brackets_takeFront (r.moveTo r.front) hmoved r.cursor.head_skipWhitespace h

end Turns

section Loop
variable {settings start} {c : Cursor} {sink : σ} {past : List (Reader σ)} {r : Reader σ}

theorem HasPassed.isReached (h : HasPassed settings start c sink past r) :
    IsReached settings start c sink r := by
  induction h with
  | front hpeek => exact .front hpeek
  | after _ hturn ih => exact .after ih hturn

theorem HasPassed.shorter (h : HasPassed settings start c sink past r) :
    (past ++ [r]).Pairwise fun q q' => q'.cursor.length < q.cursor.length := by
  induction h with
  | front _ => exact List.pairwise_singleton _ _
  | @after past r r' _ hturn ih =>
      have hshort := length_turn settings start hturn
      refine List.pairwise_append.mpr ⟨ih, List.pairwise_singleton _ _, ?_⟩
      intro q hq q' hq'
      obtain rfl := List.mem_singleton.mp hq'
      rcases List.mem_append.mp hq with hpast | hlast
      · have hbefore := (List.pairwise_append.mp ih).2.2 q hpast r (List.mem_singleton.mpr rfl)
        exact Nat.lt_trans hshort hbefore
      · obtain rfl := List.mem_singleton.mp hlast
        exact hshort

/-- The balance and the height of the stack differ by the number of stray brackets. -/
theorem HasPassed.counts (h : HasPassed settings start c sink past r) :
    (r.nesting.opened.length : Int) = r.balance - start + (strays past).length := by
  induction h with
  | front _ => simp [strays, Nesting.start]
  | @after past r r' _ hturn ih =>
      rw [strays_concat, List.length_append]
      rcases turn_more_cases hturn with
        ⟨hpeek, _, rfl⟩ | ⟨hpeek, rfl⟩ | ⟨_, hclosing, hbalance, hnesting⟩
      · rw [stray?_of_ne (by rw [hpeek]; decide)]
        simp only [openList, moveTo, List.length_cons, Option.toList_none, List.length_nil]
        omega
      · cases hstack : r.nesting.opened with
        | nil =>
            have hstray : r.stray? = some r.front.start := if_pos ⟨hpeek, hstack⟩
            rw [hstack] at ih
            simp only [hstray, closeList, moveTo, hstack, List.tail_nil, List.length_nil,
              Option.toList_some, List.length_singleton] at ih ⊢
            omega
        | cons o outer =>
            have hstray : r.stray? = none := if_neg (by simp [hstack])
            rw [hstack] at ih
            simp only [hstray, closeList, moveTo, hstack, List.tail_cons, List.length_cons,
              Option.toList_none, List.length_nil] at ih ⊢
            omega
      · rw [stray?_of_ne hclosing, hbalance, hnesting, ih]
        rfl

theorem HasPassed.firstStray (h : HasPassed settings start c sink past r) :
    r.nesting.stray = (strays past).head? := by
  induction h with
  | front _ => rfl
  | after hpassed hturn ih =>
      rw [strays_concat, List.head?_append, ← ih, Option.head?_toList,
        nesting_turn (balance_of_strays hpassed.counts ih) hturn, stray_after_front]

/-- What is remembered of the brackets is what matching those met so far gives. -/
theorem HasPassed.nesting_eq (h : HasPassed settings start c sink past r) :
    r.nesting = (met past).foldl Nesting.after .start := by
  induction h with
  | front _ => rfl
  | after hpassed hturn ih =>
      rw [met_concat, List.foldl_append, ← ih]
      exact nesting_turn (balance_of_strays hpassed.counts hpassed.firstStray) hturn

theorem HasPassed.within (h : HasPassed settings start c sink past r) :
    ∀ most ∈ settings.maxDepth, r.nesting.opened.length ≤ most := by
  intro most hmost
  induction h with
  | front _ => exact Nat.zero_le most
  | @after past r r' _ hturn ih =>
      rcases turn_more_cases hturn with ⟨_, hfits, rfl⟩ | ⟨_, rfl⟩ | ⟨_, _, _, hnesting⟩
      · have hroom : r.nesting.opened.length < most := by
          rw [Option.mem_def.mp hmost] at hfits
          exact Nat.lt_of_not_le (of_decide_eq_false hfits)
        exact hroom
      · exact Nat.le_trans (List.tail_sublist _).length_le ih
      · rw [hnesting]
        exact ih

theorem HasPassed.place_met (h : HasPassed settings start c sink past r) :
    ∀ l ∈ met past, c.start ≤ l.offset ∧ l.offset < r.cursor.start ∧
      (l.value = .opening → c.buffer[l.offset]? = some (byte '(')) := by
  induction h with
  | front _ => simp [met]
  | @after past r r' hpassed hturn ih =>
      have hfollows := hpassed.isReached.follows
      have hahead := follows_turn settings start hturn
      intro l hl
      rw [met_concat, List.mem_append, Option.mem_toList] at hl
      rcases hl with hpast | hfront
      · obtain ⟨hstart, hbefore, hbyte⟩ := ih l hpast
        exact ⟨hstart, Nat.lt_of_lt_of_le hbefore hahead.2.1, hbyte⟩
      · have hbuffer : r.front.buffer = c.buffer := hfollows.1
        have hspace : r.cursor.start ≤ r.front.start := r.cursor.start_le_start_advance _
        have hpast := start_turn hturn (by rw [hfront]; exact Option.some_ne_none l)
        obtain ⟨hoffset, hbyte⟩ := Cursor.offset_bracket? hfront
        rw [hbuffer] at hbyte
        refine ⟨?_, by omega, hbyte⟩
        rw [hoffset]
        exact Nat.le_trans hfollows.2.1 hspace

theorem HasPassed.ascending_met (h : HasPassed settings start c sink past r) :
    (met past).Pairwise fun l m => l.offset < m.offset := by
  induction h with
  | front _ => exact List.Pairwise.nil
  | @after past r r' hpassed hturn ih =>
      rw [met_concat]
      refine List.pairwise_append.mpr ⟨ih, ?_, ?_⟩
      · cases r.front.bracket? <;> simp
      · intro l hl m hm
        obtain ⟨hoffset, _⟩ := Cursor.offset_bracket? (Option.mem_toList.mp hm)
        have hspace : r.cursor.start ≤ r.front.start := r.cursor.start_le_start_advance _
        rw [hoffset]
        exact Nat.lt_of_lt_of_le (hpassed.place_met l hl).2.1 hspace

theorem HasPassed.inStep (h : HasPassed settings start c sink past r) :
    InStep settings start c past r := by
  have hnesting := h.nesting_eq
  have horder : ((met past).map (·.offset)).Pairwise (· < ·) :=
    List.pairwise_map.mpr h.ascending_met
  have hleft : ∀ o, o ∈ r.nesting.opened ↔ ∃ l, LeftOpen (met past) l ∧ l.offset = o := by
    intro o
    rw [hnesting]
    exact mem_opened_iff (met past) o
  have hrange := h.isReached.follows
  refine ⟨hrange, h.shorter, ?_, ?_, hleft, h.counts, h.firstStray, h.within⟩
  · rw [hnesting]
    exact horder.sublist (sublist_opened (met past))
  · intro o ho
    obtain ⟨l, ⟨pre, post, hsplit, hopening, _⟩, rfl⟩ := (hleft o).mp ho
    obtain ⟨hstart, hbefore, hbyte⟩ := h.place_met l (by rw [hsplit]; simp)
    have hstop : r.cursor.start ≤ c.stop := by
      rw [← hrange.2.2]
      exact r.cursor.start_le_stop
    exact ⟨hstart, Nat.lt_of_lt_of_le hbefore hstop, hbefore, hbyte hopening⟩

/-- The brackets met are those among the lexemes before the cursor. -/
theorem HasPassed.brackets_eq (h : HasPassed settings start c sink past r)
    (hutf8 : c.buffer.IsUtf8) :
    brackets (c.lexemes settings.escapes) =
      met past ++ brackets (r.cursor.lexemes settings.escapes) := by
  induction h with
  | front _ =>
      rw [(c.skipGap_spec settings.escapes).2.2.1]
      rfl
  | after hpassed hturn ih =>
      rw [ih, met_concat, List.append_assoc,
        brackets_turn (hpassed.isReached.isSound hutf8) hturn]

theorem HasPassed.run_eq (h : HasPassed settings start c sink past r) :
    run settings start c.start r = read settings start c sink := by
  induction h with
  | front hpeek => simp only [read, hpeek, if_true]
  | after _ hturn ih => rw [← ih, run_of_more hturn]

/-- Wherever the loop stands, it comes to a last turn, and this one gives what the parse gives. -/
theorem HasPassed.exists_last (h : HasPassed settings start c sink past r) :
    ∃ later last, HasPassed settings start c sink later last ∧ past ++ [r] <+: later ++ [last] ∧
      (turn settings start last).result? start c.start = some (read settings start c sink) := by
  induction hn : r.cursor.length using Nat.strong_induction_on generalizing past r with
  | _ n ih =>
    cases hturn : turn settings start r with
    | more r' =>
        have hshort := length_turn settings start hturn
        obtain ⟨later, last, hpassed, hextends, hresult⟩ :=
          ih r'.cursor.length (by omega) (h.after hturn) rfl
        exact ⟨later, last, hpassed, (List.prefix_append _ _).trans hextends, hresult⟩
    | finished r' =>
        refine ⟨past, r, h, List.prefix_refl _, ?_⟩
        rw [hturn, ← h.run_eq, run_of_finished hturn, Turn.result?]
    | tooDeep r' offset =>
        refine ⟨past, r, h, List.prefix_refl _, ?_⟩
        rw [hturn, ← h.run_eq, run_of_tooDeep hturn, Turn.result?]

end Loop

end Reader

end SExpression
