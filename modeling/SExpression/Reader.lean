import SExpression.Bare
import SExpression.Cursor.Extract
import SExpression.Parse

/-! # Parsing in one pass

A reader goes through a range with a cursor and puts every token into the sink as soon as it has
passed it.  Each turn takes one lexeme or one comment off the front, so that the cursor gets
shorter with every turn (`length_turn`).  Besides the cursor the reader keeps the balance and the
brackets that wait for their partners; a closing bracket is stray where it takes the balance below
its start for the first time. -/
set_option autoImplicit false
namespace SExpression

namespace Cursor

theorem length_pos_of_peek? (c : Cursor) {b : UInt8} (h : c.peek? = some b) : 0 < c.length := by
  rw [← c.length_bytes, List.length_pos_iff]
  intro hnil
  rw [peek?, hnil] at h
  cases h

theorem length_skipWhitespace_le (c : Cursor) : c.skipWhitespace.length ≤ c.length := by
  rw [skipWhitespace, dropWhile, length_advance]
  omega

theorem length_skipToNextLine (c : Cursor) (h : 0 < c.length) :
    c.skipToNextLine.length < c.length := by
  have hline : 0 < lineLength c.bytes := by
    rw [← c.length_bytes] at h
    cases hbytes : c.bytes with
    | nil => simp [hbytes] at h
    | cons b rest => exact lineLength_pos b rest
  have hskip := c.skipLine.length_skipWhitespace_le
  rw [skipLine, length_advance] at hskip
  rw [skipToNextLine, skipLine]
  omega

theorem length_atEnd (c : Cursor) : c.atEnd.length = 0 := Nat.sub_self c.stop

theorem length_quoted? (c : Cursor) {delimiter : UInt8} {escapes : Bool} {rest : Cursor}
    {text : Bytes} (h : c.quoted? delimiter escapes = some (rest, text)) :
    rest.length < c.length := by
  simp only [quoted?] at h
  split at h
  · cases h
  · cases h
    simp only [length_advance]
    omega

theorem textTo_eq_nil (c past : Cursor) (h : past.start ≤ c.start) : c.textTo past = [] := by
  rw [textTo, Nat.max_eq_right h, Bytes.slice, Nat.sub_self, List.take_zero, ite_self]

theorem length_takeUntil (c : Cursor) (p : UInt8 → Bool) (h : (c.takeUntil p).2 ≠ []) :
    (c.takeUntil p).1.length < c.length := by
  apply Nat.lt_of_not_le
  intro hstay
  apply h
  apply c.textTo_eq_nil
  have hstop := c.start_le_stop
  simp only [takeUntil, dropWhile, advance, length] at hstay ⊢
  omega

/-- Past the comments at the front and the whitespace after each. -/
def skipRemarks (c : Cursor) : Cursor :=
  if c.peek? = some (byte ';') then c.skipToNextLine.skipRemarks else c
termination_by c.length
decreasing_by exact c.length_skipToNextLine (c.length_pos_of_peek? (by assumption))

def skipGap (c : Cursor) : Cursor := c.skipWhitespace.skipRemarks

end Cursor

structure Reader (σ : Type) where
  cursor : Cursor
  sink : σ
  balance : Int
  nesting : Nesting
  deriving DecidableEq

/-- What a turn leads to: another one, the end of the range, or a bracket that nests too deep. -/
inductive Turn (σ : Type) where
  | more (r : Reader σ)
  | finished (r : Reader σ)
  | tooDeep (r : Reader σ) (offset : Nat)
  deriving DecidableEq

namespace Reader
variable {σ : Type} [Sink σ] (settings : Settings) (start : Int)

section Turns

def moveTo (r : Reader σ) (c : Cursor) : Reader σ := { r with cursor := c }

/-- Past a text that is read as `t`. -/
def deliver (r : Reader σ) (c : Cursor) (t : Token) : Reader σ :=
  { r with cursor := c, sink := Sink.put r.sink t }

def openList (r : Reader σ) : Reader σ where
  cursor := r.cursor.advance 1
  sink := Sink.put r.sink .opening
  balance := r.balance + 1
  nesting := { r.nesting with opened := r.cursor.start :: r.nesting.opened }

def closeList (r : Reader σ) : Reader σ where
  cursor := r.cursor.advance 1
  sink := Sink.put r.sink .closing
  balance := r.balance - 1
  nesting :=
    { opened := r.nesting.opened.tail
      stray :=
        if r.balance - 1 < start ∧ r.nesting.stray = none then some r.cursor.start
        else r.nesting.stray }

/-- Takes what stands at the front, which is no whitespace. -/
def takeFront (r : Reader σ) : Turn σ :=
  let c := r.cursor
  match c.peek? with
  | none => .finished r
  | some b =>
    if b = byte ';' then .more (r.moveTo c.skipToNextLine)
    else if b = byte '"' then
      match c.quoted? (byte '"') settings.escapes with
      | some (rest, text) => .more (r.deliver rest (.string text))
      | none => .more (r.moveTo c.atEnd)
    else if b = byte ')' then .more (r.closeList start)
    else if b = byte '(' then
      if r.nesting.isFull settings.maxDepth then .tooDeep (r.moveTo c.atEnd) c.start
      else .more r.openList
    else
      let word := c.takeUntil isBoundary
      if word.2 = [] then .more (r.moveTo (c.advance 1))
      else .more (r.deliver word.1 ((c.take word.2.length).bareToken settings.numeric))

def turn (r : Reader σ) : Turn σ := (r.moveTo r.cursor.skipWhitespace).takeFront settings start

/-- A byte that begins no comment and no quoted text and is no bracket. -/
def IsPlain (b : UInt8) : Prop := b ≠ byte ';' ∧ b ≠ byte '"' ∧ b ≠ byte ')' ∧ b ≠ byte '('

/-- All that can happen between one turn and the next, by what stands at the front. -/
inductive Takes (r : Reader σ) : Reader σ → Prop where
  | comment : r.cursor.peek? = some (byte ';') → Takes r (r.moveTo r.cursor.skipToNextLine)
  | quoted (rest : Cursor) (text : Bytes) : r.cursor.peek? = some (byte '"') →
      r.cursor.quoted? (byte '"') settings.escapes = some (rest, text) →
      Takes r (r.deliver rest (.string text))
  | unquoted : r.cursor.peek? = some (byte '"') →
      r.cursor.quoted? (byte '"') settings.escapes = none → Takes r (r.moveTo r.cursor.atEnd)
  | closing : r.cursor.peek? = some (byte ')') → Takes r (r.closeList start)
  | opening : r.cursor.peek? = some (byte '(') → r.nesting.isFull settings.maxDepth = false →
      Takes r r.openList
  | unread (b : UInt8) : r.cursor.peek? = some b → IsPlain b →
      (r.cursor.takeUntil isBoundary).2 = [] → Takes r (r.moveTo (r.cursor.advance 1))
  | bare (b : UInt8) : r.cursor.peek? = some b → IsPlain b →
      (r.cursor.takeUntil isBoundary).2 ≠ [] →
      Takes r (r.deliver (r.cursor.takeUntil isBoundary).1
        ((r.cursor.take (r.cursor.takeUntil isBoundary).2.length).bareToken settings.numeric))

theorem takes_of_takeFront {r r' : Reader σ} (h : takeFront settings start r = .more r') :
    Takes settings start r r' := by
  simp only [takeFront] at h
  split at h
  · cases h
  rename_i b hpeek
  split at h
  · rename_i hsign
    cases h
    exact .comment (hsign ▸ hpeek)
  rename_i hsign
  split at h
  · rename_i hquote
    split at h
    · rename_i rest text hquoted
      cases h
      exact .quoted rest text (hquote ▸ hpeek) hquoted
    · rename_i hquoted
      cases h
      exact .unquoted (hquote ▸ hpeek) hquoted
  rename_i hquote
  split at h
  · rename_i hclosing
    cases h
    exact .closing (hclosing ▸ hpeek)
  rename_i hclosing
  split at h
  · rename_i hopening
    split at h
    · cases h
    · rename_i hfits
      cases h
      exact .opening (hopening ▸ hpeek) (Bool.eq_false_iff.mpr hfits)
  rename_i hopening
  split at h
  · rename_i hword
    cases h
    exact .unread b hpeek ⟨hsign, hquote, hclosing, hopening⟩ hword
  · rename_i hword
    cases h
    exact .bare b hpeek ⟨hsign, hquote, hclosing, hopening⟩ hword

theorem length_takeFront {r r' : Reader σ} (h : takeFront settings start r = .more r') :
    r'.cursor.length < r.cursor.length := by
  have hone : ∀ b, r.cursor.peek? = some b → (r.cursor.advance 1).length < r.cursor.length := by
    intro b hpeek
    have hpos := r.cursor.length_pos_of_peek? hpeek
    rw [Cursor.length_advance]
    omega
  cases takes_of_takeFront settings start h with
  | comment hpeek => exact r.cursor.length_skipToNextLine (r.cursor.length_pos_of_peek? hpeek)
  | quoted rest text _ hquoted => exact r.cursor.length_quoted? hquoted
  | unquoted hpeek _ =>
      show r.cursor.atEnd.length < r.cursor.length
      rw [Cursor.length_atEnd]
      exact r.cursor.length_pos_of_peek? hpeek
  | closing hpeek => exact hone _ hpeek
  | opening hpeek _ => exact hone _ hpeek
  | unread b hpeek _ _ => exact hone b hpeek
  | bare _ _ _ hword => exact r.cursor.length_takeUntil isBoundary hword

theorem length_turn {r r' : Reader σ} (h : turn settings start r = .more r') :
    r'.cursor.length < r.cursor.length :=
  Nat.lt_of_lt_of_le (length_takeFront settings start h) r.cursor.length_skipWhitespace_le

end Turns

section Runs

/-- How the parse ends where the range does.  `origin` is where the parse began. -/
def outcome (origin : Nat) (r : Reader σ) : Outcome Nat :=
  match r.nesting.stray with
  | some offset => .malformed .unexpectedClosing offset
  | none =>
    if r.balance = start then .complete else .truncated (r.nesting.opened.head?.getD origin)

def result (r : Reader σ) (o : Outcome Nat) : σ × Parsed :=
  (r.sink, ⟨r.cursor, r.balance, o.map (Position.ofOffset r.cursor.buffer)⟩)

/-- Turn after turn up to the end of the range. -/
def run (origin : Nat) (r : Reader σ) : σ × Parsed :=
  match _ : turn settings start r with
  | .more r' => run origin r'
  | .finished r' => r'.result (r'.outcome start origin)
  | .tooDeep r' offset => r'.result (.malformed .nestingTooDeep offset)
termination_by r.cursor.length
decreasing_by exact length_turn settings start (by assumption)

section
variable {settings start} {r r' : Reader σ}

theorem run_of_more (h : turn settings start r = .more r') (origin : Nat) :
    run settings start origin r = run settings start origin r' := by
  rw [run]
  split <;> simp_all

theorem run_of_finished (h : turn settings start r = .finished r') (origin : Nat) :
    run settings start origin r = r'.result (r'.outcome start origin) := by
  rw [run]
  split <;> simp_all

theorem run_of_tooDeep {offset : Nat} (h : turn settings start r = .tooDeep r' offset)
    (origin : Nat) : run settings start origin r = r'.result (.malformed .nestingTooDeep offset) := by
  rw [run]
  split <;> simp_all

end

/-- A parse into a sink that starts inside `start` open lists. -/
def read (c : Cursor) (sink : σ) : σ × Parsed :=
  let front : Reader σ := ⟨c.skipGap, sink, start, .start⟩
  match front.cursor.peek? with
  | none => front.result .complete
  | some b =>
    if b = byte '(' then run settings start c.start front
    else
      let found := (front.cursor.text.firstChar?).getD '\uFFFD'
      (front.moveTo front.cursor.atEnd).result
        (.malformed (.missingOpening found) front.cursor.start)

end Runs

end Reader

end SExpression
