import SExpression.Proofs.CursorBounds

/-! # Texts that cursors hand out

A text that an operation hands out is read from a range of the buffer, and the range tells where it
stands (`Operation.text?_eq_map_text`).  The token operations differ in the bytes they accept and in
whether they skip whitespace first (`TokenClass`), and in nothing else
(`Operation.apply_token`). -/
set_option autoImplicit false
namespace SExpression

/-- What a token operation skips before the token, and what it accepts in it. -/
structure TokenClass where
  skips : Bool
  accepts : UInt8 → Bool

namespace TokenClass

/-- Words hold no whitespace. -/
def word (p : UInt8 → Bool) : TokenClass := ⟨true, fun b => !isWhitespace b && p b⟩

variable (k : TokenClass)

/-- Where the token begins. -/
def lead (c : Cursor) : Cursor := if k.skips then c.skipWhitespace else c

/-- Where it ends. -/
def past (c : Cursor) : Cursor := (k.lead c).dropWhile k.accepts

def cut (c : Cursor) : Cursor × Bytes := (k.past c, (k.lead c).textTo (k.past c))

/-- A text is whitespace that is skipped, a longest run of accepted bytes, and the rest. -/
structure Splits (text blank token rest : Bytes) : Prop where
  text_eq : text = blank ++ token ++ rest
  blank : ∀ b ∈ blank, k.skips = true ∧ isWhitespace b = true
  front : k.skips = true → ∀ b ∈ (token ++ rest).head?, isWhitespace b = false
  token : ∀ b ∈ token, k.accepts b = true
  longest : ∀ b ∈ rest.head?, k.accepts b = false

end TokenClass

namespace Cursor

/-- The range from where a cursor begins to where another one begins. -/
def upTo (c past : Cursor) : Cursor := ofRange c.buffer c.start (max past.start c.start)

theorem upTo_places {c past : Cursor} (h : past.buffer = c.buffer) :
    (c.upTo past).start = c.start ∧ (c.upTo past).stop = max past.start c.start := by
  have hle := Nat.le_trans c.start_le_stop c.stop_le_length
  have hinside := Nat.le_trans past.start_le_stop past.stop_le_length
  rw [h] at hinside
  simp only [upTo, ofRange]
  omega

theorem text_upTo {c past : Cursor} (h : past.buffer = c.buffer) :
    (c.upTo past).text = c.textTo past := by
  obtain ⟨hstart, hstop⟩ := upTo_places h
  rw [text, hstart, hstop]
  rfl

theorem wordOf_eq_cut (c : Cursor) (p : UInt8 → Bool) : c.wordOf p = (TokenClass.word p).cut c := by
  have hclass : (fun b => !(isWhitespace b || !p b)) = (TokenClass.word p).accepts := by
    funext b
    rw [Bool.not_or, Bool.not_not]
    rfl
  rw [wordOf, takeUntil, hclass]
  rfl

namespace Operation

def tokenClass? : Operation → Option TokenClass
  | takeUntil p => some ⟨false, fun b => !p b⟩
  | field b => some ⟨true, (· != b)⟩
  | word => some ⟨true, fun b => !isWhitespace b⟩
  | wordOf p => some (.word p)
  | identifier => some (.word fun b => b == byte '_' || isAlphanumeric b)
  | identifierWith others => some (.word fun b => isAlphanumeric b || others.contains b)
  | wordIn bytes => some (.word fun b => bytes.contains b)
  | qualifiedName separator =>
      some (.word fun b =>
        b == separator || (Bytes.ofString "$^_").contains b || isAlphanumeric b)
  | _ => none

/-- The range of the text that an operation hands out. -/
def piece? (c : Cursor) : Operation → Option Cursor
  | quoted delimiter escapes =>
      let inner := c.advance (unquotedLength delimiter escapes false c.bytes + 1)
      (c.quoted? delimiter escapes).map fun _ =>
        inner.upTo (inner.advance (unquotedLength delimiter escapes false inner.bytes))
  | splitOff separator => if c.isEmpty then none else some (c.upTo (c.seek separator))
  | o => o.tokenClass?.map fun k => (k.lead c).upTo (k.past c)

/-- A token operation goes to the end of the token and hands it out. -/
theorem apply_token {o : Operation} {k : TokenClass} (h : o.tokenClass? = some k) (c : Cursor) :
    o.apply c = some (k.cut c).1 ∧ o.text? c = some (k.cut c).2 ∧
      o.piece? c = some ((k.lead c).upTo (k.past c)) := by
  cases o with
  | takeUntil | field | word =>
      cases h
      exact ⟨rfl, rfl, rfl⟩
  | wordOf | identifier | identifierWith | wordIn | qualifiedName =>
      cases h
      simp only [apply, text?, Cursor.identifier, Cursor.identifierWith, Cursor.wordIn,
        Cursor.qualifiedName, wordOf_eq_cut, true_and]
      rfl
  | _ => cases h

/-- A text that is handed out is what its range reads as. -/
theorem text?_eq_map_text (o : Operation) (c : Cursor) : o.text? c = (o.piece? c).map Cursor.text := by
  cases hk : o.tokenClass? with
  | some k =>
      obtain ⟨_, htext, hpiece⟩ := apply_token hk c
      have hbuffer : (k.past c).buffer = (k.lead c).buffer := rfl
      rw [htext, hpiece, Option.map_some, text_upTo hbuffer]
      rfl
  | none =>
      cases o with
      | quoted delimiter escapes =>
          rw [text?, piece?, quoted?]
          split
          · rfl
          · rw [Option.map_some, Option.map_some, Option.map_some, text_upTo (buffer_advance _ _)]
      | splitOff separator =>
          have hbuffer : (c.seek separator).buffer = c.buffer := rfl
          rw [text?, piece?]
          split
          · rfl
          · rw [Option.map_some, text_upTo hbuffer]
            rfl
      | takeUntil | field | word | wordOf | identifier | identifierWith | wordIn | qualifiedName =>
          cases hk
      | _ => rfl

end Operation

end Cursor

end SExpression
