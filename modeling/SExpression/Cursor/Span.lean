import SExpression.Cursor.Operation

/-! # Cursors as bare offsets

A span is what is left of a cursor in memory: two offsets and a buffer, and nothing to say that they
fit together.  Every operation works on the offsets alone.  Where it takes a byte or a slice, adds two
offsets or takes one from another, it could leave the buffer, and the result is a breach if it does:
a slice must lie in its bytes, an index below their length, and a sum at most one beyond it.  Only
`advance` adds without such a check, since its sum stops at the greatest word.

Pieces of text need no check here, because `Bytes.slice` gives nothing where it does not fit. -/
set_option autoImplicit false
namespace SExpression

inductive Breach where
  | slice (first last length : Nat)
  | index (i length : Nat)
  | sum (m n limit : Nat)
  | difference (m n : Nat)
  /-- A loop went round without getting ahead. -/
  | standstill
  deriving DecidableEq, Repr

section Checks

def checkedSum (limit m n : Nat) : Except Breach Nat :=
  if m + n ≤ limit then .ok (m + n) else .error (.sum m n limit)

def checkedDifference (m n : Nat) : Except Breach Nat :=
  if n ≤ m then .ok (m - n) else .error (.difference m n)

/-- The bytes from offset `i` to offset `j`. -/
def Bytes.cut (bs : Bytes) (i j : Nat) : Except Breach Bytes :=
  if i ≤ j ∧ j ≤ bs.length then .ok ((bs.drop i).take (j - i)) else .error (.slice i j bs.length)

/-- The bytes from offset `i` on. -/
def Bytes.cutFrom (bs : Bytes) (i : Nat) : Except Breach Bytes := bs.cut i bs.length

end Checks

section Numbers
variable (bs : Bytes)

/-- The offset past a sign that stands at offset `i`, if one does. -/
def pastSign (i : Nat) : Except Breach Nat :=
  match bs[i]? with
  | some b => if b = byte '+' ∨ b = byte '-' then checkedSum (bs.length + 1) i 1 else .ok i
  | none => .ok i

/-- The offset past the digits from offset `i` on, if there are any. -/
def pastDigits (radix i : Nat) : Except Breach (Option Nat) := do
  let rest ← bs.cutFrom i
  match (digitRun radix rest).length with
  | 0 => .ok none
  | n => some <$> checkedSum (bs.length + 1) i n

def pastSigned : Except Breach (Option Nat) := do
  let i ← pastSign bs (blankLength bs)
  pastDigits bs 10 i

def pastUnsigned (radix : Nat) : Except Breach (Option Nat) := pastDigits bs radix (blankLength bs)

/-- The offset past an exponent that stands at offset `i`, or `i` itself where none does. -/
def pastExponent (i : Nat) : Except Breach (Option Nat) :=
  match bs[i]? with
  | some b =>
    if b = byte 'e' ∨ b = byte 'E' then do
      let j ← checkedSum (bs.length + 1) i 1
      let rest ← bs.cutFrom j
      match ← pastSigned rest with
      | some n => some <$> checkedSum (bs.length + 1) j n
      | none => .ok none
    else .ok (some i)
  | none => .ok (some i)

def pastFloat : Except Breach (Option Nat) := do
  match ← pastSigned bs with
  | none => .ok none
  | some i =>
    if bs[i]? = some (byte '.') then do
      let j ← checkedSum (bs.length + 1) i 1
      let rest ← bs.cutFrom j
      let mantissa ← checkedSum (bs.length + 1) j (rest.takeWhile isDigit).length
      match ← pastExponent bs mantissa with
      | none => .ok none
      | some past =>
        -- the literal itself, which is converted as a whole
        let _ ← bs.cut (blankLength bs) past
        .ok (some past)
    else .ok none

end Numbers

structure Span where
  buffer : Bytes
  start : Nat
  stop : Nat
  deriving DecidableEq, Repr

namespace Span

/-- The greatest offset that fits into a word. -/
def maxOffset : Nat := 0xFFFFFFFFFFFFFFFF

def ofBuffer (buffer : Bytes) : Span := ⟨buffer, 0, buffer.length⟩

def ofRange (buffer : Bytes) (i j : Nat) : Span :=
  let stop := min j buffer.length
  ⟨buffer, min i stop, stop⟩

variable (s : Span)

section Offsets

def length : Except Breach Nat := checkedDifference s.stop s.start

def bytes : Except Breach Bytes := s.buffer.cut s.start s.stop

def sum (m n : Nat) : Except Breach Nat := checkedSum (s.buffer.length + 1) m n

/-- The byte at offset `i` of the buffer, if the span reaches that far. -/
def at? (i : Nat) : Except Breach (Option UInt8) :=
  if i < s.stop then
    match s.buffer[i]? with
    | some b => .ok (some b)
    | none => .error (.index i s.buffer.length)
  else .ok none

theorem lt_stop_of_at? {s : Span} {i : Nat} {b : UInt8} (h : s.at? i = .ok (some b)) : i < s.stop := by
  rw [at?] at h
  split at h
  · assumption
  · cases h

def withStart (i : Nat) : Span := { s with start := min i s.stop }

def advance (n : Nat) : Span := s.withStart (min (s.start + n) maxOffset)

def take (n : Nat) : Except Breach Span := do
  let length ← s.length
  let stop ← s.sum s.start (min n length)
  .ok { s with stop := stop }

end Offsets

section Scans

def dropWhile (p : UInt8 → Bool) : Except Breach Span := do
  let bs ← s.bytes
  .ok (s.advance (bs.takeWhile p).length)

def skipWhitespace : Except Breach Span := s.dropWhile isWhitespace

def otherLineEnd (b : UInt8) : UInt8 := if b = byte '\r' then byte '\n' else byte '\r'

/-- The offset past the next line ending, from offset `i` on. -/
def pastLine (i : Nat) : Except Breach Nat :=
  match _ : s.at? i with
  | .error e => .error e
  | .ok none => .ok i
  | .ok (some b) => do
    let j ← s.sum i 1
    if isLineEnd b then
      if (← s.at? j) = some (otherLineEnd b) then s.sum j 1 else .ok j
    else pastLine (i + 1)
termination_by s.stop - i
decreasing_by
  have := lt_stop_of_at? (by assumption)
  omega

variable {s} in
theorem pastLine_of_none {i : Nat} (h : s.at? i = .ok none) : s.pastLine i = .ok i := by
  rw [pastLine]
  split <;> simp_all

variable {s} in
theorem pastLine_of_some {i : Nat} {b : UInt8} (h : s.at? i = .ok (some b)) :
    s.pastLine i = (do
      let j ← s.sum i 1
      if isLineEnd b then
        if (← s.at? j) = some (otherLineEnd b) then s.sum j 1 else .ok j
      else s.pastLine (i + 1)) := by
  rw [pastLine]
  split <;> simp_all

def skipLine : Except Breach Span := do
  let i ← s.pastLine s.start
  .ok (s.withStart i)

def skipToNextLine : Except Breach Span := do
  let s ← s.skipLine
  s.skipWhitespace

def seekLineLast : Except Breach Span := do
  let bs ← s.bytes
  let n := (bs.takeWhile fun b => !isLineEnd b).length
  let line := (s.buffer.slice s.start s.stop).slice 0 n
  .ok (s.advance ((lastIndex? (fun b => !continues b) line).getD 0))

def seekLast (p : UInt8 → Bool) : Except Breach Span := do
  let bs ← s.bytes
  match lastIndex? p bs with
  | some i => .ok (s.advance i)
  | none => .ok s

/-- The first place where the two bytes stand side by side. -/
def indexOfPair? (b b' : UInt8) (bs : Bytes) : Option Nat :=
  (bs.zip bs.tail).findIdx? (· == (b, b'))

def skipComment : Except Breach Span := do
  let bs ← s.bytes
  if [byte '/', byte '/'].isPrefixOf bs then s.skipLine
  else if [byte '/', byte '*'].isPrefixOf bs then
    let rest ← bs.cutFrom 2
    match indexOfPair? (byte '*') (byte '/') rest with
    | some i =>
      let n ← s.sum 2 i
      let n ← s.sum n 2
      .ok (s.advance n)
    | none => .ok (s.withStart s.stop)
  else .ok s

/-- Goes on until a turn skips nothing. -/
def skipComments (s : Span) : Except Breach Span := do
  let blank ← s.skipWhitespace
  let past ← blank.skipComment
  if past = blank then .ok past
  else if past.stop - past.start < s.stop - s.start then past.skipComments
  else .error .standstill
termination_by s.stop - s.start

def trimEnd : Except Breach Span := do
  let bs ← s.bytes
  let length ← s.length
  let n ← checkedDifference length (bs.reverse.takeWhile isWhitespace).length
  s.take n

end Scans

section Extraction

def takeUntil (p : UInt8 → Bool) : Except Breach Span := s.dropWhile fun b => !p b

/-- The run of a class after leading whitespace. -/
def wordUntil (p : UInt8 → Bool) : Except Breach Span := do
  let s ← s.skipWhitespace
  s.takeUntil p

def wordOf (p : UInt8 → Bool) : Except Breach Span := s.wordUntil fun b => isWhitespace b || !p b

/-- The offset of the next delimiter that is not hidden, from offset `i` on, or the end.  A backslash
at the end hides a byte that is not there. -/
def seekQuote (delimiter : UInt8) (escapes : Bool) (i : Nat) : Except Breach Nat :=
  match _ : s.at? i with
  | .error e => .error e
  | .ok none => .ok (min i s.stop)
  | .ok (some b) =>
    if escapes && b == byte '\\' then do
      let j ← s.sum i 1
      let _ ← s.sum j 1
      seekQuote delimiter escapes (i + 2)
    else if b = delimiter then .ok (min i s.stop)
    else do
      let _ ← s.sum i 1
      seekQuote delimiter escapes (i + 1)
termination_by s.stop - i
decreasing_by
  all_goals
    have := lt_stop_of_at? (by assumption)
    omega

variable {s} in
theorem seekQuote_of_none {delimiter : UInt8} {escapes : Bool} {i : Nat} (h : s.at? i = .ok none) :
    s.seekQuote delimiter escapes i = .ok (min i s.stop) := by
  rw [seekQuote]
  split <;> simp_all

variable {s} in
theorem seekQuote_of_some {delimiter : UInt8} {escapes : Bool} {i : Nat} {b : UInt8}
    (h : s.at? i = .ok (some b)) :
    s.seekQuote delimiter escapes i =
      if escapes && b == byte '\\' then do
        let j ← s.sum i 1
        let _ ← s.sum j 1
        s.seekQuote delimiter escapes (i + 2)
      else if b = delimiter then .ok (min i s.stop)
      else (do
        let _ ← s.sum i 1
        s.seekQuote delimiter escapes (i + 1)) := by
  rw [seekQuote]
  split <;> simp_all

def quoted (delimiter : UInt8) (escapes : Bool) : Except Breach (Option Span) := do
  let before ← s.seekQuote delimiter escapes s.start
  if s.stop ≤ before then .ok none
  else
    let inner ← s.sum before 1
    let close ← s.seekQuote delimiter escapes inner
    let past ← s.sum close 1
    .ok (some (s.withStart past))

def splitOff (separator : UInt8) : Except Breach Span := do
  if s.start = s.stop then .ok s
  else
    let cut ← s.takeUntil (· == separator)
    .ok (cut.advance 1)

def expect (literal : Bytes) : Except Breach (Option Span) := do
  let bs ← s.bytes
  .ok (if literal.isPrefixOf bs then some (s.advance literal.length) else none)

def read (past : Bytes → Except Breach (Option Nat)) : Except Breach (Option Span) := do
  let bs ← s.bytes
  let r ← past bs
  .ok (r.map s.advance)

end Extraction

open Cursor (Operation)

def perform : Operation → Except Breach (Option Span)
  | .advance n => .ok (some (s.advance n))
  | .atEnd => .ok (some (s.withStart s.stop))
  | .take n => some <$> s.take n
  | .dropWhile p => some <$> s.dropWhile p
  | .skipWhitespace => some <$> s.skipWhitespace
  | .seek b => some <$> s.dropWhile (· != b)
  | .skipLine => some <$> s.skipLine
  | .skipToNextLine => some <$> s.skipToNextLine
  | .seekLineLast => some <$> s.seekLineLast
  | .seekLast p => some <$> s.seekLast p
  | .skipComment => some <$> s.skipComment
  | .skipComments => some <$> s.skipComments
  | .takeUntil p => some <$> s.takeUntil p
  | .field b => some <$> s.wordUntil (· == b)
  | .word => some <$> s.wordUntil isWhitespace
  | .wordOf p => some <$> s.wordOf p
  | .identifier => some <$> s.wordOf fun b => b == byte '_' || isAlphanumeric b
  | .identifierWith others => some <$> s.wordOf fun b => isAlphanumeric b || others.contains b
  | .wordIn bytes => some <$> s.wordOf fun b => bytes.contains b
  | .qualifiedName separator =>
    some <$> s.wordOf fun b =>
      b == separator || (Bytes.ofString "$^_").contains b || isAlphanumeric b
  | .quoted delimiter escapes => s.quoted delimiter escapes
  | .splitOff separator => some <$> s.splitOff separator
  | .expect literal => s.expect literal
  | .trimEnd => some <$> s.trimEnd
  | .trim => some <$> (s.skipWhitespace >>= trimEnd)
  | .int16 => s.read pastSigned
  | .int32 => s.read pastSigned
  | .uint32 => s.read (pastUnsigned · 10)
  | .hexadecimal => s.read (pastUnsigned · 16)
  | .float => s.read pastFloat

/-- The next span: the one that the operation leads to, or the same again if it leads nowhere. -/
def step (o : Operation) : Except Breach Span := do
  let r ← s.perform o
  .ok (r.getD s)

/-- One operation after the other. -/
def performAll (os : List Operation) : Except Breach Span := os.foldlM step s

end Span

end SExpression
