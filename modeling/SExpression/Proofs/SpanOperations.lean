import SExpression.Proofs.CheckedNumbers
import SExpression.Proofs.CursorLexemes

/-! # Operations on bare offsets

The span of a cursor is the cursor without the facts it carries.  An operation on the offsets of a
span does to it what the operation on cursors does, and never breaches (`perform_span`): its slices
and indices lie in the buffer, its sums go at most one beyond, and its loops get ahead.

All that is needed of the buffer is that its length fits into a word, where the sum in `advance`
stops. -/
set_option autoImplicit false
namespace SExpression

namespace Cursor

def span (c : Cursor) : Span := ⟨c.buffer, c.start, c.stop⟩

section Offsets
variable (c : Cursor)

@[simp] theorem buffer_span : c.span.buffer = c.buffer := rfl

@[simp] theorem start_span : c.span.start = c.start := rfl

@[simp] theorem stop_span : c.span.stop = c.stop := rfl

theorem bytes_span : c.span.bytes = .ok c.bytes := Bytes.cut_ok c.start_le_stop c.stop_le_length

theorem length_span : c.span.length = .ok c.length := checkedDifference_ok c.start_le_stop

theorem withStart_span (n : Nat) : c.span.withStart (c.start + n) = (c.advance n).span := rfl

theorem withStart_stop : c.span.withStart c.stop = c.atEnd.span := by
  simp [Span.withStart, span, atEnd]

theorem sum_span {m n : Nat} (h : m + n ≤ c.stop + 1) : c.span.sum m n = .ok (m + n) :=
  checkedSum_ok (Nat.le_trans h (Nat.succ_le_succ c.stop_le_length))

theorem at?_span (k : Nat) : c.span.at? (c.start + k) = .ok c.bytes[k]? := by
  have hstart := c.start_le_stop
  have hstop := c.stop_le_length
  by_cases hk : c.start + k < c.stop
  · have hin : c.start + k < c.buffer.length := by omega
    have hbyte : c.bytes[k]? = c.buffer[c.start + k]? := by
      rw [bytes, List.getElem?_take_of_lt (by simp only [length]; omega), List.getElem?_drop]
    rw [Span.at?, stop_span, if_pos hk, hbyte]
    simp [List.getElem?_eq_getElem hin]
  · have hnone : c.bytes[k]? = none := by
      rw [List.getElem?_eq_none_iff, c.length_bytes, length]
      omega
    rw [Span.at?, stop_span, if_neg hk, hnone]

theorem end_span {k : Nat} (h : c.bytes.drop k = []) : c.span.at? (c.start + k) = .ok none := by
  rw [c.at?_span, List.getElem?_eq_none_iff.mpr (List.drop_eq_nil_iff.mp h)]

/-- What the bytes say of the byte at the front of a stretch. -/
theorem front_span {k : Nat} {b : UInt8} {rest : Bytes} (h : c.bytes.drop k = b :: rest) :
    c.span.at? (c.start + k) = .ok (some b) ∧ c.bytes.drop (k + 1) = rest ∧
      c.start + k + 1 + rest.length = c.stop := by
  have hstart := c.start_le_stop
  rcases drop_cases c.bytes k with ⟨_, hnil⟩ | ⟨b', rest', hsome, hdrop, hrest, hlength⟩
  · rw [hnil] at h
    cases h
  · rw [hdrop] at h
    cases h
    rw [c.length_bytes, length] at hlength
    exact ⟨by rw [c.at?_span, hsome], hrest, by omega⟩

theorem take_span (n : Nat) : c.span.take n = .ok (c.take n).span := by
  have hstart := c.start_le_stop
  have hsum : c.span.sum c.start (min n c.length) = .ok (c.start + min n c.length) := by
    apply c.sum_span
    simp only [length]
    omega
  rw [Span.take, length_span, ok_bind]
  exact (congrArg (· >>= _) hsum).trans rfl

end Offsets

section Scans
variable (c : Cursor)

/-- Two line ends of different kinds make one ending. -/
theorem isLineEnd_pair_iff {b : UInt8} (hb : isLineEnd b = true) (b' : UInt8) :
    (isLineEnd b' && b' != b) = true ↔ b' = Span.otherLineEnd b := by
  simp only [Span.otherLineEnd, isLineEnd, Bool.or_eq_true, Bool.and_eq_true, beq_iff_eq,
    bne_iff_ne] at hb ⊢
  rcases hb with rfl | rfl
  · rw [if_pos rfl]
    constructor
    · rintro ⟨h | h, hne⟩
      · exact absurd h hne
      · exact h
    · rintro rfl
      exact ⟨Or.inr rfl, by decide⟩
  · rw [if_neg (by decide)]
    constructor
    · rintro ⟨h | h, hne⟩
      · exact h
      · exact absurd h hne
    · rintro rfl
      exact ⟨Or.inl rfl, by decide⟩

theorem pastLine_span (k : Nat) :
    c.span.pastLine (c.start + k) = .ok (c.start + k + lineLength (c.bytes.drop k)) := by
  induction hbs : c.bytes.drop k generalizing k with
  | nil =>
      rw [Span.pastLine_of_none (c.end_span hbs)]
      rfl
  | cons b rest ih =>
      obtain ⟨hat, hrest, hlength⟩ := c.front_span hbs
      rw [Span.pastLine_of_some hat, c.sum_span (m := c.start + k) (n := 1) (by omega), ok_bind,
        lineLength.eq_def]
      by_cases hend : isLineEnd b = true
      · have hnext := c.at?_span (k + 1)
        rw [← List.head?_drop, hrest] at hnext
        simp only [if_pos hend, Nat.add_assoc, hnext, ok_bind]
        cases rest with
        | nil => rfl
        | cons b' tail =>
            simp only [List.head?_cons, Option.some_inj, isLineEnd_pair_iff hend]
            split_ifs with hother
            · rw [List.length_cons] at hlength
              rw [c.sum_span (by omega), Nat.add_assoc, Nat.add_assoc]
            · rfl
      · simp only [if_neg hend]
        rw [Nat.add_assoc, ih (k + 1) hrest, Nat.add_assoc, Nat.add_assoc, Nat.add_assoc]

theorem skipLine_span : c.span.skipLine = .ok c.skipLine.span := by
  have hline := c.pastLine_span 0
  rw [Nat.add_zero, List.drop_zero] at hline
  rw [Span.skipLine, start_span, hline, ok_bind, withStart_span]
  rfl

theorem seekQuote_span (delimiter : UInt8) (escapes : Bool) (k : Nat) :
    c.span.seekQuote delimiter escapes (c.start + k) =
      .ok (min (c.start + k + unquotedLength delimiter escapes false (c.bytes.drop k)) c.stop) := by
  induction hn : (c.bytes.drop k).length using Nat.strong_induction_on generalizing k with
  | _ n ih =>
    cases hbs : c.bytes.drop k with
    | nil =>
        rw [Span.seekQuote_of_none (c.end_span hbs)]
        rfl
    | cons b rest =>
        obtain ⟨hat, hrest, hlength⟩ := c.front_span hbs
        rw [hbs, List.length_cons] at hn
        have hsum : c.span.sum (c.start + k) 1 = .ok (c.start + k + 1) := c.sum_span (by omega)
        rw [Span.seekQuote_of_some hat]
        simp only [unquotedLength, Bool.false_eq_true, if_false]
        by_cases hescape : (escapes && b == byte '\\') = true
        · -- the byte after the backslash is skipped with it, if there is one
          have hnext : c.span.sum (c.start + k + 1) 1 = .ok (c.start + k + 1 + 1) :=
            c.sum_span (by omega)
          rw [if_pos hescape, if_pos hescape, hsum, ok_bind, hnext, ok_bind, Nat.add_assoc]
          cases rest with
          | nil =>
              have hbeyond : c.bytes.drop (k + 2) = [] := by
                rw [← List.tail_drop, hrest]
                rfl
              rw [List.length_nil] at hlength
              have hpast : min (c.start + (k + 2)) c.stop = c.stop := by omega
              have hend : min (c.start + k + 1) c.stop = c.stop := by omega
              rw [ih 0 (by omega) (k + 2) (by rw [hbeyond]; rfl), hbeyond]
              simp only [unquotedLength, Nat.add_zero, hpast, hend]
          | cons b' tail =>
              have htail : c.bytes.drop (k + 2) = tail := by
                rw [← List.tail_drop, hrest]
                rfl
              rw [ih tail.length (by rw [← hn, List.length_cons]; omega) (k + 2) (by rw [htail]), htail,
                unquotedLength, if_pos rfl]
              congr 2
              omega
        · rw [if_neg hescape, if_neg hescape]
          by_cases hdelimiter : b = delimiter
          · rw [if_pos hdelimiter, if_pos hdelimiter]
            rfl
          · rw [if_neg hdelimiter, if_neg hdelimiter, hsum, ok_bind, Nat.add_assoc,
              ih rest.length (by omega) (k + 1) (by rw [hrest]), hrest]
            congr 2
            omega

theorem quoted_span (delimiter : UInt8) (escapes : Bool) :
    c.span.quoted delimiter escapes =
      .ok (((c.quoted? delimiter escapes).map (·.1)).map span) := by
  have hopen := c.seekQuote_span delimiter escapes 0
  have hle := unquotedLength_le delimiter escapes false c.bytes
  have hstart := c.start_le_stop
  rw [Nat.add_zero, List.drop_zero] at hopen
  rw [c.length_bytes] at hle
  rw [Span.quoted, start_span, hopen, ok_bind, stop_span, quoted?]
  have hbefore : min (c.start + unquotedLength delimiter escapes false c.bytes) c.stop =
      c.start + unquotedLength delimiter escapes false c.bytes := by
    simp only [length] at hle
    omega
  rw [hbefore]
  generalize unquotedLength delimiter escapes false c.bytes = before at hle
  by_cases hnone : c.length ≤ before
  · rw [if_pos (by simp only [length] at hnone; omega), if_pos hnone]
    rfl
  · have hinner : c.start + before + 1 ≤ c.stop := by
      simp only [length] at hnone
      omega
    have hclose := c.seekQuote_span delimiter escapes (before + 1)
    rw [← bytes_advance, ← Nat.add_assoc] at hclose
    rw [if_neg (by simp only [length] at hnone; omega), if_neg hnone, c.sum_span (by omega), ok_bind,
      hclose, ok_bind, c.sum_span (by omega), ok_bind]
    have hadvanced : (c.advance (before + 1)).start = c.start + before + 1 := by
      rw [c.start_advance (before + 1) (by simp only [length]; omega), Nat.add_assoc]
    dsimp only
    generalize unquotedLength delimiter escapes false (c.advance (before + 1)).bytes = inner
    simp only [Option.map_some, span, Span.withStart, advance] at hadvanced ⊢
    rw [hadvanced]

theorem trimEnd_span : c.span.trimEnd = .ok c.trimEnd.span := by
  have hblank : (c.bytes.reverse.takeWhile isWhitespace).length ≤ c.length := by
    have hle := (List.takeWhile_prefix (l := c.bytes.reverse) isWhitespace).length_le
    rwa [List.length_reverse, c.length_bytes] at hle
  rw [Span.trimEnd, bytes_span, ok_bind, length_span, ok_bind, checkedDifference_ok hblank, ok_bind,
    take_span]
  rfl

section Comments

/-- The mark that ends a block is where the search finds it. -/
theorem blockLength_eq (bs : Bytes) :
    blockLength bs =
      ((Span.indexOfPair? (byte '*') (byte '/') bs).map (· + 2)).getD bs.length := by
  induction bs with
  | nil => rfl
  | cons b bs ih =>
      cases bs with
      | nil => rfl
      | cons b' rest =>
          have hstep : Span.indexOfPair? (byte '*') (byte '/') (b :: b' :: rest) =
              if b = byte '*' ∧ b' = byte '/' then some 0
              else (Span.indexOfPair? (byte '*') (byte '/') (b' :: rest)).map (· + 1) := by
            simp [Span.indexOfPair?, List.findIdx?_cons]
          rw [blockLength, hstep, ih]
          split_ifs
          · rfl
          · cases Span.indexOfPair? (byte '*') (byte '/') (b' :: rest) with
            | none => simp [Nat.add_comm]
            | some i => simp; omega

theorem blockLength_le (bs : Bytes) : blockLength bs ≤ bs.length := by
  induction bs using blockLength.induct with
  | case1 => exact Nat.le_refl 0
  | case2 b => exact Nat.le_refl 1
  | case3 b b' rest hmark => simp [blockLength, hmark]
  | case4 b b' rest hmark ih =>
      rw [blockLength, if_neg hmark, List.length_cons, Nat.add_comm]
      exact Nat.succ_le_succ ih

theorem isPrefixOf_pair (x y b b' : UInt8) (rest : Bytes) :
    ([x, y].isPrefixOf (b :: b' :: rest) = true) = (b = x ∧ b' = y) := by
  simp only [List.isPrefixOf, Bool.and_true, Bool.and_eq_true, beq_iff_eq]
  rw [@eq_comm _ x b, @eq_comm _ y b']

end Comments

section Lines

/-- A line, the first of a text that begins with a character, is cut out as a whole. -/
theorem slice_takeWhile_line (bs : Bytes) (hfront : bs.isBoundaryAt 0 = true) :
    bs.slice 0 (bs.takeWhile fun b => !isLineEnd b).length = bs.takeWhile fun b => !isLineEnd b := by
  obtain ⟨line, hline, hsplit, _, hend⟩ := exists_takeWhile (fun b => !isLineEnd b) bs
  rw [hline]
  have hback : bs.isBoundaryAt line.length = true := by
    rw [Bytes.isBoundaryAt]
    cases hdrop : bs.drop line.length with
    | nil =>
        have hall : bs = line := by rw [hsplit, hdrop, List.append_nil]
        simp [hall]
    | cons b rest =>
        have hlineEnd : isLineEnd b = true := by simpa [hdrop] using hend
        simp [continues_of_ascii (ascii_of_isWhitespace (isLineEnd_isWhitespace hlineEnd))]
  rw [Bytes.slice, hfront, hback, Bool.and_self, if_pos rfl, List.drop_zero, Nat.sub_zero, hsplit,
    List.take_left]

theorem slice_line :
    (c.buffer.slice c.start c.stop).slice 0 (c.bytes.takeWhile fun b => !isLineEnd b).length =
      c.text.takeWhile fun b => !isLineEnd b := by
  have htext : c.text = c.buffer.slice c.start c.stop := rfl
  by_cases hwhole : (c.buffer.isBoundaryAt c.start && c.buffer.isBoundaryAt c.stop) = true
  · have hbytes : c.buffer.slice c.start c.stop = c.bytes := if_pos hwhole
    have hfront : c.bytes.isBoundaryAt 0 = true := by
      cases hbytes : c.bytes with
      | nil => rfl
      | cons b rest =>
          have hb := c.getElem?_buffer 0 b (by rw [hbytes]; rfl)
          rw [Nat.add_zero] at hb
          have hstart := (Bool.and_eq_true_iff.mp hwhole).1
          rwa [Bytes.isBoundaryAt_getElem c.start b hb] at hstart
    rw [htext, hbytes, slice_takeWhile_line c.bytes hfront]
  · have hnone : c.buffer.slice c.start c.stop = [] := if_neg hwhole
    rw [htext, hnone]
    simp [Bytes.slice]

end Lines

section Advancing
variable (hshort : c.buffer.length < 2 ^ 64)
include hshort

theorem advance_span (n : Nat) : c.span.advance n = (c.advance n).span := by
  have hstop := c.stop_le_length
  have hmax : min (min (c.start + n) Span.maxOffset) c.stop = min (c.start + n) c.stop := by
    simp only [Span.maxOffset]
    omega
  simp [Span.advance, Span.withStart, span, advance, hmax]

theorem dropWhile_span (p : UInt8 → Bool) : c.span.dropWhile p = .ok (c.dropWhile p).span := by
  rw [Span.dropWhile, bytes_span, ok_bind, c.advance_span hshort]
  rfl

/-- A block comment is left where its mark ends, or at the end of the range. -/
theorem skipBlock_span (b b' : UInt8) (rest : Bytes) (hbytes : c.bytes = b :: b' :: rest) :
    (match Span.indexOfPair? (byte '*') (byte '/') rest with
      | some i => (do
        let n ← c.span.sum 2 i
        let n ← c.span.sum n 2
        .ok (c.span.advance n))
      | none => .ok (c.span.withStart c.span.stop)) =
      Except.ok (c.advance (2 + blockLength rest)).span := by
  have hlength := c.length_bytes
  rw [hbytes, List.length_cons, List.length_cons, length] at hlength
  have hmark := blockLength_eq rest
  have hle := blockLength_le rest
  cases hindex : Span.indexOfPair? (byte '*') (byte '/') rest with
  | some i =>
      rw [hindex] at hmark
      have hblock : blockLength rest = i + 2 := hmark
      have hstart := c.start_le_stop
      simp only
      rw [c.sum_span (by omega), ok_bind, c.sum_span (by omega), ok_bind, c.advance_span hshort,
        hblock, Nat.add_assoc]
  | none =>
      rw [hindex] at hmark
      have hblock : blockLength rest = rest.length := hmark
      simp only
      rw [stop_span, withStart_stop, c.advance_eq_atEnd _ (by rw [length]; omega)]

theorem skipComment_span : c.span.skipComment = .ok c.skipComment.span := by
  rw [Span.skipComment, bytes_span, ok_bind, skipComment]
  match hbytes : c.bytes with
  | [] =>
      rw [commentLength, advance_zero]
      · rfl
      · simp
  | [b] =>
      rw [commentLength, advance_zero]
      · simp
      · simp
  | b :: b' :: rest =>
      simp only [isPrefixOf_pair, commentLength]
      split_ifs
      · rw [← hbytes]
        exact c.skipLine_span
      · rw [Bytes.cutFrom_ok (by simp), ok_bind]
        exact c.skipBlock_span hshort b b' rest hbytes
      · rw [advance_zero]

theorem seekLast_span (p : UInt8 → Bool) : c.span.seekLast p = .ok (c.seekLast p).span := by
  rw [Span.seekLast, bytes_span, ok_bind, seekLast]
  cases lastIndex? p c.bytes with
  | none => rfl
  | some i => exact congrArg Except.ok (c.advance_span hshort i)

theorem skipComments_span : c.span.skipComments = .ok c.skipComments.span := by
  induction hn : c.length using Nat.strong_induction_on generalizing c with
  | _ n ih =>
    have hskip : c.span.skipWhitespace = .ok c.skipWhitespace.span :=
      c.dropWhile_span hshort isWhitespace
    have hblank := c.start_le_start_advance (c.bytes.takeWhile isWhitespace).length
    have hpast := c.skipWhitespace.start_le_start_advance (commentLength c.skipWhitespace.bytes)
    have hend := c.skipWhitespace.skipComment.start_le_stop
    rw [Span.skipComments, hskip, ok_bind, c.skipWhitespace.skipComment_span hshort, ok_bind,
      skipComments]
    change c.start ≤ c.skipWhitespace.start at hblank
    change c.skipWhitespace.start ≤ c.skipWhitespace.skipComment.start at hpast
    by_cases hahead : c.skipWhitespace.start < c.skipWhitespace.skipComment.start
    · have hne : c.skipWhitespace.skipComment.span ≠ c.skipWhitespace.span := by
        intro h
        have hsame : c.skipWhitespace.skipComment.start = c.skipWhitespace.start :=
          congrArg Span.start h
        omega
      -- something was skipped, so that less is left and the loop does not stand still
      have hstop : c.skipWhitespace.skipComment.stop = c.stop := rfl
      rw [if_neg hne, if_pos hahead, stop_span, start_span, stop_span, start_span,
        if_pos (by omega)]
      exact ih c.skipWhitespace.skipComment.length (by simp only [← hn, length]; omega)
        c.skipWhitespace.skipComment hshort rfl
    · have hsame : c.skipWhitespace.skipComment.span = c.skipWhitespace.span := by
        simp only [span, Span.mk.injEq]
        exact ⟨rfl, by omega, rfl⟩
      rw [if_pos hsame, if_neg hahead, hsame]

theorem skipToNextLine_span : c.span.skipToNextLine = .ok c.skipToNextLine.span := by
  rw [Span.skipToNextLine, skipLine_span, ok_bind]
  exact c.skipLine.dropWhile_span hshort isWhitespace

theorem trim_span : (c.span.skipWhitespace >>= Span.trimEnd) = .ok c.trim.span := by
  have hskip : c.span.skipWhitespace = .ok c.skipWhitespace.span :=
    c.dropWhile_span hshort isWhitespace
  rw [hskip, ok_bind, trimEnd_span]
  rfl

theorem seekLineLast_span : c.span.seekLineLast = .ok c.seekLineLast.span := by
  rw [Span.seekLineLast, bytes_span, ok_bind]
  simp only [buffer_span, start_span, stop_span, c.slice_line]
  rw [c.advance_span hshort]
  rfl

theorem splitOff_span (separator : UInt8) :
    c.span.splitOff separator = .ok (c.splitOff separator).span := by
  rw [Span.splitOff, splitOff]
  by_cases hempty : c.start = c.stop
  · rw [start_span, stop_span, if_pos hempty, if_pos (by simp [isEmpty, hempty])]
  · have hcut : c.span.takeUntil (· == separator) = .ok (c.takeUntil (· == separator)).1.span :=
      c.dropWhile_span hshort _
    rw [start_span, stop_span, if_neg hempty, if_neg (by simp [isEmpty, hempty]), hcut, ok_bind]
    exact congrArg Except.ok ((c.takeUntil (· == separator)).1.advance_span hshort 1)

theorem expect_span (literal : Bytes) :
    c.span.expect literal = .ok ((c.expect? literal).map span) := by
  rw [Span.expect, bytes_span, ok_bind, expect?, c.advance_span hshort]
  split <;> rfl

theorem read_span {α : Type} (past : Bytes → Except Breach (Option Nat))
    (scan : Bytes → Option (Reading α)) (h : past c.bytes = .ok ((scan c.bytes).map (·.length))) :
    c.span.read past = .ok (((c.read? scan).map (·.1)).map span) := by
  rw [Span.read, bytes_span, ok_bind, h, ok_bind, read?]
  cases scan c.bytes with
  | none => rfl
  | some r => exact congrArg (fun s => Except.ok (some s)) (c.advance_span hshort r.length)

end Advancing

end Scans

section Operations
variable (c : Cursor) (hshort : c.buffer.length < 2 ^ 64)
include hshort

theorem wordUntil_span (p : UInt8 → Bool) :
    c.span.wordUntil p = .ok (c.skipWhitespace.takeUntil p).1.span := by
  have hskip : c.span.skipWhitespace = .ok c.skipWhitespace.span :=
    c.dropWhile_span hshort isWhitespace
  rw [Span.wordUntil, hskip, ok_bind]
  exact c.skipWhitespace.dropWhile_span hshort _

/-- Offset for offset an operation does to the span of a cursor what it does to the cursor, without a
breach. -/
theorem perform_span (o : Operation) : c.span.perform o = .ok ((o.apply c).map span) := by
  cases o with
  | advance n => exact congrArg (fun s => Except.ok (some s)) (c.advance_span hshort n)
  | atEnd => exact congrArg (fun s => Except.ok (some s)) c.withStart_stop
  | take n => exact congrArg (some <$> ·) (c.take_span n)
  | dropWhile p => exact congrArg (some <$> ·) (c.dropWhile_span hshort p)
  | skipWhitespace => exact congrArg (some <$> ·) (c.dropWhile_span hshort isWhitespace)
  | seek b => exact congrArg (some <$> ·) (c.dropWhile_span hshort (· != b))
  | skipLine => exact congrArg (some <$> ·) c.skipLine_span
  | skipToNextLine => exact congrArg (some <$> ·) (c.skipToNextLine_span hshort)
  | seekLineLast => exact congrArg (some <$> ·) (c.seekLineLast_span hshort)
  | seekLast p => exact congrArg (some <$> ·) (c.seekLast_span hshort p)
  | skipComment => exact congrArg (some <$> ·) (c.skipComment_span hshort)
  | skipComments => exact congrArg (some <$> ·) (c.skipComments_span hshort)
  | takeUntil p => exact congrArg (some <$> ·) (c.dropWhile_span hshort fun b => !p b)
  | field b => exact congrArg (some <$> ·) (c.wordUntil_span hshort (· == b))
  | word => exact congrArg (some <$> ·) (c.wordUntil_span hshort isWhitespace)
  | wordOf p => exact congrArg (some <$> ·) (c.wordUntil_span hshort _)
  | identifier => exact congrArg (some <$> ·) (c.wordUntil_span hshort _)
  | identifierWith others => exact congrArg (some <$> ·) (c.wordUntil_span hshort _)
  | wordIn bytes => exact congrArg (some <$> ·) (c.wordUntil_span hshort _)
  | qualifiedName separator => exact congrArg (some <$> ·) (c.wordUntil_span hshort _)
  | quoted delimiter escapes => exact c.quoted_span delimiter escapes
  | splitOff separator => exact congrArg (some <$> ·) (c.splitOff_span hshort separator)
  | expect literal => exact c.expect_span hshort literal
  | trimEnd => exact congrArg (some <$> ·) c.trimEnd_span
  | trim => exact congrArg (some <$> ·) (c.trim_span hshort)
  | int16 => exact c.read_span hshort _ _ (pastSigned_scanSigned c.bytes .int16)
  | int32 => exact c.read_span hshort _ _ (pastSigned_scanSigned c.bytes .int32)
  | uint32 => exact c.read_span hshort _ _ (pastUnsigned_ok c.bytes .uint32 10)
  | hexadecimal => exact c.read_span hshort _ _ (pastUnsigned_ok c.bytes .uint32 16)
  | float => exact c.read_span hshort _ _ (pastFloat_scanFloat c.bytes)

end Operations

end Cursor

end SExpression
