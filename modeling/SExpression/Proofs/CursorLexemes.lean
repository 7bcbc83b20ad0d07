import SExpression.Reader
import SExpression.Proofs.CharacterBoundaries
import SExpression.Proofs.LexicalGrammar

/-! # Lexemes under a cursor

Moving a cursor over whitespace or a comment leaves the lexemes of its range alone
(`lexemes_skipWhitespace`, `lexemes_skipToNextLine`), and moving it over a lexeme takes that lexeme
away (`lexemes_front`).  What the cursor hands out on the way is the text of the lexeme
(`quoted?_front`, `takeUntil_front`), since it never stops inside a character except at a torn
end (`IsWhole`). -/
set_option autoImplicit false
namespace SExpression

section Gaps

theorem gapLength_blank (bs : Bytes) :
    gapLength false bs = blankLength bs + gapLength false (bs.drop (blankLength bs)) := by
  induction bs with
  | nil => rfl
  | cons b rest ih =>
      by_cases h : isWhitespace b = true
      · have hblank : blankLength (b :: rest) = blankLength rest + 1 := by simp [blankLength, h]
        rw [hblank, List.drop_succ_cons]
        simp only [gapLength, Bool.false_eq_true, if_false, h, if_true]
        omega
      · have hblank : blankLength (b :: rest) = 0 := by simp [blankLength, h]
        rw [hblank, List.drop_zero, Nat.zero_add]

/-- A comment goes to the end of its line; the second byte of a line ending is whitespace. -/
theorem gapLength_line (bs : Bytes) :
    gapLength true bs = lineLength bs + gapLength false (bs.drop (lineLength bs)) := by
  induction bs with
  | nil => rfl
  | cons b rest ih =>
      by_cases h : isLineEnd b = true
      · have hshort : gapLength true (b :: rest) = 1 + gapLength false rest := by
          simp [gapLength, h]
        cases rest with
        | nil => simp [lineLength, h, gapLength]
        | cons b' rest =>
            by_cases hpair : (isLineEnd b' && b' != b) = true
            · have hspace := isLineEnd_isWhitespace (Bool.and_eq_true_iff.mp hpair).1
              simp only [hshort, lineLength, h, if_true, hpair, List.drop_succ_cons, List.drop_zero]
              simp only [gapLength, Bool.false_eq_true, if_false, hspace, if_true]
              omega
            · simp only [hshort, lineLength, h, if_true, hpair, Bool.false_eq_true, if_false,
                List.drop_succ_cons, List.drop_zero]
      · have hline : lineLength (b :: rest) = 1 + lineLength rest := by
          rw [lineLength.eq_def]
          simp [h]
        have hdrop : (b :: rest).drop (1 + lineLength rest) = rest.drop (lineLength rest) := by
          rw [Nat.add_comm, List.drop_succ_cons]
        rw [hline, hdrop]
        simp only [gapLength, if_true, h, Bool.not_false, ih]
        omega

/-- Part of a gap may be taken off the front. -/
theorem Lexeme.all_drop (escapes torn : Bool) (offset n : Nat) (bs : Bytes)
    (h : gapLength false bs = n + gapLength false (bs.drop n)) :
    Lexeme.all escapes torn offset bs = Lexeme.all escapes torn (offset + n) (bs.drop n) := by
  have hdrop : bs.drop (gapLength false bs) = (bs.drop n).drop (gapLength false (bs.drop n)) := by
    rw [List.drop_drop, h]
  rw [Lexeme.all, Lexeme.all, ← hdrop, h]
  simp only [Nat.add_assoc]

theorem Lexeme.all_front (escapes torn : Bool) (offset : Nat) (b : UInt8) (rest : Bytes)
    (hspace : isWhitespace b = false) (hsign : b ≠ byte ';') :
    Lexeme.all escapes torn offset (b :: rest) =
      ⟨offset, (first escapes torn b rest).1⟩ ::
        Lexeme.all escapes torn (offset + ((first escapes torn b rest).2 + 1))
          (rest.drop (first escapes torn b rest).2) := by
  have hgap : gapLength false (b :: rest) = 0 := by simp [gapLength, hspace, hsign]
  have hoffset : ∀ n, offset + 0 + 1 + n = offset + (n + 1) := by omega
  rw [Lexeme.all, hgap]
  split
  · rename_i heq
    cases heq
  · rename_i b' rest' heq
    cases heq
    simp only [hoffset, Nat.add_zero]

theorem Lexeme.first_eq_opening_iff (escapes torn : Bool) (b : UInt8) (rest : Bytes) :
    (first escapes torn b rest).1 = .opening ↔ b = byte '(' := by
  unfold first
  by_cases hopening : b = byte '('
  · simp [hopening]
  · simp only [hopening, if_false, iff_false]
    split
    · simp
    split
    · split <;> simp
    · simp

theorem Lexeme.first_quote (escapes torn : Bool) (rest : Bytes) {n : Nat}
    (hn : unquotedLength (byte '"') escapes false rest = n) :
    first escapes torn (byte '"') rest =
      if (rest.drop n).isEmpty then (.quoted (if torn then [] else rest.take n) false, n)
      else (.quoted (rest.take n) true, n + 1) := by
  rw [first, if_neg (by decide), if_neg (by decide), if_pos rfl, hn]

theorem Lexeme.first_bare (escapes torn : Bool) (b : UInt8) (rest : Bytes)
    (hb : isBoundary b = false) {run : Bytes}
    (hrun : rest.takeWhile (fun b => !isBoundary b) = run) :
    first escapes torn b rest =
      (.bare (if torn && (rest.drop run.length).isEmpty then [] else b :: run), run.length) := by
  have hkinds : b ≠ byte '(' ∧ b ≠ byte ')' ∧ b ≠ byte '"' := by
    simp only [isBoundary, Bool.or_eq_false_iff, beq_eq_false_iff_ne] at hb
    exact ⟨hb.1.1.1.1, hb.1.1.1.2, hb.1.1.2⟩
  simp only [first, if_neg hkinds.1, if_neg hkinds.2.1, if_neg hkinds.2.2, hrun]

end Gaps

section Extents

theorem exists_takeWhile (p : UInt8 → Bool) (bs : Bytes) : ∃ run,
    bs.takeWhile p = run ∧ bs = run ++ bs.drop run.length ∧ (∀ b ∈ run, p b = true) ∧
      ∀ b ∈ (bs.drop run.length).head?, p b = false := by
  have hsplit : bs.takeWhile p ++ bs.dropWhile p = bs := List.takeWhile_append_dropWhile
  have hdrop : bs.drop (bs.takeWhile p).length = bs.dropWhile p := by
    conv => lhs; arg 2; rw [← hsplit]
    rw [List.drop_left]
  refine ⟨_, rfl, by rw [hdrop, hsplit], fun b hb => List.mem_takeWhile_imp hb, ?_⟩
  intro b hb
  rw [hdrop] at hb
  have hhead := List.head?_dropWhile_not p bs
  rw [Option.mem_def.mp hb] at hhead
  simpa using hhead

theorem getElem?_unquotedLength (delimiter : UInt8) (escapes hidden : Bool) (bs : Bytes)
    (h : unquotedLength delimiter escapes hidden bs < bs.length) :
    bs[unquotedLength delimiter escapes hidden bs]? = some delimiter := by
  induction bs generalizing hidden with
  | nil => cases h
  | cons b rest ih =>
      simp only [unquotedLength, List.length_cons] at h ⊢
      have hskip : ∀ hidden, 1 + unquotedLength delimiter escapes hidden rest < rest.length + 1 →
          (b :: rest)[1 + unquotedLength delimiter escapes hidden rest]? = some delimiter := by
        intro hidden hlt
        rw [Nat.add_comm, List.getElem?_cons_succ]
        exact ih hidden (by omega)
      revert h
      split
      · exact hskip false
      split
      · exact hskip true
      split
      · rename_i heq
        intro _
        rw [heq]
        rfl
      · exact hskip false

theorem lineLength_last (bs : Bytes) :
    lineLength bs = bs.length ∨
      ∃ n b, lineLength bs = n + 1 ∧ bs[n]? = some b ∧ isLineEnd b = true := by
  induction bs with
  | nil => exact Or.inl rfl
  | cons b rest ih =>
      by_cases h : isLineEnd b = true
      · refine Or.inr ?_
        rw [lineLength.eq_def]
        simp only [h, if_true]
        split
        · exact ⟨0, b, rfl, rfl, h⟩
        · split
          · rename_i b' _ hpair
            exact ⟨1, b', rfl, rfl, (Bool.and_eq_true_iff.mp hpair).1⟩
          · exact ⟨0, b, rfl, rfl, h⟩
      · have hline : lineLength (b :: rest) = lineLength rest + 1 := by
          rw [lineLength.eq_def]
          simp [h, Nat.add_comm]
        rcases ih with hall | ⟨n, b', hn, hb', hend⟩
        · exact Or.inl (by rw [hline, hall, List.length_cons])
        · exact Or.inr ⟨n + 1, b', by rw [hline, hn], by simpa using hb', hend⟩

theorem lineLength_le (bs : Bytes) : lineLength bs ≤ bs.length := by
  rcases lineLength_last bs with hall | ⟨n, b, hn, hb, _⟩
  · omega
  · have := (List.getElem?_eq_some_iff.mp hb).1
    omega

end Extents

namespace Cursor
variable (c : Cursor)

section Moves

theorem advance_zero : c.advance 0 = c := by
  have := c.start_le_stop
  cases c
  simp [advance, *]

theorem advance_advance (m n : Nat) : (c.advance m).advance n = c.advance (m + n) := by
  have := c.start_le_stop
  simp only [advance, mk.injEq, true_and, and_true]
  omega

theorem advance_eq_atEnd (n : Nat) (h : c.length ≤ n) : c.advance n = c.atEnd := by
  have := c.start_le_stop
  simp only [advance, atEnd, mk.injEq, true_and, and_true, length] at h ⊢
  omega

theorem eq_atEnd_of_nil (h : c.bytes = []) : c = c.atEnd := by
  have hempty : c.length ≤ 0 := by rw [← c.length_bytes, h, List.length_nil]
  rw [← c.advance_eq_atEnd 0 hempty, advance_zero]

theorem start_advance (n : Nat) (h : n ≤ c.length) : (c.advance n).start = c.start + n := by
  have := c.start_le_stop
  simp only [advance, length] at h ⊢
  omega

theorem textTo_advance (n : Nat) (h : n ≤ c.length) :
    c.textTo (c.advance n) =
      if c.buffer.isBoundaryAt c.start && c.buffer.isBoundaryAt (c.start + n) then c.bytes.take n
      else [] := by
  have hmax : max (c.start + n) c.start = c.start + n := by omega
  have hlength : c.start + n - c.start = n := by omega
  rw [textTo, c.start_advance n h, hmax, Bytes.slice, hlength, bytes, List.take_take,
    Nat.min_eq_left h]

theorem text_take (n : Nat) (h : n ≤ c.length) : (c.take n).text = c.textTo (c.advance n) := by
  have hmax : max (c.start + n) c.start = c.start + n := by omega
  rw [textTo, c.start_advance n h, hmax]
  show c.buffer.slice c.start (c.start + min n c.length) = _
  rw [Nat.min_eq_left h]

theorem lexemes_advance (escapes : Bool) (n : Nat) (h : n ≤ c.length) :
    (c.advance n).lexemes escapes =
      Lexeme.all escapes (!c.buffer.isBoundaryAt c.stop) (c.start + n) (c.bytes.drop n) := by
  rw [lexemes, buffer_advance, stop_advance, c.start_advance n h, bytes_advance]

theorem lexemes_skipWhitespace (escapes : Bool) :
    c.skipWhitespace.lexemes escapes = c.lexemes escapes := by
  have hle : blankLength c.bytes ≤ c.length := by
    rw [← c.length_bytes]
    exact (List.takeWhile_prefix _).length_le
  rw [skipWhitespace, dropWhile, ← blankLength, c.lexemes_advance escapes _ hle, lexemes,
    Lexeme.all_drop escapes _ _ _ c.bytes (gapLength_blank c.bytes)]

theorem lexemes_skipToNextLine (escapes : Bool) (h : c.peek? = some (byte ';')) :
    c.skipToNextLine.lexemes escapes = c.lexemes escapes := by
  obtain ⟨rest, hbytes⟩ : ∃ rest, c.bytes = byte ';' :: rest := by
    cases hbytes : c.bytes with
    | nil => rw [peek?, hbytes] at h; cases h
    | cons b rest => rw [peek?, hbytes] at h; cases h; exact ⟨rest, rfl⟩
  have hline : lineLength c.bytes = lineLength rest + 1 := by
    rw [hbytes, lineLength.eq_def, Nat.add_comm]
    rfl
  have hgap : gapLength false c.bytes =
      lineLength c.bytes + gapLength false (c.bytes.drop (lineLength c.bytes)) := by
    rw [hline, hbytes, List.drop_succ_cons]
    have hcomment : gapLength false (byte ';' :: rest) = 1 + gapLength true rest := rfl
    rw [hcomment, gapLength_line rest]
    omega
  have hle : lineLength c.bytes ≤ c.length := by
    rw [← c.length_bytes]
    exact lineLength_le c.bytes
  rw [skipToNextLine, lexemes_skipWhitespace, skipLine, c.lexemes_advance escapes _ hle, lexemes,
    Lexeme.all_drop escapes _ _ _ c.bytes hgap]

end Moves

section GapEnds

theorem head_skipWhitespace : ∀ b ∈ c.skipWhitespace.bytes.head?, isWhitespace b = false := by
  obtain ⟨run, hrun, _, _, hhead⟩ := exists_takeWhile isWhitespace c.bytes
  intro b hb
  rw [skipWhitespace, dropWhile, bytes_advance, hrun] at hb
  exact hhead b hb

theorem skipRemarks_spec (escapes : Bool) (h : ∀ b ∈ c.bytes.head?, isWhitespace b = false) :
    c.skipRemarks.buffer = c.buffer ∧ c.skipRemarks.atEnd = c.atEnd ∧
      c.skipRemarks.lexemes escapes = c.lexemes escapes ∧ AtGapEnd c.skipRemarks.bytes := by
  fun_induction skipRemarks c with
  | case1 c hsign ih =>
      obtain ⟨hbuffer, hend, hlexemes, hfront⟩ := ih c.skipLine.head_skipWhitespace
      exact ⟨hbuffer, hend, hlexemes.trans (c.lexemes_skipToNextLine escapes hsign), hfront⟩
  | case2 c hsign =>
      refine ⟨rfl, rfl, rfl, fun b hb => ⟨h b hb, ?_⟩⟩
      rintro rfl
      exact hsign hb

theorem skipGap_spec (escapes : Bool) :
    c.skipGap.buffer = c.buffer ∧ c.skipGap.atEnd = c.atEnd ∧
      c.skipGap.lexemes escapes = c.lexemes escapes ∧ AtGapEnd c.skipGap.bytes := by
  obtain ⟨hbuffer, hend, hlexemes, hfront⟩ :=
    c.skipWhitespace.skipRemarks_spec escapes c.head_skipWhitespace
  exact ⟨hbuffer, hend, hlexemes.trans (c.lexemes_skipWhitespace escapes), hfront⟩

end GapEnds

section Whole

/-- The range is the rest of a bare text with a torn end. -/
def IsTornText : Prop :=
  c.buffer.isBoundaryAt c.stop = false ∧ ∀ b ∈ c.bytes, isBoundary b = false

/-- The range begins with a character, or nothing of it can be read anyway. -/
def IsWhole : Prop := c.buffer.isBoundaryAt c.start = true ∨ c.IsTornText

theorem getElem?_buffer (n : Nat) (b : UInt8) (h : c.bytes[n]? = some b) :
    c.buffer[c.start + n]? = some b := by
  rw [bytes, List.getElem?_take] at h
  split at h
  · rwa [List.getElem?_drop] at h
  · cases h

theorem lt_length (n : Nat) (b : UInt8) (h : c.bytes[n]? = some b) : n < c.length := by
  rw [← c.length_bytes]
  exact (List.getElem?_eq_some_iff.mp h).1

theorem isWhole_at (n : Nat) (b : UInt8) (h : c.bytes[n]? = some b) (hascii : b < 0x80) :
    (c.advance n).IsWhole := by
  apply Or.inl
  rw [c.start_advance n (Nat.le_of_lt (c.lt_length n b h))]
  exact Bytes.isBoundaryAt_of_ascii _ b (c.getElem?_buffer n b h) hascii

theorem isWhole_past (hutf8 : c.buffer.IsUtf8) (n : Nat) (b : UInt8) (h : c.bytes[n]? = some b)
    (hascii : b < 0x80) : (c.advance (n + 1)).IsWhole := by
  apply Or.inl
  rw [c.start_advance (n + 1) (c.lt_length n b h)]
  exact Bytes.isBoundaryAt_succ hutf8 _ b (c.getElem?_buffer n b h) hascii

theorem isWhole_end (n : Nat) (h : c.length ≤ n) : (c.advance n).IsWhole := by
  have hnil : (c.advance n).bytes = [] := by
    rw [bytes_advance]
    exact List.drop_eq_nil_of_le (by rw [c.length_bytes]; exact h)
  have hstop : (c.advance n).start = (c.advance n).stop := by
    have := c.start_le_stop
    simp only [advance, length] at h ⊢
    omega
  cases hboundary : c.buffer.isBoundaryAt c.stop with
  | true =>
      apply Or.inl
      rw [hstop]
      exact hboundary
  | false =>
      refine Or.inr ⟨hboundary, ?_⟩
      simp [hnil]

theorem isWhole_skipWhitespace (hutf8 : c.buffer.IsUtf8) (h : c.IsWhole) :
    c.skipWhitespace.IsWhole := by
  rw [skipWhitespace, dropWhile]
  cases hn : (c.bytes.takeWhile isWhitespace).length with
  | zero => rwa [advance_zero]
  | succ n =>
      have hlast : n < (c.bytes.takeWhile isWhitespace).length := by omega
      have hspace := List.mem_takeWhile_imp (List.getElem_mem hlast)
      have hbyte : c.bytes[n]? = some (c.bytes.takeWhile isWhitespace)[n] := by
        have hfront := List.takeWhile_prefix (l := c.bytes) isWhitespace
        have hle := hfront.length_le
        exact List.getElem?_eq_some_iff.mpr ⟨by omega, (hfront.getElem hlast).symm⟩
      exact c.isWhole_past hutf8 n _ hbyte (ascii_of_isWhitespace hspace)

theorem isWhole_skipToNextLine (hutf8 : c.buffer.IsUtf8) : c.skipToNextLine.IsWhole := by
  apply c.skipLine.isWhole_skipWhitespace hutf8
  rw [skipLine]
  rcases lineLength_last c.bytes with hall | ⟨n, b, hn, hb, hend⟩
  · exact c.isWhole_end _ (by rw [hall, c.length_bytes])
  · rw [hn]
    exact c.isWhole_past hutf8 n b hb (ascii_of_isWhitespace (isLineEnd_isWhitespace hend))

end Whole

section Front
variable (escapes : Bool) {b : UInt8} {rest : Bytes} (hbytes : c.bytes = b :: rest)
include hbytes

theorem length_front : c.length = rest.length + 1 := by
  rw [← c.length_bytes, hbytes, List.length_cons]

theorem exists_lexemes_front (hspace : isWhitespace b = false) (hsign : b ≠ byte ';') :
    ∃ l ls, c.lexemes escapes = ⟨c.start, l⟩ :: ls ∧ (l = .opening ↔ b = byte '(') := by
  have hfront := Lexeme.all_front escapes (!c.buffer.isBoundaryAt c.stop) c.start b rest hspace hsign
  rw [← hbytes] at hfront
  exact ⟨_, _, hfront, Lexeme.first_eq_opening_iff escapes _ b rest⟩

/-- A lexeme at the front is taken away by moving over it. -/
theorem lexemes_front (hspace : isWhitespace b = false) (hsign : b ≠ byte ';') (l : Lexeme) (n : Nat)
    (hfirst : Lexeme.first escapes (!c.buffer.isBoundaryAt c.stop) b rest = (l, n))
    (hn : n ≤ rest.length) :
    c.lexemes escapes = ⟨c.start, l⟩ :: (c.advance (n + 1)).lexemes escapes := by
  have hle : n + 1 ≤ c.length := by
    rw [c.length_front hbytes]
    omega
  rw [c.lexemes_advance escapes _ hle, lexemes, hbytes, List.drop_succ_cons,
    Lexeme.all_front escapes _ _ b rest hspace hsign, hfirst]

/-- The cursor past the quote that closes, and the text before it. -/
theorem quoted?_eq (hutf8 : c.buffer.IsUtf8) (hquote : b = byte '"') {n : Nat}
    (hn : unquotedLength (byte '"') escapes false rest = n) :
    c.quoted? (byte '"') escapes = some (c.advance (n + 2),
      if c.buffer.isBoundaryAt (c.start + 1 + n) then rest.take n else []) := by
  subst hquote
  have hlength := c.length_front hbytes
  have hle : n ≤ rest.length := by
    rw [← hn]
    exact unquotedLength_le _ _ _ rest
  have hinner : (c.advance 1).bytes = rest := by
    rw [bytes_advance, hbytes, List.drop_succ_cons, List.drop_zero]
  have hfront : c.bytes[0]? = some (byte '"') := by rw [hbytes]; rfl
  have hstart : (c.advance 1).start = c.start + 1 := c.start_advance 1 (by omega)
  have hbegin : c.buffer.isBoundaryAt (c.start + 1) = true :=
    Bytes.isBoundaryAt_succ hutf8 _ _ (c.getElem?_buffer 0 _ hfront) (by decide)
  have hbefore : unquotedLength (byte '"') escapes false c.bytes = 0 := by
    rw [hbytes]
    cases escapes <;> rfl
  have hsome : ¬ c.length ≤ 0 := by omega
  have htext := (c.advance 1).textTo_advance n (by rw [length_advance]; omega)
  rw [hinner, hstart, buffer_advance, hbegin, Bool.true_and, advance_advance] at htext
  have hmoves : 1 + n + 1 = n + 2 := by omega
  simp only [quoted?, hbefore, if_neg hsome, Nat.zero_add, hinner, hn, advance_advance, hmoves,
    htext]

theorem quoted?_front (hutf8 : c.buffer.IsUtf8) (hquote : b = byte '"') :
    ∃ text closed n, n ≤ rest.length ∧
      Lexeme.first escapes (!c.buffer.isBoundaryAt c.stop) b rest = (.quoted text closed, n) ∧
      c.quoted? (byte '"') escapes = some (c.advance (n + 1), text) ∧
      (c.advance (n + 1)).IsWhole := by
  have hlength := c.length_front hbytes
  have hle := unquotedLength_le (byte '"') escapes false rest
  have hunquoted := getElem?_unquotedLength (byte '"') escapes false rest
  generalize hn : unquotedLength (byte '"') escapes false rest = n at hle hunquoted
  have hquoted := c.quoted?_eq escapes hbytes hutf8 hquote hn
  subst hquote
  have hfirst := Lexeme.first_quote escapes (!c.buffer.isBoundaryAt c.stop) rest hn
  cases hafter : rest.drop n with
  | nil =>
      have hall : n = rest.length := by
        have := List.drop_eq_nil_iff.mp hafter
        omega
      have hstop : c.start + 1 + n = c.stop := by
        have := c.start_le_stop
        simp only [length] at hlength
        omega
      refine ⟨if !c.buffer.isBoundaryAt c.stop then [] else rest.take n, false, n, hle, ?_, ?_,
        c.isWhole_end _ (by omega)⟩
      · simp only [hfirst, hafter, List.isEmpty_nil, if_true]
      · rw [hquoted, c.advance_eq_atEnd (n + 2) (by omega), c.advance_eq_atEnd (n + 1) (by omega),
          hstop]
        cases c.buffer.isBoundaryAt c.stop <;> rfl
  | cons q more =>
      have hlt : n < rest.length := by
        have := congrArg List.length hafter
        simp only [List.length_drop, List.length_cons] at this
        omega
      have hclose : c.bytes[n + 1]? = some (byte '"') := by
        rw [hbytes, List.getElem?_cons_succ]
        exact hunquoted hlt
      have hend : c.buffer.isBoundaryAt (c.start + 1 + n) = true := by
        rw [Nat.add_assoc, Nat.add_comm 1 n]
        exact Bytes.isBoundaryAt_of_ascii _ _ (c.getElem?_buffer _ _ hclose) (by decide)
      refine ⟨rest.take n, true, n + 1, hlt, ?_, ?_, c.isWhole_past hutf8 _ _ hclose (by decide)⟩
      · simp only [hfirst, hafter, List.isEmpty_cons, Bool.false_eq_true, if_false]
      · rw [hquoted, hend, if_pos rfl]

/-- What is taken up to the first boundary, unless one of its ends is inside a character. -/
theorem takeUntil_eq (hb : isBoundary b = false) {run : Bytes}
    (hrun : rest.takeWhile (fun b => !isBoundary b) = run) :
    c.takeUntil isBoundary = (c.advance (run.length + 1),
      if c.buffer.isBoundaryAt c.start && c.buffer.isBoundaryAt (c.start + (run.length + 1)) then
        b :: run
      else []) := by
  have hfront := List.takeWhile_prefix (l := rest) fun b => !isBoundary b
  rw [hrun] at hfront
  have hle : run.length + 1 ≤ c.length := by
    rw [c.length_front hbytes]
    exact Nat.succ_le_succ hfront.length_le
  have htake : c.bytes.take (run.length + 1) = b :: run := by
    rw [hbytes, List.take_succ_cons, ← List.prefix_iff_eq_take.mp hfront]
  have hwhile : (c.bytes.takeWhile fun b => !isBoundary b).length = run.length + 1 := by
    simp [hbytes, hb, hrun]
  simp only [takeUntil, dropWhile, hwhile, c.textTo_advance _ hle, htake]

/-- A bare text at the front that does not run into a torn end. -/
theorem takeUntil_front (hwhole : c.IsWhole) (huntorn : ¬ c.IsTornText) (hb : isBoundary b = false) :
    ∃ run, run.length ≤ rest.length ∧ c.bytes.take (run.length + 1) = b :: run ∧
      Lexeme.first escapes (!c.buffer.isBoundaryAt c.stop) b rest = (.bare (b :: run), run.length) ∧
      c.takeUntil isBoundary = (c.advance (run.length + 1), b :: run) ∧
      (c.advance (run.length + 1)).IsWhole := by
  have hlength := c.length_front hbytes
  obtain ⟨run, hrun, hsplit, hrunning, hhead⟩ := exists_takeWhile (fun b => !isBoundary b) rest
  have hle : run.length ≤ rest.length := by
    have := congrArg List.length hsplit
    rw [List.length_append] at this
    omega
  have htake : c.bytes.take (run.length + 1) = b :: run := by
    rw [hbytes, List.take_succ_cons, hsplit, List.take_left]
  have hstart : c.buffer.isBoundaryAt c.start = true := hwhole.resolve_right huntorn
  have htaken := c.takeUntil_eq hbytes hb hrun
  have hfirst := Lexeme.first_bare escapes (!c.buffer.isBoundaryAt c.stop) b rest hb hrun
  cases hafter : rest.drop run.length with
  | nil =>
      have hall : run.length = rest.length := by
        have := List.drop_eq_nil_iff.mp hafter
        omega
      have hstop : c.start + (run.length + 1) = c.stop := by
        have := c.start_le_stop
        simp only [length] at hlength
        omega
      -- the run goes to the end, so it would be torn if the end was
      have hend : c.buffer.isBoundaryAt c.stop = true := by
        apply Bool.of_not_eq_false
        intro htorn
        apply huntorn
        refine ⟨htorn, ?_⟩
        rw [hbytes, hsplit, hafter, List.append_nil]
        intro x hx
        rcases List.mem_cons.mp hx with rfl | hx
        · exact hb
        · simpa using hrunning x hx
      have hcut : (!c.buffer.isBoundaryAt c.stop && (rest.drop run.length).isEmpty) = false := by
        rw [hend]
        rfl
      rw [hstop, hstart, hend] at htaken
      rw [hcut] at hfirst
      exact ⟨run, hle, htake, hfirst, htaken, c.isWhole_end _ (by omega)⟩
  | cons q more =>
      have hq : isBoundary q = true := by simpa using hhead q (by rw [hafter]; rfl)
      have hbyte : c.bytes[run.length + 1]? = some q := by
        rw [hbytes, List.getElem?_cons_succ, ← List.head?_drop, hafter]
        rfl
      have hstop : c.buffer.isBoundaryAt (c.start + (run.length + 1)) = true :=
        Bytes.isBoundaryAt_of_ascii _ q (c.getElem?_buffer _ q hbyte) (ascii_of_isBoundary hq)
      rw [hstart, hstop] at htaken
      rw [hafter, List.isEmpty_cons, Bool.and_false] at hfirst
      exact ⟨run, hle, htake, hfirst, htaken, c.isWhole_at _ q hbyte (ascii_of_isBoundary hq)⟩

end Front

section Torn
variable {c}

theorem lexemes_nil (escapes : Bool) (h : c.bytes = []) : c.lexemes escapes = [] := by
  rw [lexemes, h, Lexeme.all]
  rfl

theorem IsTornText.advance (h : c.IsTornText) (n : Nat) : (c.advance n).IsTornText := by
  refine ⟨h.1, fun b hb => h.2 b ?_⟩
  rw [bytes_advance] at hb
  exact List.mem_of_mem_drop hb

theorem IsTornText.takeWhile (h : c.IsTornText) {b : UInt8} {rest : Bytes}
    (hbytes : c.bytes = b :: rest) : rest.takeWhile (fun b => !isBoundary b) = rest := by
  have hrest : ∀ x ∈ rest, isBoundary x = false := fun x hx => h.2 x (by simp [hbytes, hx])
  simpa using hrest

theorem IsTornText.takeUntil (h : c.IsTornText) : (c.takeUntil isBoundary).2 = [] := by
  cases hbytes : c.bytes with
  | nil => simp [Cursor.takeUntil, Cursor.dropWhile, hbytes, advance_zero, textTo, Bytes.slice]
  | cons b rest =>
      have hlength := c.length_front hbytes
      have hstop : c.start + (rest.length + 1) = c.stop := by
        have := c.start_le_stop
        simp only [length] at hlength
        omega
      have htaken := c.takeUntil_eq hbytes (h.2 b (by simp [hbytes])) (h.takeWhile hbytes)
      rw [htaken, hstop, h.1, Bool.and_false]
      rfl

/-- Nothing of a torn text is a token. -/
theorem IsTornText.lexemes (escapes : Bool) (h : c.IsTornText) :
    ∀ l ∈ c.lexemes escapes, l.value = .bare [] := by
  cases hbytes : c.bytes with
  | nil => simp [lexemes_nil escapes hbytes]
  | cons b rest =>
      have hb : isBoundary b = false := h.2 b (by simp [hbytes])
      have hfirst := Lexeme.first_bare escapes (!c.buffer.isBoundaryAt c.stop) b rest hb
        (h.takeWhile hbytes)
      rw [h.1, List.drop_length, Bool.not_false, List.isEmpty_nil, Bool.and_self, if_pos rfl,
        ← Bool.not_false, ← h.1] at hfirst
      have hplain := hb
      simp only [isBoundary, Bool.or_eq_false_iff, beq_eq_false_iff_ne] at hplain
      have hnil : (c.advance (rest.length + 1)).bytes = [] := by
        rw [bytes_advance, hbytes, List.drop_succ_cons, List.drop_length]
      rw [c.lexemes_front escapes hbytes hplain.2 hplain.1.2 _ _ hfirst (Nat.le_refl _),
        lexemes_nil escapes hnil]
      simp

end Torn

end Cursor

end SExpression
