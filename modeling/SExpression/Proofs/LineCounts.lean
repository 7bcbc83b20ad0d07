import SExpression.Text.WordPosition
import SExpression.Proofs.Lines
import SExpression.Proofs.Locality

/-! # Positions and lines

Positions count line feeds, and the scanner that skips lines knows endings of one and of two bytes.
A position tells the byte it belongs to: that many line feeds precede its line (`IsLineStart`), and the
column counts on from there (`isLineStart_iff`).  The two counts agree on texts that end their lines
with line feeds alone or with carriage returns and line feeds alone (`HasUniformEndings`), since there
an ending holds one line feed and its last byte is that one (`HasUniformEndings.of_skipLine`). -/
set_option autoImplicit false
namespace SExpression

open Position (ofOffset)

section LineStarts

/-- The line of that number begins at the offset, right behind as many line feeds. -/
structure IsLineStart (buffer : Bytes) (line offset : Nat) : Prop where
  le_length : offset ≤ buffer.length
  feeds : (buffer.take offset).count (byte '\n') = line
  behind : ∀ b ∈ (buffer.take offset).getLast?, b = byte '\n'

theorem line_foldl (bs : Bytes) (p : Position) :
    (bs.foldl Position.after p).line = p.line + bs.count (byte '\n') := by
  induction bs generalizing p with
  | nil => rfl
  | cons b bs ih =>
      rw [List.foldl_cons, ih, List.count_cons, Position.after]
      by_cases hb : b = byte '\n'
      · simp only [hb, beq_self_eq_true, if_true]
        omega
      · simp [hb]

/-- Behind a line feed a line begins. -/
theorem foldl_feed (front : Bytes) (p : Position) :
    (front ++ [byte '\n']).foldl Position.after p =
      ⟨p.line + front.count (byte '\n') + 1, 0⟩ := by
  rw [List.foldl_append, ← line_foldl]
  rfl

variable {buffer : Bytes}

theorem line_ofOffset (i : Nat) :
    (ofOffset buffer i).line = (buffer.take i).count (byte '\n') := by
  rw [ofOffset, line_foldl]
  exact Nat.zero_add _

theorem IsLineStart.ofOffset_eq {line offset : Nat} (h : IsLineStart buffer line offset) :
    ofOffset buffer offset = ⟨line, 0⟩ := by
  have hfeeds := h.feeds
  have hbehind := h.behind
  rw [ofOffset]
  rcases List.eq_nil_or_concat' (buffer.take offset) with hnil | ⟨front, b, hconcat⟩
  · rw [hnil] at hfeeds ⊢
    rw [← hfeeds]
    rfl
  · obtain rfl : b = byte '\n' := hbehind b (by simp [hconcat])
    rw [hconcat] at hfeeds ⊢
    rw [foldl_feed, ← hfeeds, List.count_append]
    simp [Position.origin]

/-- Counted back by the column, an offset leads to the beginning of its line. -/
theorem isLineStart_ofOffset (i : Nat) (hi : i ≤ buffer.length) :
    (ofOffset buffer i).column ≤ i ∧
      IsLineStart buffer (ofOffset buffer i).line (i - (ofOffset buffer i).column) := by
  induction i with
  | zero => exact ⟨Nat.le_refl 0, Nat.zero_le _, by simp [ofOffset, Position.origin], by simp⟩
  | succ i ih =>
      obtain ⟨hcolumn, hstart⟩ := ih (Nat.le_of_succ_le hi)
      have hbyte : buffer[i]? = some buffer[i] := List.getElem?_eq_getElem hi
      by_cases hb : buffer[i] = byte '\n'
      · have hnext : (ofOffset buffer (i + 1)).column = 0 := by
          rw [Position.ofOffset_succ buffer i _ hbyte, hb]
          rfl
        rw [hnext]
        refine ⟨Nat.zero_le _, hi, (line_ofOffset _).symm, ?_⟩
        intro x hx
        rw [Nat.sub_zero, List.take_add_one, hbyte] at hx
        simpa [hb, eq_comm] using hx
      · have hnext : ofOffset buffer (i + 1) =
            ⟨(ofOffset buffer i).line, (ofOffset buffer i).column + 1⟩ := by
          rw [Position.ofOffset_succ buffer i _ hbyte, Position.after, if_neg hb]
        rw [hnext]
        refine ⟨Nat.succ_le_succ hcolumn, ?_⟩
        rw [Nat.add_sub_add_right]
        exact hstart

/-- An offset is where its line begins, and the column more. -/
theorem isLineStart_iff (i offset : Nat) (hi : i ≤ buffer.length) :
    IsLineStart buffer (ofOffset buffer i).line offset ↔
      offset + (ofOffset buffer i).column = i := by
  obtain ⟨hcolumn, hstart⟩ := isLineStart_ofOffset i hi
  refine ⟨?_, ?_⟩
  · intro h
    have hsame := Position.ofOffset_inj buffer _ _ h.le_length hstart.le_length
      (h.ofOffset_eq.trans hstart.ofOffset_eq.symm)
    omega
  · intro h
    rw [show offset = i - (ofOffset buffer i).column by omega]
    exact hstart

theorem ofOffset_past (i : Nat) (hi : buffer.length ≤ i) :
    ofOffset buffer i = ofOffset buffer buffer.length := by
  rw [ofOffset, ofOffset, List.take_of_length_le hi, List.take_length]

/-- The position of a byte is the position of no other offset. -/
theorem ofOffset_eq_iff (i place : Nat) (hplace : place < buffer.length) :
    ofOffset buffer i = ofOffset buffer place ↔ i = place := by
  refine ⟨?_, fun h => by rw [h]⟩
  intro h
  rcases Nat.le_total i buffer.length with hi | hi
  · exact Position.ofOffset_inj buffer i place hi (Nat.le_of_lt hplace) h
  · rw [ofOffset_past i hi] at h
    have hend := Position.ofOffset_inj buffer _ _ (Nat.le_refl _) (Nat.le_of_lt hplace) h
    omega

end LineStarts

section Endings

/-- Every carriage return stands right before a line feed, and every line feed right behind a carriage
return. -/
structure HasPairedEndings (bs : Bytes) : Prop where
  head : bs.head? ≠ some (byte '\n')
  paired : ∀ i, bs[i]? = some (byte '\r') ↔ bs[i + 1]? = some (byte '\n')

def HasUniformEndings (bs : Bytes) : Prop := byte '\r' ∉ bs ∨ HasPairedEndings bs

theorem hasPairedEndings_iff (bs : Bytes) :
    HasPairedEndings bs ↔ bs.head? ≠ some (byte '\n') ∧
      ∀ i < bs.length, bs[i]? = some (byte '\r') ↔ bs[i + 1]? = some (byte '\n') := by
  refine ⟨fun h => ⟨h.head, fun i _ => h.paired i⟩, ?_⟩
  rintro ⟨hhead, hpaired⟩
  refine ⟨hhead, ?_⟩
  intro i
  by_cases hi : i < bs.length
  · exact hpaired i hi
  · simp [List.getElem?_eq_none (Nat.le_of_not_lt hi),
      List.getElem?_eq_none (Nat.le_succ_of_le (Nat.le_of_not_lt hi))]

instance (bs : Bytes) : Decidable (HasPairedEndings bs) :=
  decidable_of_iff _ (hasPairedEndings_iff bs).symm

instance (bs : Bytes) : Decidable (HasUniformEndings bs) :=
  inferInstanceAs (Decidable (byte '\r' ∉ bs ∨ HasPairedEndings bs))

namespace HasPairedEndings
variable {front rest : Bytes}

theorem feed_behind (h : HasPairedEndings (front ++ byte '\r' :: rest)) :
    rest.head? = some (byte '\n') := by
  have hfeed := (h.paired front.length).mp (by simp)
  rwa [List.getElem?_append_right (Nat.le_succ _), Nat.succ_sub (Nat.le_refl _), Nat.sub_self,
    List.getElem?_cons_succ, ← List.head?_eq_getElem?] at hfeed

theorem return_before (h : HasPairedEndings (front ++ byte '\n' :: rest)) :
    front.getLast? = some (byte '\r') := by
  rcases List.eq_nil_or_concat' front with rfl | ⟨front, b, rfl⟩
  · exact absurd rfl h.head
  · have hreturn := (h.paired front.length).mpr (by simp)
    simpa using hreturn

theorem behind_feed (h : HasPairedEndings (front ++ byte '\n' :: rest)) :
    HasPairedEndings rest where
  head := by
    intro hfeed
    obtain ⟨more, rfl⟩ := List.head?_eq_some_iff.mp hfeed
    have hfeeds : HasPairedEndings ((front ++ [byte '\n']) ++ byte '\n' :: more) := by simpa using h
    have hreturn := hfeeds.return_before
    rw [List.getLast?_concat] at hreturn
    exact absurd hreturn (by decide)
  paired := by
    intro i
    have hshift : ∀ j, (front ++ byte '\n' :: rest)[front.length + 1 + j]? = rest[j]? := by
      intro j
      rw [List.getElem?_append_right (by omega),
        show front.length + 1 + j - front.length = j + 1 by omega, List.getElem?_cons_succ]
    have hpair := h.paired (front.length + 1 + i)
    rwa [hshift, Nat.add_assoc _ i, hshift] at hpair

end HasPairedEndings

namespace HasUniformEndings
variable {line rest : Bytes}

/-- An ending of a line holds one line feed, and after it the endings are as before. -/
theorem of_line (h : HasUniformEndings (line ++ rest)) (hline : IsLine rest line)
    (hend : ∃ b ∈ line, isLineEnd b = true) :
    (∃ front, line = front ++ [byte '\n'] ∧ byte '\n' ∉ front) ∧ HasUniformEndings rest := by
  have hkinds : ∀ b, isLineEnd b = true → b = byte '\r' ∨ b = byte '\n' := by
    intro b hb
    simpa [isLineEnd] using hb
  cases hline with
  | last body hbody =>
      obtain ⟨b, hb, hbend⟩ := hend
      rw [hbody b hb] at hbend
      cases hbend
  | ended body ending hbody hending =>
      have hfeed : byte '\n' ∉ body := fun hmem => absurd (hbody _ hmem) (by decide)
      have hreturn : byte '\r' ∉ body := fun hmem => absurd (hbody _ hmem) (by decide)
      rcases h with hnone | hpaired
      · -- Without carriage returns the ending is a line feed.
        simp only [List.mem_append, not_or] at hnone
        obtain ⟨⟨_, hnone⟩, hrest⟩ := hnone
        refine ⟨⟨body, ?_, hfeed⟩, .inl hrest⟩
        cases hending with
        | single b hb _ =>
            rcases hkinds b hb with rfl | rfl
            · simp at hnone
            · rfl
        | pair b b' hb hb' hne =>
            rcases hkinds b hb with rfl | rfl
            · simp at hnone
            · rcases hkinds b' hb' with rfl | rfl
              · simp at hnone
              · exact absurd rfl hne
      · cases hending with
        | single b hb hshort =>
            rw [List.append_assoc, List.singleton_append] at hpaired
            rcases hkinds b hb with rfl | rfl
            · exact absurd (hshort _ hpaired.feed_behind (by decide)) (by decide)
            · exact absurd (List.mem_of_getLast? hpaired.return_before) hreturn
        | pair b b' hb hb' hne =>
            rcases hkinds b hb with rfl | rfl
            · obtain rfl : b' = byte '\n' := (hkinds b' hb').resolve_left hne
              have hplain : byte '\n' ∉ body ++ [byte '\r'] := by
                rw [List.mem_append, not_or]
                exact ⟨hfeed, by decide⟩
              have hfeeds : HasPairedEndings ((body ++ [byte '\r']) ++ byte '\n' :: rest) := by
                simpa using hpaired
              exact ⟨⟨body ++ [byte '\r'], by simp, hplain⟩, .inr hfeeds.behind_feed⟩
            · rw [List.append_assoc, List.cons_append] at hpaired
              exact absurd (List.mem_of_getLast? hpaired.return_before) hreturn

end HasUniformEndings

end Endings

namespace Cursor
variable {c : Cursor}

/-- The position is counted on over the bytes that are passed. -/
theorem ofOffset_follows {d : Cursor} (h : d.Follows c) :
    ofOffset c.buffer d.start = (c.passed d).foldl Position.after (ofOffset c.buffer c.start) := by
  obtain ⟨_, hstart, hstop⟩ := h
  have hle := d.start_le_stop
  have hfront : c.buffer.take d.start = c.buffer.take c.start ++ c.passed d := by
    rw [passed, bytes, List.take_take, Nat.min_eq_left (by simp only [length]; omega),
      ← List.take_add, Nat.add_sub_cancel' hstart]
  rw [ofOffset, hfront, List.foldl_append]
  rfl

theorem follows_skipLine : c.skipLine.Follows c := c.follows_advance _

/-- A line that is skipped with its ending counts as one. -/
theorem position_skipLine (h : HasUniformEndings c.bytes)
    (hend : ∃ b ∈ c.passed c.skipLine, isLineEnd b = true) :
    ofOffset c.buffer c.skipLine.start = ⟨(ofOffset c.buffer c.start).line + 1, 0⟩ ∧
      HasUniformEndings c.skipLine.bytes := by
  obtain ⟨hbytes, hline⟩ := c.passed_skipLine
  rw [hbytes] at h
  obtain ⟨⟨front, hpassed, hplain⟩, hrest⟩ := h.of_line hline hend
  refine ⟨?_, hrest⟩
  rw [ofOffset_follows follows_skipLine, hpassed, foldl_feed, List.count_eq_zero.mpr hplain]

/-- So many lines skipped, so many lines counted. -/
theorem position_skipLines (h : HasUniformEndings c.bytes)
    (hstart : (ofOffset c.buffer c.start).column = 0) (k : Nat)
    (hends : ∀ i < k, ∃ b ∈ (skipLine^[i] c).passed (skipLine^[i] c).skipLine, isLineEnd b = true) :
    let d := skipLine^[k] c
    d.buffer = c.buffer ∧ HasUniformEndings d.bytes ∧
      ofOffset c.buffer d.start = ⟨(ofOffset c.buffer c.start).line + k, 0⟩ := by
  induction k with
  | zero => exact ⟨rfl, h, congrArg (Position.mk _) hstart⟩
  | succ k ih =>
      obtain ⟨hbuffer, huniform, hposition⟩ := ih fun i hi => hends i (Nat.lt_succ_of_lt hi)
      obtain ⟨hnext, hrest⟩ := position_skipLine huniform (hends k (Nat.lt_succ_self k))
      rw [hbuffer, hposition] at hnext
      simp only [Function.iterate_succ_apply']
      exact ⟨hbuffer, hrest, hnext⟩

end Cursor

/-- In a buffer that is short enough for its words a later offset has a later position, up to the end
of the buffer and no further.  So a position belongs to one offset, which is where the line begins and
the column more; the position in an error belongs to the byte that was found there and to no other.
Where the lines end all in line feeds, or all in carriage returns and line feeds, the position after so
many lines is the beginning of the line of that number. -/
theorem positions_count_lines (buffer : Bytes) (hshort : buffer.length < 2 ^ 32) :
    (∀ i, (WordPosition.ofOffset buffer i).toPosition = ofOffset buffer i) ∧
    (∀ i j, i < j → j ≤ buffer.length → (ofOffset buffer i).Precedes (ofOffset buffer j)) ∧
    (∀ i, buffer.length ≤ i → ofOffset buffer i = ofOffset buffer buffer.length) ∧
    (∀ i j, i ≤ buffer.length → j ≤ buffer.length → ofOffset buffer i = ofOffset buffer j → i = j) ∧
    (∀ i offset, i ≤ buffer.length →
      (IsLineStart buffer (ofOffset buffer i).line offset ↔
        offset + (ofOffset buffer i).column = i)) ∧
    (∀ (settings : Settings) (start : Int) (c : Cursor), c.buffer = buffer →
      ∀ e, (parse settings c start).outcome.error? = some e →
        ∃ place, (outcomeAt settings c).place? = some place ∧ place < buffer.length ∧
          (∀ i, ofOffset buffer i = e.position ↔ i = place) ∧
          ∀ offset, IsLineStart buffer e.position.line offset ↔
            offset + e.position.column = place) ∧
    (HasUniformEndings buffer → ∀ k,
      (∀ i < k, let d := Cursor.skipLine^[i] (.ofBuffer buffer)
        ∃ b ∈ d.passed d.skipLine, isLineEnd b = true) →
      ofOffset buffer (Cursor.skipLine^[k] (.ofBuffer buffer)).start = ⟨k, 0⟩) := by
  refine ⟨WordPosition.toPosition_ofOffset hshort, Position.ofOffset_precedes buffer, ofOffset_past,
    Position.ofOffset_inj buffer, isLineStart_iff, ?_, ?_⟩
  · rintro settings start c rfl e he
    obtain ⟨place, hplace, hposition⟩ := Outcome.place_of_error he
    have hlt := Nat.lt_of_lt_of_le (place_lt_stop settings c place hplace) c.stop_le_length
    rw [← hposition]
    exact ⟨place, hplace, hlt, fun i => ofOffset_eq_iff i place hlt,
      fun offset => isLineStart_iff place offset (Nat.le_of_lt hlt)⟩
  · intro huniform k hends
    have hbytes : HasUniformEndings (Cursor.ofBuffer buffer).bytes := by
      rwa [Cursor.bytes_ofBuffer]
    have hcount := (Cursor.position_skipLines hbytes rfl k hends).2.2
    exact hcount.trans (congrArg (Position.mk · 0) (Nat.zero_add k))

/-- A list that is left open on the second line. -/
theorem unclosed_list_found :
    let buffer := Bytes.ofString "(a)\r\n (b\r\n"
    let opening : PositionedError := ⟨.unclosedList, ⟨1, 1⟩⟩
    buffer.length < 2 ^ 32 ∧ HasUniformEndings buffer ∧
      (parse .lenient (.ofBuffer buffer) 0).outcome.error? = some opening ∧
      (∃ place, buffer[place]? = some (byte '(') ∧
        ∀ i, ofOffset buffer i = opening.position ↔ i = place) ∧
      ofOffset buffer (Cursor.skipLine^[2] (.ofBuffer buffer)).start = ⟨2, 0⟩ := by
  intro buffer opening
  have hshort : buffer.length < 2 ^ 32 := by decide +kernel
  have huniform : HasUniformEndings buffer := by decide +kernel
  have herror : (parse .lenient (.ofBuffer buffer) 0).outcome.error? = some opening := by
    decide +kernel
  obtain ⟨_, _, _, _, _, herrors, hlines⟩ := positions_count_lines buffer hshort
  obtain ⟨place, hplace, _, hunique, _⟩ := herrors _ _ _ rfl opening herror
  have hsix : place = 6 := ((hunique 6).mp (by decide +kernel)).symm
  refine ⟨hshort, huniform, herror, ⟨place, ?_, hunique⟩, hlines huniform 2 ?_⟩
  · rw [hsix]
    decide +kernel
  · decide +kernel

end SExpression
