import SExpression.Proofs.Delivery
import SExpression.Proofs.NumberText
import SExpression.Proofs.PositionOrder

/-! # A range read as a text of its own

A parse sees no byte outside its range.  A range that ends between two characters is read like the
text that it holds, with all offsets shifted by where it begins (`parsedLexemes_shift`), and only
the positions in the outcome, which count from the beginning of the buffer, tell the two apart
(`parse_range`). -/
set_option autoImplicit false
namespace SExpression

section Places
variable {P Q : Type}

/-- The place that an outcome reports, if it reports one. -/
def Outcome.place? : Outcome P → Option P
  | complete => none
  | truncated opening => some opening
  | malformed _ place => some place

theorem Outcome.map_map {R : Type} (f : P → Q) (g : Q → R) (o : Outcome P) :
    (o.map f).map g = o.map fun p => g (f p) := by
  cases o <;> rfl

/-- The position in an error is the one of the place in the outcome. -/
theorem Outcome.place_of_error {o : Outcome Nat} {f : Nat → Position} {e : PositionedError}
    (h : (o.map f).error? = some e) : ∃ place, o.place? = some place ∧ f place = e.position := by
  cases o with
  | complete => cases h
  | truncated opening =>
      cases h
      exact ⟨opening, rfl, rfl⟩
  | malformed error place =>
      cases h
      exact ⟨place, rfl, rfl⟩

/-- What tells the places apart tells the outcomes apart. -/
theorem Outcome.map_eq_map_iff (f : P → Q) (o o' : Outcome P)
    (hf : ∀ p ∈ o.place?, ∀ q ∈ o'.place?, f p = f q → p = q) : o.map f = o'.map f ↔ o = o' := by
  refine ⟨?_, fun h => by rw [h]⟩
  intro h
  cases o with
  | complete =>
      cases o' with
      | complete => rfl
      | truncated q => cases h
      | malformed error q => cases h
  | truncated p =>
      cases o' with
      | complete => cases h
      | truncated q =>
          simp only [map, truncated.injEq] at h
          rw [hf p rfl q rfl h]
      | malformed error q => cases h
  | malformed error p =>
      cases o' with
      | complete => cases h
      | truncated q => cases h
      | malformed error' q =>
          simp only [map, malformed.injEq] at h
          rw [h.1, hf p rfl q rfl h.2]

theorem place_outcome (ls : List (Located Lexeme)) :
    ∀ place ∈ (ls.foldl Nesting.after .start).outcome.place?, ∃ l ∈ ls, l.offset = place := by
  intro place hplace
  by_cases hstray : ∃ l, StrayAt ls l
  · obtain ⟨l, hl⟩ := hstray
    rw [outcome_of_strayAt ls l hl] at hplace
    obtain ⟨pre, post, rfl, _⟩ := hl
    exact ⟨l, by simp, by simpa [Outcome.place?] using hplace⟩
  rw [not_exists] at hstray
  by_cases hunclosed : ∃ l, UnclosedAt ls l
  · obtain ⟨l, hl⟩ := hunclosed
    rw [outcome_of_unclosedAt ls l hstray hl] at hplace
    obtain ⟨pre, post, rfl, _⟩ := hl
    exact ⟨l, by simp, by simpa [Outcome.place?] using hplace⟩
  · rw [not_exists] at hunclosed
    rw [(outcome_of_neither ls hstray hunclosed).2] at hplace
    simp [Outcome.place?] at hplace

/-- What a parse reports is the place of a lexeme. -/
theorem place_outcomeAt (settings : Settings) (c : Cursor) :
    ∀ place ∈ (outcomeAt settings c).place?, ∃ l ∈ c.lexemes settings.escapes, l.offset = place := by
  intro place hplace
  rw [outcomeAt, parsedLexemes] at hplace
  split at hplace
  · simp [Outcome.place?] at hplace
  · rename_i first rest hlexemes
    split at hplace
    · rw [hlexemes]
      rcases matchBrackets_cases settings.maxDepth .start (first :: rest) with
        ⟨pre, l, post, hsplit, _, _, hcut⟩ | hall
      · rw [hcut] at hplace
        refine ⟨l, by rw [hsplit]; simp, by simpa [Outcome.place?] using hplace⟩
      · rw [hall] at hplace
        exact place_outcome (first :: rest) place hplace
    · exact ⟨first, by simp [hlexemes], by simpa [Outcome.place?] using hplace⟩

theorem Dissection.offset_lt {escapes : Bool} (tornEnd : Bool) (tail : Bytes) (offset : Nat)
    (parts : List (Bytes × Lexeme)) (h : Grammatical escapes tail parts) :
    ∀ l ∈ located tornEnd tail offset parts, l.offset < offset + (textOf tail parts).length := by
  induction parts generalizing offset with
  | nil => simp [located]
  | cons part parts ih =>
      obtain ⟨gap, l⟩ := part
      obtain ⟨_, hl, hparts⟩ := h
      have hpos := List.length_pos_iff.mpr (l.written_ne_nil _ hl)
      simp only [located, textOf, List.mem_cons, List.length_append]
      rintro m (rfl | hm)
      · simp only
        omega
      · have hlater := ih _ hparts m hm
        omega

/-- The place that is reported lies in the range. -/
theorem place_lt_stop (settings : Settings) (c : Cursor) :
    ∀ place ∈ (outcomeAt settings c).place?, place < c.stop := by
  intro place hplace
  obtain ⟨d, hd⟩ := Dissection.exists_isOf settings.escapes c.bytes
  obtain ⟨l, hl, rfl⟩ := place_outcomeAt settings c place hplace
  rw [d.lexemes_eq c hd] at hl
  have hlt := Dissection.offset_lt _ d.tail _ d.parts hd.2 l hl
  rw [hd.1, c.length_bytes, Cursor.length] at hlt
  have hle := c.start_le_stop
  omega

theorem place_lt_length (settings : Settings) (text : Bytes) :
    ∀ place ∈ (outcomeAt settings (.ofBuffer text)).place?, place < text.length :=
  place_lt_stop settings (.ofBuffer text)

end Places

section Shifts
variable (k : Nat)

def Located.shift {α : Type} (l : Located α) : Located α := ⟨k + l.offset, l.value⟩

def Nesting.shift (n : Nesting) : Nesting := ⟨n.opened.map (k + ·), n.stray.map (k + ·)⟩

theorem Dissection.located_shift (tornEnd : Bool) (tail : Bytes) (offset : Nat)
    (parts : List (Bytes × Lexeme)) :
    located tornEnd tail (k + offset) parts =
      (located tornEnd tail offset parts).map (Located.shift k) := by
  induction parts generalizing offset with
  | nil => rfl
  | cons part parts ih =>
      obtain ⟨gap, l⟩ := part
      simp only [located, List.map_cons, Located.shift, Nat.add_assoc, ih]

namespace Nesting

theorem after_shift (n : Nesting) (l : Located Lexeme) :
    (n.shift k).after (l.shift k) = (n.after l).shift k := by
  by_cases hopening : l.value = .opening
  · rw [after_opening _ (l.shift k) hopening, n.after_opening l hopening]
    rfl
  by_cases hclosing : l.value = .closing
  · cases hstack : n.opened with
    | nil =>
        have hshifted : (n.shift k).opened = [] := by rw [shift, hstack, List.map_nil]
        rw [after_closing_nil _ (l.shift k) hclosing hshifted, n.after_closing_nil l hclosing hstack]
        cases hstray : n.stray <;> simp [shift, Located.shift, hstray]
    | cons o outer =>
        have hshifted : (n.shift k).opened = (k + o) :: outer.map (k + ·) := by
          rw [shift, hstack, List.map_cons]
        rw [after_closing_cons _ (l.shift k) _ _ hclosing hshifted,
          n.after_closing_cons l o outer hclosing hstack]
        rfl
  · rw [after_other _ (l.shift k) hopening hclosing, n.after_other l hopening hclosing]

theorem isFull_shift (limit : Option Nat) (n : Nesting) :
    (n.shift k).isFull limit = n.isFull limit := by
  cases limit with
  | none => rfl
  | some most => simp only [isFull, shift, List.length_map]

theorem outcome_shift (n : Nesting) : (n.shift k).outcome = n.outcome.map (k + ·) := by
  obtain ⟨opened, stray⟩ := n
  cases stray with
  | some o => rfl
  | none => cases opened <;> rfl

end Nesting

theorem matchBrackets_shift (limit : Option Nat) (n : Nesting) (ls : List (Located Lexeme)) :
    matchBrackets limit (n.shift k) (ls.map (Located.shift k)) =
      ((matchBrackets limit n ls).1.map (Located.shift k),
        (matchBrackets limit n ls).2.map (k + ·)) := by
  induction ls generalizing n with
  | nil => simp only [List.map_nil, matchBrackets, n.outcome_shift]
  | cons l ls ih =>
      have hvalue : (l.shift k).value = l.value := rfl
      rw [List.map_cons, matchBrackets, matchBrackets, n.after_shift, n.isFull_shift, hvalue, ih]
      split <;> rfl

end Shifts

section Ranges
variable (settings : Settings) (c : Cursor) (hend : c.buffer.isBoundaryAt c.stop = true)

include hend in
theorem foundInstead_shift (i : Nat) (b : UInt8) (h : c.bytes[i]? = some b) :
    foundInstead c (c.start + i) = foundInstead (.ofBuffer c.bytes) i := by
  have hrange := Bytes.isBoundaryAt_getElem _ b (c.getElem?_buffer i b h)
  have halone := Bytes.isBoundaryAt_getElem i b h
  have hslice : c.buffer.slice (c.start + i) c.stop = c.bytes.slice i c.bytes.length := by
    have hcut : c.stop - (c.start + i) = c.length - i := by
      rw [Cursor.length]
      omega
    rw [Bytes.slice, Bytes.slice, hrange, halone, hend, Bytes.isBoundaryAt_length,
      ← List.length_drop, List.take_length, hcut, Cursor.bytes, List.drop_take, List.drop_drop]
  exact congrArg (fun bs : Bytes => bs.firstChar?.getD '\uFFFD') hslice

include hend in
/-- A range that ends between two characters is read like the text that it holds. -/
theorem parsedLexemes_shift :
    parsedLexemes settings c =
      ((parsedLexemes settings (.ofBuffer c.bytes)).1.map (Located.shift c.start),
        (parsedLexemes settings (.ofBuffer c.bytes)).2.map (c.start + ·)) := by
  obtain ⟨d, hd⟩ := Dissection.exists_isOf settings.escapes c.bytes
  have halone : d.IsOf settings.escapes (Cursor.ofBuffer c.bytes).bytes := by
    rwa [Cursor.bytes_ofBuffer]
  cases hparts : d.parts with
  | nil =>
      rw [parsedLexemes_blank settings c d hd hparts,
        parsedLexemes_blank settings _ d halone hparts]
      rfl
  | cons part parts =>
      obtain ⟨gap, l⟩ := part
      by_cases hl : l = .opening
      · subst hl
        have hlexemes : d.lexemesIn c =
            (d.lexemesIn (.ofBuffer c.bytes)).map (Located.shift c.start) := by
          have hsame : (Cursor.ofBuffer c.bytes).buffer.isBoundaryAt (Cursor.ofBuffer c.bytes).stop =
              true := Bytes.isBoundaryAt_length c.bytes
          rw [Dissection.lexemesIn, Dissection.lexemesIn, hend, hsame]
          exact Dissection.located_shift c.start _ d.tail 0 d.parts
        rw [parsedLexemes_opening settings c d hd gap parts hparts,
          parsedLexemes_opening settings _ d halone gap parts hparts, hlexemes]
        exact matchBrackets_shift c.start settings.maxDepth .start _
      · rw [parsedLexemes_other settings c d hd gap l parts hparts hl,
          parsedLexemes_other settings _ d halone gap l parts hparts hl]
        have hfront : ∃ b, c.bytes[gap.length]? = some b := by
          have hgram := hd.2
          rw [hparts] at hgram
          obtain ⟨b, more, hwritten⟩ := List.exists_cons_of_ne_nil (l.written_ne_nil _ hgram.2.1)
          refine ⟨b, ?_⟩
          rw [← hd.1, hparts, Dissection.textOf, hwritten]
          simp
        obtain ⟨b, hb⟩ := hfront
        rw [foundInstead_shift c hend gap.length b hb]
        simp [Outcome.map, Cursor.ofBuffer]

include hend in
theorem delivered_range : delivered settings c = delivered settings (.ofBuffer c.bytes) := by
  rw [delivered, delivered, parsedLexemes_shift settings c hend, List.filterMap_map]
  rfl

end Ranges

section Pieces

theorem Bytes.isBoundaryAt_append (before after : Bytes) (h : after.IsUtf8) :
    (before ++ after).isBoundaryAt before.length = true := by
  rw [isBoundaryAt, List.drop_left]
  cases after with
  | nil => simp
  | cons b after => simp [(isRegular_of_isUtf8 h).2 b rfl]

theorem Cursor.ofRange_append (before text after : Bytes) :
    let hi := before.length + text.length
    let c := ofRange (before ++ text ++ after) before.length hi
    hi ≤ c.buffer.length ∧ c.start = before.length ∧ c.stop = hi ∧ c.bytes = text := by
  intro hi c
  have hlength : hi ≤ c.buffer.length := by
    simp only [c, hi, ofRange, List.length_append]
    omega
  have hstop : c.stop = hi := Nat.min_eq_left hlength
  have hstart : c.start = before.length := by
    show min before.length c.stop = before.length
    rw [hstop]
    exact Nat.min_eq_left (Nat.le_add_right _ _)
  refine ⟨hlength, hstart, hstop, ?_⟩
  rw [bytes, length, hstop, hstart, Nat.add_sub_cancel_left]
  show ((before ++ text ++ after).drop before.length).take text.length = text
  rw [List.append_assoc, List.drop_left, List.take_left]

/-- The range of the middle one of three texts. -/
theorem Cursor.ofRange_between (u v w : String) :
    let lo := (Bytes.ofString u).length
    let hi := lo + (Bytes.ofString v).length
    let c := ofRange (Bytes.ofString (u ++ v ++ w)) lo hi
    hi ≤ c.buffer.length ∧ c.start = lo ∧ c.stop = hi ∧ c.bytes = Bytes.ofString v ∧
      c.buffer.isBoundaryAt c.stop = true := by
  intro lo hi c
  obtain ⟨hlength, hstart, hstop, hbytes⟩ :=
    ofRange_append (Bytes.ofString u) (Bytes.ofString v) (Bytes.ofString w)
  rw [← ofString_append, ← ofString_append] at hlength hstart hstop hbytes
  refine ⟨hlength, hstart, hstop, hbytes, ?_⟩
  have hend := Bytes.isBoundaryAt_append (Bytes.ofString u ++ Bytes.ofString v) _
    (Bytes.isUtf8_ofString w)
  rw [List.length_append, ← ofString_append, ← ofString_append] at hend
  rw [hstop]
  exact hend

end Pieces

/-- A parse of a range between two characters delivers what the text of the range delivers by
itself and ends with the same balance and the same outcome, at the end of the range.  Where the one
reports a byte of the text, the other reports the position of that byte in the buffer. -/
theorem parse_range (u v w : String) (settings : Settings) (start : Int) {σ : Type} [Sink σ]
    (sink : σ) :
    let buffer := Bytes.ofString (u ++ v ++ w)
    let lo := (Bytes.ofString u).length
    let hi := lo + (Bytes.ofString v).length
    let inside := parseInto settings (.ofRange buffer lo hi) start sink
    let alone := parseInto settings (.ofBuffer (Bytes.ofString v)) start sink
    Reader.read settings start (.ofRange buffer lo hi) sink = inside ∧
    Reader.read settings start (.ofBuffer (Bytes.ofString v)) sink = alone ∧
    delivered settings (.ofRange buffer lo hi) =
      delivered settings (.ofBuffer (Bytes.ofString v)) ∧
    inside.1 = alone.1 ∧ inside.2.balance = alone.2.balance ∧
    inside.2.rest.buffer = buffer ∧ inside.2.rest.start = hi ∧ inside.2.rest.stop = hi ∧
    (∃ o : Outcome Nat, (∀ place ∈ o.place?, place < (Bytes.ofString v).length) ∧
      alone.2.outcome = o.map (Position.ofOffset (Bytes.ofString v))) ∧
    ∀ o : Outcome Nat, (∀ place ∈ o.place?, place < (Bytes.ofString v).length) →
      (alone.2.outcome = o.map (Position.ofOffset (Bytes.ofString v)) ↔
        inside.2.outcome = o.map fun place => Position.ofOffset buffer (lo + place)) := by
  intro buffer lo hi inside alone
  obtain ⟨hlength, hstart, hstop, hbytes, hend⟩ := Cursor.ofRange_between u v w
  have hdelivered : delivered settings (.ofRange buffer lo hi) =
      delivered settings (.ofBuffer (Bytes.ofString v)) := by
    rw [delivered_range settings _ hend, hbytes]
  have hcourse : outcomeAt settings (.ofRange buffer lo hi) =
      (outcomeAt settings (.ofBuffer (Bytes.ofString v))).map (lo + ·) := by
    rw [outcomeAt, parsedLexemes_shift settings _ hend, hbytes, hstart]
    rfl
  have hplaces := place_lt_length settings (Bytes.ofString v)
  have halone : alone.2.outcome = (outcomeAt settings (.ofBuffer (Bytes.ofString v))).map
      (Position.ofOffset (Bytes.ofString v)) := rfl
  have hinside : inside.2.outcome = (outcomeAt settings (.ofBuffer (Bytes.ofString v))).map
      fun place => Position.ofOffset buffer (lo + place) := by
    show (outcomeAt settings (.ofRange buffer lo hi)).map (Position.ofOffset buffer) = _
    rw [hcourse, Outcome.map_map]
  refine ⟨Reader.read_eq_parseInto settings start _ (Bytes.isUtf8_ofString _) sink,
    Reader.read_eq_parseInto settings start _ (Bytes.isUtf8_ofString v) sink, hdelivered, ?_, ?_,
    rfl, hstop, hstop, ⟨_, hplaces, halone⟩, ?_⟩
  · simp only [inside, alone, parseInto, hdelivered]
  · simp only [inside, alone, parseInto, parse, hdelivered]
  · -- each of the two positions determines the byte
    intro o ho
    rw [halone, hinside, Outcome.map_eq_map_iff, Outcome.map_eq_map_iff]
    · intro p hp q hq h
      have hp' := hplaces p hp
      have hq' := ho q hq
      have hsame := Position.ofOffset_inj buffer (lo + p) (lo + q)
        (Nat.le_trans (Nat.le_of_lt (Nat.add_lt_add_left hp' lo)) hlength)
        (Nat.le_trans (Nat.le_of_lt (Nat.add_lt_add_left hq' lo)) hlength) h
      exact Nat.add_left_cancel hsame
    · intro p hp q hq h
      exact Position.ofOffset_inj _ p q (Nat.le_of_lt (hplaces p hp)) (Nat.le_of_lt (ho q hq)) h

end SExpression
