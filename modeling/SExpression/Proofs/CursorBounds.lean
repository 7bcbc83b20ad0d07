import SExpression.Proofs.SpanOperations

/-! # Cursors stay inside their range

An operation moves the beginning of a range forward and leaves the end alone (`follows_apply`), or is
one of the three that shorten it; so it leads into the range it starts from.  Spans do what the
cursors do that they are taken from (`performAll_span`), and hence those that begin as a range of a
buffer remain ranges of it, whatever is done to them (`spans_stay_in_range`). -/
set_option autoImplicit false
namespace SExpression

namespace Span

/-- The span lies inside another one, and inside their buffer. -/
structure IsWithin (t s : Span) : Prop where
  buffer_eq : t.buffer = s.buffer
  start_le_start : s.start ≤ t.start
  start_le_stop : t.start ≤ t.stop
  stop_le_stop : t.stop ≤ s.stop
  stop_le_length : t.stop ≤ t.buffer.length

theorem IsWithin.trans {u t s : Span} (hut : u.IsWithin t) (hts : t.IsWithin s) : u.IsWithin s where
  buffer_eq := hut.buffer_eq.trans hts.buffer_eq
  start_le_start := Nat.le_trans hts.start_le_start hut.start_le_start
  start_le_stop := hut.start_le_stop
  stop_le_stop := Nat.le_trans hut.stop_le_stop hts.stop_le_stop
  stop_le_length := hut.stop_le_length

end Span

namespace Cursor

section Motion

/-- The same range, from the same place or a later one on. -/
def Follows (d c : Cursor) : Prop := d.buffer = c.buffer ∧ c.start ≤ d.start ∧ d.stop = c.stop

theorem Follows.refl (c : Cursor) : c.Follows c := ⟨rfl, Nat.le_refl _, rfl⟩

theorem Follows.trans {e d c : Cursor} (hed : e.Follows d) (hdc : d.Follows c) : e.Follows c :=
  ⟨hed.1.trans hdc.1, Nat.le_trans hdc.2.1 hed.2.1, hed.2.2.trans hdc.2.2⟩

variable (c : Cursor)

theorem follows_advance (n : Nat) : (c.advance n).Follows c := ⟨rfl, c.start_le_start_advance n, rfl⟩

theorem follows_skipComments : c.skipComments.Follows c := by
  have hblank : ∀ c : Cursor, c.skipWhitespace.Follows c := fun c => c.follows_advance _
  induction c using skipComments.induct with
  | case1 c blank past hahead ih =>
      rw [skipComments, if_pos hahead]
      exact ih.trans ((blank.follows_advance _).trans (hblank c))
  | case2 c blank past hstays =>
      rw [skipComments, if_neg hstays]
      exact hblank c

theorem follows_splitOff (separator : UInt8) : (c.splitOff separator).Follows c := by
  rw [splitOff]
  split
  · exact Follows.refl c
  · exact (follows_advance _ 1).trans (c.follows_advance _)

theorem follows_seekLast (p : UInt8 → Bool) : (c.seekLast p).Follows c := by
  rw [seekLast]
  split
  · exact c.follows_advance _
  · exact Follows.refl c

theorem follows_quoted {delimiter : UInt8} {escapes : Bool} {d : Cursor}
    (h : (c.quoted? delimiter escapes).map (·.1) = some d) : d.Follows c := by
  rw [quoted?] at h
  split at h
  · cases h
  · cases h
    exact ((follows_advance _ 1).trans (follows_advance _ _)).trans (c.follows_advance _)

theorem follows_expect {literal : Bytes} {d : Cursor} (h : c.expect? literal = some d) :
    d.Follows c := by
  rw [expect?] at h
  split at h
  · cases h
    exact c.follows_advance _
  · cases h

theorem follows_read {α : Type} {scan : Bytes → Option (Reading α)} {d : Cursor}
    (h : (c.read? scan).map (·.1) = some d) : d.Follows c := by
  rw [read?, Option.map_map, Option.map_eq_some_iff] at h
  obtain ⟨r, _, rfl⟩ := h
  exact c.follows_advance r.length

theorem follows_apply {o : Operation} (ho : ¬ o.Shortens) {d : Cursor} (h : o.apply c = some d) :
    d.Follows c := by
  cases o with
  | take | trimEnd | trim => exact absurd trivial ho
  | advance | dropWhile | skipWhitespace | seek | skipLine | seekLineLast | skipComment | takeUntil =>
      cases h
      exact c.follows_advance _
  | atEnd =>
      cases h
      exact ⟨rfl, c.start_le_stop, rfl⟩
  | skipToNextLine | field | word | wordOf | identifier | identifierWith | wordIn | qualifiedName =>
      cases h
      exact (follows_advance _ _).trans (c.follows_advance _)
  | seekLast p =>
      cases h
      exact c.follows_seekLast p
  | skipComments =>
      cases h
      exact c.follows_skipComments
  | splitOff separator =>
      cases h
      exact c.follows_splitOff separator
  | quoted => exact c.follows_quoted h
  | expect => exact c.follows_expect h
  | int16 | int32 | uint32 | hexadecimal | float => exact c.follows_read h

end Motion

section Runs

theorem Follows.isWithin {d c : Cursor} (h : d.Follows c) : d.span.IsWithin c.span :=
  ⟨h.1, h.2.1, d.start_le_stop, Nat.le_of_eq h.2.2, d.stop_le_length⟩

theorem isWithin_take (c : Cursor) (n : Nat) : (c.take n).span.IsWithin c.span := by
  refine ⟨rfl, Nat.le_refl _, (c.take n).start_le_stop, ?_, (c.take n).stop_le_length⟩
  have hstart := c.start_le_stop
  simp only [take, span, length]
  omega

/-- One operation leads into the range that it starts from. -/
theorem isWithin_applyOrStay (c : Cursor) (o : Operation) :
    (o.applyOrStay c).span.IsWithin c.span := by
  cases hresult : o.apply c with
  | none =>
      rw [Operation.applyOrStay, hresult]
      exact (Follows.refl c).isWithin
  | some d =>
      rw [Operation.applyOrStay, hresult, Option.getD_some]
      by_cases ho : o.Shortens
      · cases o with
        | take n =>
            cases hresult
            exact c.isWithin_take n
        | trimEnd =>
            cases hresult
            exact c.isWithin_take _
        | trim =>
            cases hresult
            exact (c.skipWhitespace.isWithin_take _).trans (c.follows_advance _).isWithin
        | _ => exact absurd ho id
      · exact (c.follows_apply ho hresult).isWithin

theorem isWithin_run (c : Cursor) (os : List Operation) :
    (os.foldl Operation.applyOrStay c).span.IsWithin c.span := by
  induction os generalizing c with
  | nil => exact (Follows.refl c).isWithin
  | cons o os ih => exact (ih (o.applyOrStay c)).trans (c.isWithin_applyOrStay o)

theorem performAll_span (c : Cursor) (hshort : c.buffer.length < 2 ^ 64) (os : List Operation) :
    c.span.performAll os = .ok (os.foldl Operation.applyOrStay c).span := by
  induction os generalizing c with
  | nil => rfl
  | cons o os ih =>
      have hstep : c.span.step o = .ok (o.applyOrStay c).span := by
        rw [Span.step, c.perform_span hshort o, ok_bind, Operation.applyOrStay]
        cases o.apply c <;> rfl
      have hbuffer : (o.applyOrStay c).buffer = c.buffer := (c.isWithin_applyOrStay o).buffer_eq
      rw [Span.performAll, List.foldlM_cons, hstep, ok_bind]
      exact ih (o.applyOrStay c) (by rw [hbuffer]; exact hshort)

end Runs

end Cursor

open Cursor (Operation)

/-- Whatever is done to a span of a buffer, one operation after the other, it remains a span of the
buffer.  No operation breaches: every slice and index lies inside the buffer, and no sum of offsets
goes more than one beyond its length.  Each of them leads into the span it starts from, and the end
stays where it is unless the operation shortens the range.  All of this is what happens to the cursor
whose offsets these are. -/
theorem spans_stay_in_range (buffer : Bytes) (hshort : buffer.length < 2 ^ 64) :
    (Span.ofBuffer buffer = (Cursor.ofBuffer buffer).span ∧
      ∀ i j, Span.ofRange buffer i j = (Cursor.ofRange buffer i j).span) ∧
    ∀ c : Cursor, c.buffer = buffer → ∀ os : List Operation,
      let d := os.foldl Operation.applyOrStay c
      ∃ t, c.span.performAll os = .ok t ∧ t = d.span ∧ t.IsWithin c.span ∧
        ∀ o : Operation, ∃ r, t.perform o = .ok r ∧ r = (o.apply d).map Cursor.span ∧
          (r.getD t).IsWithin t ∧ (¬ o.Shortens → (r.getD t).stop = t.stop) := by
  refine ⟨⟨rfl, fun i j => rfl⟩, ?_⟩
  intro c hbuffer os d
  have hrun := c.performAll_span (by rw [hbuffer]; exact hshort) os
  have hinside := c.isWithin_run os
  refine ⟨d.span, hrun, rfl, hinside, ?_⟩
  intro o
  have hfits : d.buffer.length < 2 ^ 64 := by
    have hsame : d.buffer = c.buffer := hinside.buffer_eq
    rw [hsame, hbuffer]
    exact hshort
  have hnext : ((o.apply d).map Cursor.span).getD d.span = (o.applyOrStay d).span := by
    rw [Operation.applyOrStay]
    cases o.apply d <;> rfl
  refine ⟨_, d.perform_span hfits o, rfl, ?_, ?_⟩
  · rw [hnext]
    exact d.isWithin_applyOrStay o
  · intro ho
    cases hresult : o.apply d with
    | none => rfl
    | some e => exact (d.follows_apply ho hresult).2.2

/-- The text `"a\`, whose closing quote is sought beyond a backslash at its end. -/
def openEscape : Bytes := [byte '"', byte 'a', byte '\\']

theorem span_of_openEscape :
    openEscape.length < 2 ^ 64 ∧
      (Span.ofRange openEscape 0 7).performAll [.quoted (byte '"') true, .advance (2 ^ 64 - 1)] =
        .ok ⟨openEscape, 3, 3⟩ := by
  refine ⟨by decide, ?_⟩
  obtain ⟨⟨_, hrange⟩, hstay⟩ := spans_stay_in_range openEscape (by decide)
  obtain ⟨t, hrun, rfl, _⟩ := hstay (Cursor.ofRange openEscape 0 7) rfl
    [.quoted (byte '"') true, .advance (2 ^ 64 - 1)]
  rw [hrange, hrun]
  decide +kernel

end SExpression
