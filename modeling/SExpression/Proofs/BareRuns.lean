import SExpression.Proofs.CursorBounds
import SExpression.Proofs.OnePass

/-! # Bare texts in the loop of a parse

A bare text is the run of bytes up to the next boundary.  The readers that a parse goes through
(`Reader.IsReached`) stand between lexemes of one range.  A turn takes the run at the front of such a
reader as a whole and delivers one token for it, if the run ends before its range does or the range
ends with a character (`turn_of_run`).  Otherwise the run is torn, nothing of it can be read, and the
turn moves one byte into it without a token (`turn_of_torn`). -/
set_option autoImplicit false
namespace SExpression

namespace Cursor

/-- The bytes up to the next boundary. -/
def bareRun (c : Cursor) : Bytes := c.bytes.takeWhile fun b => !isBoundary b

variable (c : Cursor)

theorem bareRun_prefix : c.bareRun <+: c.bytes := List.takeWhile_prefix _

theorem length_bareRun_le : c.bareRun.length ≤ c.length := by
  rw [← c.length_bytes]
  exact c.bareRun_prefix.length_le

theorem exists_bareRun (h : c.bareRun ≠ []) :
    ∃ b rest, c.bytes = b :: rest ∧ isBoundary b = false ∧
      c.bareRun = b :: rest.takeWhile fun b => !isBoundary b := by
  cases hbytes : c.bytes with
  | nil => simp [bareRun, hbytes] at h
  | cons b rest =>
      cases hb : isBoundary b with
      | true => simp [bareRun, hbytes, hb] at h
      | false => exact ⟨b, rest, rfl, hb, by simp [bareRun, hbytes, hb]⟩

/-- A run that goes to a torn end is all there is. -/
theorem isTornText_iff : c.IsTornText ↔
    c.buffer.isBoundaryAt c.stop = false ∧ c.bareRun.length = c.length := by
  rw [IsTornText, ← c.length_bytes]
  refine and_congr_right fun _ => ⟨?_, ?_⟩
  · intro h
    rw [bareRun, List.takeWhile_eq_self_iff.mpr]
    intro b hb
    simp [h b hb]
  · intro h b hb
    rw [← c.bareRun_prefix.eq_of_length h] at hb
    simpa using List.mem_takeWhile_imp hb

theorem follows_skipGap : c.skipGap.Follows c := by
  have hremarks : ∀ d : Cursor, d.skipRemarks.Follows d := by
    intro d
    fun_induction skipRemarks d with
    | case1 d _ ih => exact ih.trans ((follows_advance _ _).trans (d.follows_advance _))
    | case2 d _ => exact Follows.refl d
  exact (hremarks _).trans (c.follows_advance _)

theorem takeUntil_bareRun (hwhole : c.IsWhole) (huntorn : ¬ c.IsTornText) (h : c.bareRun ≠ []) :
    c.takeUntil isBoundary = (c.advance c.bareRun.length, c.bareRun) := by
  obtain ⟨b, rest, hbytes, hb, hrun⟩ := c.exists_bareRun h
  obtain ⟨_, _, _, _, hword, _⟩ := c.takeUntil_front false hbytes hwhole huntorn hb
  have htaken := c.takeUntil_eq hbytes hb rfl
  rw [← List.length_cons, ← hrun] at htaken
  -- the text that is taken is not empty, so that it is the run
  split at htaken
  · exact htaken
  · have hlost := congrArg Prod.snd (htaken.symm.trans hword)
    cases hlost

end Cursor

namespace Reader
variable {σ : Type} [Sink σ] (settings : Settings) (start : Int)

section Loop

/-- The readers between the turns of a parse. -/
inductive IsReached (c : Cursor) (sink : σ) : Reader σ → Prop where
  | front : c.skipGap.peek? = some (byte '(') → IsReached c sink ⟨c.skipGap, sink, start, .start⟩
  | after {r r' : Reader σ} :
      IsReached c sink r → turn settings start r = .more r' → IsReached c sink r'

theorem follows_takeFront {r r' : Reader σ} (h : takeFront settings start r = .more r') :
    r'.cursor.Follows r.cursor := by
  cases takes_of_takeFront settings start h with
  | comment _ => exact (Cursor.follows_advance _ _).trans (Cursor.follows_advance _ _)
  | quoted rest text _ hquoted =>
      exact r.cursor.follows_quoted (congrArg (Option.map (·.1)) hquoted)
  | unquoted _ _ => exact ⟨rfl, r.cursor.start_le_stop, rfl⟩
  | closing _ | opening _ _ | unread _ _ _ _ => exact r.cursor.follows_advance 1
  | bare _ _ _ _ => exact r.cursor.follows_advance _

theorem follows_turn {r r' : Reader σ} (h : turn settings start r = .more r') :
    r'.cursor.Follows r.cursor :=
  (follows_takeFront settings start h).trans (r.cursor.follows_advance _)

variable {settings start} {c : Cursor} {sink : σ} {r : Reader σ}

theorem IsReached.isSound (h : IsReached settings start c sink r) (hutf8 : c.buffer.IsUtf8) :
    r.IsSound start := by
  induction h with
  | front hpeek =>
      have hbuffer := (c.skipGap_spec settings.escapes).1
      exact isSound_front start c.skipGap (by rwa [hbuffer]) hpeek sink
  | after _ hturn ih =>
      have hleads := leadsTo_turn settings start _ ih 0
      rw [hturn] at hleads
      exact hleads.1

theorem IsReached.follows (h : IsReached settings start c sink r) : r.cursor.Follows c := by
  induction h with
  | front _ => exact c.follows_skipGap
  | after _ hturn ih => exact (follows_turn settings start hturn).trans ih

theorem IsReached.range_eq (h : IsReached settings start c sink r) :
    r.cursor.buffer = c.buffer ∧ r.cursor.stop = c.stop :=
  ⟨h.follows.1, h.follows.2.2⟩

end Loop

section Runs
variable (r : Reader σ)

theorem turn_at_run (h : r.cursor.skipWhitespace.bareRun ≠ []) :
    let front := r.cursor.skipWhitespace
    let word := front.takeUntil isBoundary
    turn settings start r =
      if word.2 = [] then .more (r.moveTo (front.advance 1))
      else .more (r.deliver word.1 ((front.take word.2.length).bareToken settings.numeric)) := by
  intro front word
  obtain ⟨b, rest, hbytes, hb, _⟩ := front.exists_bareRun h
  have hpeek : (r.moveTo front).cursor.peek? = some b := by
    show front.bytes.head? = some b
    rw [hbytes]
    rfl
  simp only [isBoundary, Bool.or_eq_false_iff, beq_eq_false_iff_ne] at hb
  obtain ⟨⟨⟨⟨hopening, hclosing⟩, hquote⟩, hsign⟩, _⟩ := hb
  show takeFront settings start (r.moveTo front) = _
  simp only [takeFront, hpeek, hsign, hquote, hclosing, hopening, if_false]
  rfl

/-- A run that can be read is taken as a whole, for one token. -/
theorem turn_of_run (h : r.IsSound start) (hrun : r.cursor.skipWhitespace.bareRun ≠ [])
    (huntorn : ¬ r.cursor.skipWhitespace.IsTornText) :
    let front := r.cursor.skipWhitespace
    turn settings start r =
      .more (r.deliver (front.advance front.bareRun.length)
        (Token.ofBare settings.numeric front.bareRun)) := by
  intro front
  have hwhole : front.IsWhole := r.cursor.isWhole_skipWhitespace h.utf8 h.whole
  have hword := front.takeUntil_bareRun hwhole huntorn hrun
  have htext : front.textTo (front.advance front.bareRun.length) = front.bareRun :=
    congrArg Prod.snd hword
  have htake : front.bytes.take front.bareRun.length = front.bareRun :=
    (List.prefix_iff_eq_take.mp front.bareRun_prefix).symm
  have htoken := Cursor.bareToken_take settings.numeric front front.length_bareRun_le
    (htext.trans htake.symm)
  rw [turn_at_run settings start r hrun, hword, if_neg hrun, htoken, htake]

/-- Of a torn run nothing is read. -/
theorem turn_of_torn (hrun : r.cursor.skipWhitespace.bareRun ≠ [])
    (htorn : r.cursor.skipWhitespace.IsTornText) :
    turn settings start r = .more (r.moveTo (r.cursor.skipWhitespace.advance 1)) := by
  rw [turn_at_run settings start r hrun, if_pos htorn.takeUntil]

end Runs

section Loss

/-- Wherever a bare text may begin in the loop of a parse, the run that stands there becomes one token
and is passed at once, unless the run goes to the end of the range and the end is torn; then, and
only then, its text is empty, and the turn takes one byte of it and delivers nothing. -/
theorem bare_run_taken_unless_torn (settings : Settings) (start : Int) (src : String) (i j : Nat)
    (sink : σ) (r : Reader σ)
    (hr : IsReached settings start (.ofRange (Bytes.ofString src) i j) sink r)
    (hrun : r.cursor.skipWhitespace.bareRun ≠ []) :
    let c := Cursor.ofRange (Bytes.ofString src) i j
    let front := r.cursor.skipWhitespace
    let past := front.advance front.bareRun.length
    let lost := c.buffer.isBoundaryAt c.stop = false ∧ past.bytes = []
    ((front.takeUntil isBoundary).2 = [] ↔ lost) ∧
      (¬ lost → turn settings start r =
        .more (r.deliver past (Token.ofBare settings.numeric front.bareRun))) ∧
      (lost → turn settings start r = .more (r.moveTo (front.advance 1))) := by
  intro c front past lost
  have hutf8 : c.buffer.IsUtf8 := Bytes.isUtf8_ofString src
  have hsound := hr.isSound hutf8
  obtain ⟨hbuffer, hstop⟩ := hr.range_eq
  have hlost : front.IsTornText ↔ lost := by
    have hpast : past.bytes = [] ↔ front.bareRun.length = front.length := by
      rw [Cursor.bytes_advance, List.drop_eq_nil_iff, front.length_bytes]
      exact ⟨Nat.le_antisymm front.length_bareRun_le, Nat.le_of_eq ∘ Eq.symm⟩
    have hfront : front.buffer = c.buffer ∧ front.stop = c.stop := ⟨hbuffer, hstop⟩
    rw [front.isTornText_iff, hfront.1, hfront.2, ← hpast]
  have hwhole : front.IsWhole := r.cursor.isWhole_skipWhitespace hsound.utf8 hsound.whole
  refine ⟨⟨?_, ?_⟩, ?_, ?_⟩
  · intro hempty
    rw [← hlost]
    by_contra huntorn
    rw [front.takeUntil_bareRun hwhole huntorn hrun] at hempty
    exact hrun hempty
  · exact fun h => (hlost.mpr h).takeUntil
  · exact fun h => turn_of_run settings start r hsound hrun (mt hlost.mp h)
  · exact fun h => turn_of_torn settings start r hrun (hlost.mpr h)

/-- A run of two bytes, one character, up to the end of its text. -/
theorem accented_run_taken :
    let c := Cursor.ofRange (Bytes.ofString "(é") 0 3
    let r : Reader (Array Token) := ⟨c.advance 1, #[.opening], 1, ⟨[0], none⟩⟩
    IsReached .lenient 0 c #[] r ∧ r.cursor.skipWhitespace.bareRun ≠ [] ∧
      turn .lenient 0 r = .more (r.deliver (r.cursor.advance 2) (.atom [0xC3, 0xA9])) := by
  intro c r
  have hr : IsReached .lenient 0 c #[] r := .after (.front (by decide +kernel)) (by decide +kernel)
  have hrun : r.cursor.skipWhitespace.bareRun = [0xC3, 0xA9] := by decide +kernel
  have hne : r.cursor.skipWhitespace.bareRun ≠ [] := by rw [hrun]; exact List.cons_ne_nil _ _
  obtain ⟨_, htaken, _⟩ :=
    bare_run_taken_unless_torn .lenient 0 "(é" 0 3 (#[] : Array Token) r hr hne
  have hfront : r.cursor.skipWhitespace = r.cursor := by decide +kernel
  have htoken : Token.ofBare Settings.lenient.numeric [0xC3, 0xA9] = .atom [0xC3, 0xA9] := by decide +kernel
  have hturn := htaken (by decide +kernel)
  rw [hrun, hfront, htoken] at hturn
  exact ⟨hr, hne, hturn⟩

/-- The range `() 12é` without the last byte of its last character: the number is neither read nor
passed at once, and the parse is complete without it. -/
theorem torn_run_dropped :
    let c := Cursor.ofRange (Bytes.ofString "() 12é") 0 6
    (∃ r : Reader (Array Token),
      IsReached .lenient 0 c #[] r ∧
        r.cursor.skipWhitespace.bareRun = [byte '1', byte '2', 0xC3] ∧
        turn .lenient 0 r = .more (r.moveTo (c.advance 4))) ∧
    read .lenient 0 c (#[] : Array Token) = (#[.opening, .closing], ⟨c.atEnd, 0, .complete⟩) := by
  intro c
  refine ⟨⟨⟨c.advance 2, #[.opening, .closing], 0, .start⟩, ?_, by decide +kernel, by decide +kernel⟩,
    by decide +kernel⟩
  exact .after (r := ⟨c.advance 1, #[.opening], 1, ⟨[0], none⟩⟩)
    (.after (.front (by decide +kernel)) (by decide +kernel)) (by decide +kernel)

end Loss

end Reader

end SExpression
