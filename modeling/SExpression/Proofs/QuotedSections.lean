import SExpression.Proofs.CursorBounds

/-! # Quoted sections

With escapes a backslash hides the byte after it, unless it is hidden itself (`isHidden`).  A
delimiter that is not hidden opens a quoted section, and the next one that is not hidden, where
hiding begins anew, closes it (`QuotedSection.IsFirstIn`).  A text has one first section or none, and
`Cursor.quoted?` hands out what is inside it and goes on behind it.  A text that was quoted by putting
backslashes into it is therefore found again (`first_section_found`). -/
set_option autoImplicit false
namespace SExpression

section Hiding
variable (delimiter : UInt8) (escapes : Bool)

/-- Whether the byte at an offset is hidden; `hidden` says so of the first byte. -/
def isHidden (hidden : Bool) (bs : Bytes) : Nat → Bool
  | 0 => hidden
  | i + 1 => escapes && bs[i]? == some (byte '\\') && !isHidden hidden bs i

/-- A delimiter that is not hidden stands at an offset. -/
def DelimiterAt (hidden : Bool) (bs : Bytes) (i : Nat) : Prop :=
  bs[i]? = some delimiter ∧ isHidden escapes hidden bs i = false

/-- No delimiter shows in the bytes. -/
def IsUnquoted (bs : Bytes) : Prop := ∀ i, ¬ DelimiterAt delimiter escapes false bs i

theorem isHidden_cons (hidden : Bool) (b : UInt8) (bs : Bytes) (i : Nat) :
    isHidden escapes hidden (b :: bs) (i + 1) =
      isHidden escapes (escapes && b == byte '\\' && !hidden) bs i := by
  induction i with
  | zero => rfl
  | succ i ih => rw [isHidden, ih, List.getElem?_cons_succ, isHidden]

theorem isHidden_append (hidden : Bool) (bs rest : Bytes) (i : Nat) (hi : i ≤ bs.length) :
    isHidden escapes hidden (bs ++ rest) i = isHidden escapes hidden bs i := by
  induction i with
  | zero => rfl
  | succ i ih => rw [isHidden, isHidden, ih (Nat.le_of_succ_le hi), List.getElem?_append_left hi]

theorem delimiterAt_zero (hidden : Bool) (b : UInt8) (bs : Bytes) :
    DelimiterAt delimiter escapes hidden (b :: bs) 0 ↔ b = delimiter ∧ hidden = false := by
  simp [DelimiterAt, isHidden]

theorem delimiterAt_succ (hidden : Bool) (b : UInt8) (bs : Bytes) (i : Nat) :
    DelimiterAt delimiter escapes hidden (b :: bs) (i + 1) ↔
      DelimiterAt delimiter escapes (escapes && b == byte '\\' && !hidden) bs i := by
  rw [DelimiterAt, isHidden_cons, List.getElem?_cons_succ, DelimiterAt]

theorem delimiterAt_append (hidden : Bool) (bs rest : Bytes) (i : Nat) (hi : i < bs.length) :
    DelimiterAt delimiter escapes hidden (bs ++ rest) i ↔
      DelimiterAt delimiter escapes hidden bs i := by
  rw [DelimiterAt, isHidden_append escapes hidden bs rest i (Nat.le_of_lt hi),
    List.getElem?_append_left hi, DelimiterAt]

end Hiding

section Seeking
variable {delimiter : UInt8} {escapes : Bool} (hback : escapes = true → delimiter ≠ byte '\\')
include hback

theorem unquotedLength_cons (hidden : Bool) (b : UInt8) (bs : Bytes) :
    unquotedLength delimiter escapes hidden (b :: bs) =
      if b = delimiter ∧ hidden = false then 0
      else 1 + unquotedLength delimiter escapes (escapes && b == byte '\\' && !hidden) bs := by
  cases hidden with
  | true => simp [unquotedLength]
  | false =>
      by_cases hescape : escapes = true ∧ b = byte '\\'
      · obtain ⟨hescapes, rfl⟩ := hescape
        have hne : byte '\\' ≠ delimiter := (hback hescapes).symm
        simp [unquotedLength, hescapes, hne]
      · have hplain : (escapes && b == byte '\\') = false := by
          simpa using hescape
        simp [unquotedLength, hplain]

/-- The search stops at the first delimiter that shows, or else at the end. -/
theorem unquotedLength_spec (hidden : Bool) (bs : Bytes) :
    (∀ i < unquotedLength delimiter escapes hidden bs,
      ¬ DelimiterAt delimiter escapes hidden bs i) ∧
    (unquotedLength delimiter escapes hidden bs < bs.length →
      DelimiterAt delimiter escapes hidden bs (unquotedLength delimiter escapes hidden bs)) := by
  induction bs generalizing hidden with
  | nil => simp [unquotedLength]
  | cons b bs ih =>
      rw [unquotedLength_cons hback]
      split
      · rename_i hfound
        exact ⟨fun i hi => absurd hi (Nat.not_lt_zero i),
          fun _ => (delimiterAt_zero delimiter escapes hidden b bs).mpr hfound⟩
      · rename_i hother
        obtain ⟨hnone, hat⟩ := ih (escapes && b == byte '\\' && !hidden)
        rw [Nat.add_comm]
        refine ⟨?_, ?_⟩
        · intro i hi
          cases i with
          | zero => rwa [delimiterAt_zero]
          | succ i =>
              rw [delimiterAt_succ]
              exact hnone i (Nat.lt_of_succ_lt_succ hi)
        · intro hlt
          rw [delimiterAt_succ]
          exact hat (Nat.lt_of_succ_lt_succ hlt)

theorem unquotedLength_of_isUnquoted (bs : Bytes) (h : IsUnquoted delimiter escapes bs) :
    unquotedLength delimiter escapes false bs = bs.length := by
  have hle := unquotedLength_le delimiter escapes false bs
  have hat := (unquotedLength_spec hback false bs).2
  by_contra hne
  exact h _ (hat (Nat.lt_of_le_of_ne hle hne))

theorem isUnquoted_iff (bs : Bytes) :
    IsUnquoted delimiter escapes bs ↔ ¬ unquotedLength delimiter escapes false bs < bs.length := by
  refine ⟨?_, ?_⟩
  · intro h
    rw [unquotedLength_of_isUnquoted hback bs h]
    exact Nat.lt_irrefl _
  · intro hall i hi
    have hin : i < bs.length := (List.getElem?_eq_some_iff.mp hi.1).1
    exact (unquotedLength_spec hback false bs).1 i (by omega) hi

theorem unquotedLength_of_append (bs rest : Bytes) (h : IsUnquoted delimiter escapes bs)
    (hshows : isHidden escapes false bs bs.length = false) :
    unquotedLength delimiter escapes false (bs ++ delimiter :: rest) = bs.length := by
  obtain ⟨hnone, hat⟩ := unquotedLength_spec hback false (bs ++ delimiter :: rest)
  have hhere : DelimiterAt delimiter escapes false (bs ++ delimiter :: rest) bs.length := by
    refine ⟨by simp, ?_⟩
    rwa [isHidden_append escapes false bs _ _ (Nat.le_refl _)]
  rcases Nat.lt_trichotomy (unquotedLength delimiter escapes false (bs ++ delimiter :: rest))
    bs.length with hlt | heq | hgt
  · have hfound := hat (by simp only [List.length_append]; omega)
    rw [delimiterAt_append _ _ _ _ _ _ hlt] at hfound
    exact absurd hfound (h _)
  · exact heq
  · exact absurd hhere (hnone _ hgt)

/-- Where a delimiter shows, the first one splits the bytes. -/
theorem exists_cut (bs : Bytes)
    (hlt : unquotedLength delimiter escapes false bs < bs.length) :
    ∃ before rest, bs = before ++ delimiter :: rest ∧ IsUnquoted delimiter escapes before ∧
      isHidden escapes false before before.length = false := by
  obtain ⟨hnone, hat⟩ := unquotedLength_spec hback false bs
  generalize unquotedLength delimiter escapes false bs = n at hlt hnone hat
  obtain ⟨hbyte, hshows⟩ := hat hlt
  have hlength : (bs.take n).length = n := List.length_take_of_le (Nat.le_of_lt hlt)
  have hsplit : bs = bs.take n ++ delimiter :: bs.drop (n + 1) := by
    have hn := (List.getElem?_eq_some_iff.mp hbyte).2
    rw [← hn, ← List.drop_eq_getElem_cons hlt, List.take_append_drop]
  refine ⟨bs.take n, bs.drop (n + 1), hsplit, ?_, ?_⟩
  · intro i hi
    have hin : i < (bs.take n).length := (List.getElem?_eq_some_iff.mp hi.1).1
    rw [← delimiterAt_append _ _ _ _ (delimiter :: bs.drop (n + 1)) _ hin, ← hsplit] at hi
    exact hnone i (by omega) hi
  · rw [← isHidden_append escapes false _ (delimiter :: bs.drop (n + 1)) _ (Nat.le_refl _), ← hsplit,
      hlength]
    exact hshows

end Seeking

/-- The parts of a text before, in and behind a quoted section; nothing is behind a section that no
delimiter closes. -/
structure QuotedSection where
  before : Bytes
  inner : Bytes
  rest : Option Bytes

namespace QuotedSection
variable (delimiter : UInt8) (escapes : Bool)

/-- What follows the opening delimiter. -/
def opened (s : QuotedSection) : Bytes :=
  match s.rest with
  | some rest => s.inner ++ delimiter :: rest
  | none => s.inner

/-- The section is the first one of a text: no delimiter shows before it or in it, and those that
open and close it do show. -/
structure IsFirstIn (text : Bytes) (s : QuotedSection) : Prop where
  text_eq : text = s.before ++ delimiter :: s.opened delimiter
  before : IsUnquoted delimiter escapes s.before
  opens : isHidden escapes false s.before s.before.length = false
  inner : IsUnquoted delimiter escapes s.inner
  closes : s.rest ≠ none → isHidden escapes false s.inner s.inner.length = false

variable {delimiter escapes} {text : Bytes} {s : QuotedSection}

theorem IsFirstIn.length_before (hback : escapes = true → delimiter ≠ byte '\\')
    (h : s.IsFirstIn delimiter escapes text) :
    unquotedLength delimiter escapes false text = s.before.length := by
  rw [h.text_eq]
  exact unquotedLength_of_append hback s.before _ h.before h.opens

theorem IsFirstIn.length_inner (hback : escapes = true → delimiter ≠ byte '\\')
    (h : s.IsFirstIn delimiter escapes text) :
    unquotedLength delimiter escapes false (s.opened delimiter) = s.inner.length := by
  unfold opened
  cases hrest : s.rest with
  | none => exact unquotedLength_of_isUnquoted hback s.inner h.inner
  | some rest => exact unquotedLength_of_append hback s.inner rest h.inner (h.closes (by simp [hrest]))

theorem take_opened (s : QuotedSection) (delimiter : UInt8) :
    (s.opened delimiter).take s.inner.length = s.inner := by
  unfold opened
  cases s.rest <;> simp

theorem drop_opened (s : QuotedSection) :
    (s.opened delimiter).drop s.inner.length = (s.rest.map (delimiter :: ·)).getD [] := by
  unfold opened
  cases s.rest <;> simp

theorem exists_isFirstIn (hback : escapes = true → delimiter ≠ byte '\\')
    (h : ¬ IsUnquoted delimiter escapes text) : ∃ s, IsFirstIn delimiter escapes text s := by
  rw [isUnquoted_iff hback, not_not] at h
  obtain ⟨before, opened, htext, hbefore, hopens⟩ := exists_cut hback text h
  by_cases hlt : unquotedLength delimiter escapes false opened < opened.length
  · obtain ⟨inner, rest, hopened, hinner, hcloses⟩ := exists_cut hback opened hlt
    exact ⟨⟨before, inner, some rest⟩, by rw [htext, hopened]; rfl, hbefore, hopens, hinner,
      fun _ => hcloses⟩
  · exact ⟨⟨before, opened, none⟩, htext, hbefore, hopens, (isUnquoted_iff hback opened).mpr hlt,
      fun hne => absurd rfl hne⟩

theorem IsFirstIn.unique (hback : escapes = true → delimiter ≠ byte '\\') {s' : QuotedSection}
    (h : s.IsFirstIn delimiter escapes text) (h' : s'.IsFirstIn delimiter escapes text) : s = s' := by
  have hlength : s.before.length = s'.before.length :=
    (h.length_before hback).symm.trans (h'.length_before hback)
  obtain ⟨hbefore, hcut⟩ := List.append_inj (h.text_eq.symm.trans h'.text_eq) hlength
  have hopened : s.opened delimiter = s'.opened delimiter := (List.cons.inj hcut).2
  have hinside : s.inner.length = s'.inner.length := by
    rw [← h.length_inner hback, hopened, h'.length_inner hback]
  have hinner : s.inner = s'.inner := by
    rw [← s.take_opened delimiter, hopened, hinside, s'.take_opened delimiter]
  have hbehind : (s.rest.map (delimiter :: ·)).getD [] = (s'.rest.map (delimiter :: ·)).getD [] := by
    rw [← s.drop_opened, hopened, hinside, s'.drop_opened]
  have hrest : s.rest = s'.rest := by
    cases hr : s.rest <;> cases hr' : s'.rest <;> simp_all
  cases s
  cases s'
  simp only at hbefore hinner hrest
  rw [hbefore, hinner, hrest]

end QuotedSection

namespace Cursor
variable (c : Cursor) {delimiter : UInt8} {escapes : Bool} {s : QuotedSection}

/-- The inside of the first section begins and ends between characters. -/
theorem textTo_of_isFirstIn (hutf8 : c.buffer.IsUtf8) (hstop : c.buffer.isBoundaryAt c.stop = true)
    (hascii : delimiter < 0x80) (h : s.IsFirstIn delimiter escapes c.bytes) :
    let inner := c.advance (s.before.length + 1)
    inner.bytes = s.opened delimiter ∧ inner.textTo (inner.advance s.inner.length) = s.inner := by
  intro inner
  have hlength := c.length_bytes
  rw [h.text_eq, List.length_append, List.length_cons] at hlength
  have hbytes : inner.bytes = s.opened delimiter := by
    rw [bytes_advance, h.text_eq, ← List.drop_drop, List.drop_left, List.drop_succ_cons,
      List.drop_zero]
  have hfits : s.inner.length ≤ (s.opened delimiter).length := by
    rw [← s.take_opened delimiter, List.length_take]
    exact Nat.min_le_right _ _
  have hstart : inner.start = c.start + s.before.length + 1 := by
    rw [c.start_advance _ (by omega), Nat.add_assoc]
  have hopen : c.bytes[s.before.length]? = some delimiter := by
    rw [h.text_eq]
    simp
  have hbegin : c.buffer.isBoundaryAt inner.start = true := by
    rw [hstart]
    exact Bytes.isBoundaryAt_succ hutf8 _ _ (c.getElem?_buffer _ _ hopen) hascii
  have hinside : inner.length = (s.opened delimiter).length := by
    rw [← inner.length_bytes, hbytes]
  have hend : c.buffer.isBoundaryAt (inner.start + s.inner.length) = true := by
    cases hrest : s.rest with
    | none =>
        -- without a closing delimiter the inside goes to the end of the range
        have hall : (s.opened delimiter).length = s.inner.length := by rw [QuotedSection.opened, hrest]
        have hlast : inner.start + s.inner.length = c.stop := by
          have hle := inner.start_le_stop
          have hsame : inner.stop = c.stop := rfl
          simp only [length] at hinside
          omega
        rw [hlast]
        exact hstop
    | some rest =>
        have hclose : inner.bytes[s.inner.length]? = some delimiter := by
          rw [hbytes, QuotedSection.opened, hrest]
          simp
        exact Bytes.isBoundaryAt_of_ascii _ _ (inner.getElem?_buffer _ _ hclose) hascii
  refine ⟨hbytes, ?_⟩
  rw [inner.textTo_advance _ (by omega), hbytes, s.take_opened delimiter]
  rw [buffer_advance, hbegin, hend]
  rfl

/-- What is cut out is the inside of the first section, and the cursor goes on behind it. -/
theorem quoted?_of_isFirstIn (hutf8 : c.buffer.IsUtf8)
    (hstop : c.buffer.isBoundaryAt c.stop = true) (hascii : delimiter < 0x80)
    (hback : escapes = true → delimiter ≠ byte '\\') (h : s.IsFirstIn delimiter escapes c.bytes) :
    c.quoted? delimiter escapes =
      some (c.advance (s.before.length + 1 + s.inner.length + 1), s.inner) := by
  obtain ⟨hbytes, htext⟩ := c.textTo_of_isFirstIn hutf8 hstop hascii h
  rw [advance_advance] at htext
  have hfound : ¬ c.length ≤ s.before.length := by
    rw [← c.length_bytes, h.text_eq, List.length_append, List.length_cons]
    omega
  simp only [quoted?, h.length_before hback, if_neg hfound, hbytes, h.length_inner hback, htext,
    advance_advance]

/-- The cursor that goes on holds what is behind the section. -/
theorem exists_quoted (hutf8 : c.buffer.IsUtf8) (hstop : c.buffer.isBoundaryAt c.stop = true)
    (hascii : delimiter < 0x80) (hback : escapes = true → delimiter ≠ byte '\\')
    (h : s.IsFirstIn delimiter escapes c.bytes) :
    ∃ next, c.quoted? delimiter escapes = some (next, s.inner) ∧ next.Follows c ∧
      next.bytes = s.rest.getD [] := by
  refine ⟨_, c.quoted?_of_isFirstIn hutf8 hstop hascii hback h, c.follows_advance _, ?_⟩
  rw [← advance_advance, ← advance_advance, bytes_advance, bytes_advance,
    (c.textTo_of_isFirstIn hutf8 hstop hascii h).1, s.drop_opened]
  cases s.rest <;> rfl

theorem quoted?_eq_none_iff (hback : escapes = true → delimiter ≠ byte '\\') :
    c.quoted? delimiter escapes = none ↔ IsUnquoted delimiter escapes c.bytes := by
  rw [isUnquoted_iff hback, c.length_bytes, Nat.not_lt, quoted?]
  split <;> simp_all

end Cursor

section Escaping

namespace Bytes

/-- A backslash before each backslash and each delimiter. -/
def escape (delimiter : UInt8) (text : Bytes) : Bytes :=
  text.flatMap fun b => if b = byte '\\' ∨ b = delimiter then [byte '\\', b] else [b]

def quote (delimiter : UInt8) (text : Bytes) : Bytes :=
  delimiter :: (text.escape delimiter ++ [delimiter])

end Bytes

variable {delimiter : UInt8}

theorem unquotedLength_escape (hback : delimiter ≠ byte '\\') (text rest : Bytes) :
    unquotedLength delimiter true false (Bytes.escape delimiter text ++ rest) =
      (Bytes.escape delimiter text).length + unquotedLength delimiter true false rest := by
  induction text with
  | nil => exact (Nat.zero_add _).symm
  | cons b text ih =>
      have hcons : Bytes.escape delimiter (b :: text) =
          (if b = byte '\\' ∨ b = delimiter then [byte '\\', b] else [b]) ++
            Bytes.escape delimiter text := rfl
      rw [hcons]
      split
      · have hstep : unquotedLength delimiter true false
            (byte '\\' :: b :: (Bytes.escape delimiter text ++ rest)) =
              2 + unquotedLength delimiter true false (Bytes.escape delimiter text ++ rest) := by
          simp [unquotedLength_cons (fun _ => hback), hback.symm]
          omega
        simp only [List.cons_append, List.nil_append, hstep, ih, List.length_cons]
        omega
      · rename_i hplain
        rw [not_or] at hplain
        have hstep : unquotedLength delimiter true false
            (b :: (Bytes.escape delimiter text ++ rest)) =
              1 + unquotedLength delimiter true false (Bytes.escape delimiter text ++ rest) := by
          simp [unquotedLength_cons (fun _ => hback), hplain, beq_false_of_ne hplain.1]
        simp only [List.cons_append, List.nil_append, hstep, ih, List.length_cons]
        omega

theorem isFirstIn_quote (hback : delimiter ≠ byte '\\') (text tail : Bytes) :
    QuotedSection.IsFirstIn delimiter true (text.quote delimiter ++ tail)
      ⟨[], text.escape delimiter, some tail⟩ := by
  have hinner : IsUnquoted delimiter true (text.escape delimiter) := by
    have hall := unquotedLength_escape hback text []
    rw [List.append_nil] at hall
    rw [isUnquoted_iff fun _ => hback, hall]
    omega
  have hat := (unquotedLength_spec (fun _ : true = true => hback) false
    (text.escape delimiter ++ [delimiter])).2
  have hend : unquotedLength delimiter true false (text.escape delimiter ++ [delimiter]) =
      (text.escape delimiter).length := by
    rw [unquotedLength_escape hback, unquotedLength_cons fun _ => hback, if_pos ⟨rfl, rfl⟩]
    rfl
  rw [hend] at hat
  have hcloses := (hat (by simp)).2
  rw [isHidden_append _ _ _ _ _ (Nat.le_refl _)] at hcloses
  refine ⟨?_, ?_, rfl, hinner, fun _ => hcloses⟩
  · simp [Bytes.quote, QuotedSection.opened]
  · intro i hi
    cases hi.1

/-- A delimiter is a character of its own, so a backslash before it is none inside another. -/
theorem Bytes.isUtf8_escape (hascii : delimiter < 0x80) (before text : Bytes)
    (h : Bytes.IsUtf8 (before ++ text)) : Bytes.IsUtf8 (before ++ text.escape delimiter) := by
  induction text generalizing before with
  | nil => exact h
  | cons b text ih =>
      have hcons : Bytes.escape delimiter (b :: text) =
          (if b = byte '\\' ∨ b = delimiter then [byte '\\', b] else [b]) ++
            Bytes.escape delimiter text := rfl
      rw [hcons]
      split
      · rename_i hspecial
        have hb : b < 0x80 := by
          rcases hspecial with rfl | rfl
          · decide
          · exact hascii
        have hcut : ∀ x ∈ (b :: text).head?, continues x = false := by
          intro x hx
          obtain rfl : b = x := by simpa using hx
          exact continues_of_ascii hb
        obtain ⟨hbefore, hafter⟩ := h.split hcut
        have hpair : Bytes.IsUtf8 [byte '\\', b] := by
          apply isUtf8_of_ascii
          simpa using ⟨by decide, hb⟩
        exact hbefore.append (hpair.append (ih [] (hafter.tail_of_ascii hb)))
      · rw [← List.append_assoc]
        apply ih
        rwa [List.append_assoc]

theorem Bytes.isUtf8_quote (hascii : delimiter < 0x80) {text : Bytes} (h : text.IsUtf8) :
    (text.quote delimiter).IsUtf8 := by
  have hdelimiter : Bytes.IsUtf8 [delimiter] := isUtf8_of_ascii _ (by simpa using hascii)
  exact hdelimiter.append ((isUtf8_escape hascii [] text h).append hdelimiter)

end Escaping

/-- A section is cut out exactly where a delimiter shows: then the text splits in one way around its
first section, the text handed out is the inside of that section as it stands, and the cursor that is
handed out holds what is behind it, which is nothing where the section is not closed.  A text that was
quoted is cut out as it was written, whatever follows. -/
theorem first_section_found (delimiter : UInt8) (hascii : delimiter < 0x80) :
    (∀ escapes : Bool, (escapes = true → delimiter ≠ byte '\\') →
      ∀ c : Cursor, c.buffer.IsUtf8 → c.buffer.isBoundaryAt c.stop = true →
        (c.quoted? delimiter escapes = none ↔ IsUnquoted delimiter escapes c.bytes) ∧
        (¬ IsUnquoted delimiter escapes c.bytes →
          ∃! s : QuotedSection, s.IsFirstIn delimiter escapes c.bytes) ∧
        ∀ s : QuotedSection, s.IsFirstIn delimiter escapes c.bytes →
          ∃ next, c.quoted? delimiter escapes = some (next, s.inner) ∧ next.Follows c ∧
            next.bytes = s.rest.getD []) ∧
    (delimiter ≠ byte '\\' → ∀ t tail : String,
      let text := Bytes.ofString t
      let c := Cursor.ofBuffer (text.quote delimiter ++ Bytes.ofString tail)
      ∃ next, c.quoted? delimiter true = some (next, text.escape delimiter) ∧ next.Follows c ∧
        next.bytes = Bytes.ofString tail) := by
  refine ⟨?_, ?_⟩
  · intro escapes hback c hutf8 hstop
    refine ⟨c.quoted?_eq_none_iff hback, ?_, ?_⟩
    · intro hshows
      obtain ⟨s, hs⟩ := QuotedSection.exists_isFirstIn hback hshows
      exact ⟨s, hs, fun s' hs' => hs'.unique hback hs⟩
    · intro s hs
      exact c.exists_quoted hutf8 hstop hascii hback hs
  · intro hback t tail text c
    have hfirst := isFirstIn_quote hback text (Bytes.ofString tail)
    rw [← Cursor.bytes_ofBuffer (text.quote delimiter ++ Bytes.ofString tail)] at hfirst
    have hutf8 : c.buffer.IsUtf8 :=
      (Bytes.isUtf8_quote hascii (Bytes.isUtf8_ofString t)).append (Bytes.isUtf8_ofString tail)
    have hstop : c.buffer.isBoundaryAt c.stop = true := c.buffer.isBoundaryAt_length
    exact c.exists_quoted hutf8 hstop hascii (fun _ => hback) hfirst

/-- A quotation mark that a backslash hides neither opens nor closes a section. -/
theorem hidden_marks_passed_over :
    let mark := byte '"'
    let c := Cursor.ofBuffer (Bytes.ofString "\\\"é \"a\\\"é\" x")
    mark < 0x80 ∧ c.buffer.IsUtf8 ∧ c.buffer.isBoundaryAt c.stop = true ∧
      ∃ next, c.quoted? mark true = some (next, Bytes.ofString "a\\\"é") ∧ next.Follows c ∧
        next.bytes = Bytes.ofString " x" := by
  intro mark c
  have hmark : mark < 0x80 := by decide
  have hback : true = true → mark ≠ byte '\\' := fun _ => by decide
  have hutf8 : c.buffer.IsUtf8 := Bytes.isUtf8_ofString _
  have hstop : c.buffer.isBoundaryAt c.stop = true := Bytes.isBoundaryAt_length _
  have hfirst : QuotedSection.IsFirstIn mark true c.bytes
      ⟨Bytes.ofString "\\\"é ", Bytes.ofString "a\\\"é", some (Bytes.ofString " x")⟩ :=
    { text_eq := by decide
      before := (isUnquoted_iff hback _).mpr (by decide)
      opens := by decide
      inner := (isUnquoted_iff hback _).mpr (by decide)
      closes := fun _ => by decide }
  exact ⟨hmark, hutf8, hstop,
    ((first_section_found mark hmark).1 true hback c hutf8 hstop).2.2 _ hfirst⟩

end SExpression
