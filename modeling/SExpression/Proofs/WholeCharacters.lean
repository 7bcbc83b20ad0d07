import SExpression.Proofs.CharacterCuts
import SExpression.Proofs.HandedOutTexts

/-! # Cursors on whole characters

Whatever is done to a cursor that lies between characters leads to another one that does, as long as
no bytes are counted and the bytes beyond ASCII are not told from each other
(`OnCharacters.apply`, `OnCharacters.run`).  No range that is handed out on the way is cut, and so none
reads as empty: a text is what is skipped and what remains (`OnCharacters.text_append`), a token is the
longest run of its class (`OnCharacters.splits_token`), and the pieces between separators are those of
the bytes (`OnCharacters.split_eq`). -/
set_option autoImplicit false
namespace SExpression

/-- The pieces, but the last one only if something is in it. -/
def dropEmptyEnd (pieces : List Bytes) : List Bytes :=
  if pieces.getLast? = some [] then pieces.dropLast else pieces

theorem dropEmptyEnd_cons (piece : Bytes) {pieces : List Bytes} (h : pieces ≠ []) :
    dropEmptyEnd (piece :: pieces) = piece :: dropEmptyEnd pieces := by
  cases pieces with
  | nil => exact absurd rfl h
  | cons next pieces =>
      simp only [dropEmptyEnd, List.getLast?_cons_cons, List.dropLast_cons_cons]
      split <;> rfl

namespace Cursor

theorem textTo_self (c : Cursor) : c.textTo c = [] := by
  simp [textTo, Bytes.slice]

/-- The range of a text begins and ends between characters. -/
structure OnCharacters (c : Cursor) : Prop where
  utf8 : c.buffer.IsUtf8
  start : c.buffer.isBoundaryAt c.start = true
  stop : c.buffer.isBoundaryAt c.stop = true

namespace Operation

/-- The operation counts no bytes, and looks for ASCII bytes or whole texts only or does not tell the
bytes beyond ASCII from each other. -/
def HeedsCharacters : Operation → Prop
  | advance _ | take _ => False
  | dropWhile p | takeUntil p | wordOf p => IsUniform p
  | seek b | field b | qualifiedName b | quoted b _ | splitOff b => b < 0x80
  | seekLast p => ∀ b, p b = true → b < 0x80
  | identifierWith bytes | wordIn bytes => ∀ b ∈ bytes, b < 0x80
  | expect literal => literal.IsUtf8
  | _ => True

theorem isUniform_word {p : UInt8 → Bool} (hp : IsUniform p) :
    IsUniform (TokenClass.word p).accepts := isUniform_isWhitespace.not.and hp

theorem isUniform_accepts {o : Operation} {k : TokenClass} (hk : o.tokenClass? = some k)
    (ho : o.HeedsCharacters) : IsUniform k.accepts := by
  cases o with
  | takeUntil p => cases hk; exact IsUniform.not ho
  | field b => cases hk; exact (isUniform_beq ho).not
  | word => cases hk; exact isUniform_isWhitespace.not
  | wordOf p => cases hk; exact isUniform_word ho
  | identifier =>
      cases hk
      exact isUniform_word ((isUniform_beq (by decide)).or isUniform_isAlphanumeric)
  | identifierWith others =>
      cases hk
      exact isUniform_word (isUniform_isAlphanumeric.or (isUniform_contains ho))
  | wordIn bytes => cases hk; exact isUniform_word (isUniform_contains ho)
  | qualifiedName separator =>
      cases hk
      exact isUniform_word (((isUniform_beq ho).or (isUniform_contains (by decide +kernel))).or
        isUniform_isAlphanumeric)
  | _ => cases hk

end Operation

namespace OnCharacters
variable {c : Cursor} (hc : c.OnCharacters)
include hc

theorem isBoundaryAt_cut {n : Nat} (h : IsCut c.bytes n) :
    c.buffer.isBoundaryAt (min (c.start + n) c.stop) = true := by
  have hle := c.start_le_stop
  cases h with
  | before n b hbyte hb =>
      have hlt := c.lt_length n b hbyte
      rw [Nat.min_eq_left (by simp only [length] at hlt; omega),
        Bytes.isBoundaryAt_getElem _ b (c.getElem?_buffer n b hbyte), hb]
      rfl
  | behind n b hbyte hascii =>
      have hlt := c.lt_length n b hbyte
      rw [Nat.min_eq_left (by simp only [length] at hlt; omega)]
      exact Bytes.isBoundaryAt_succ hc.utf8 _ b (c.getElem?_buffer n b hbyte) hascii
  | whole text rest hbytes htext =>
      have hlength := c.length_bytes
      rw [hbytes, List.length_append] at hlength
      rw [Nat.min_eq_left (by simp only [length] at hlength; omega)]
      have hsplit : c.buffer.drop c.start =
          text ++ (rest ++ (c.buffer.drop c.start).drop c.length) := by
        rw [← List.append_assoc, ← hbytes, bytes, List.take_append_drop]
      exact Bytes.isBoundaryAt_behind hc.utf8 hc.start (Nat.le_trans hle c.stop_le_length) hsplit
        htext
  | past n hpast =>
      rw [c.length_bytes] at hpast
      rw [Nat.min_eq_right (by simp only [length] at hpast; omega)]
      exact hc.stop

theorem advance {n : Nat} (h : IsCut c.bytes n) : (c.advance n).OnCharacters :=
  ⟨hc.utf8, hc.isBoundaryAt_cut h, hc.stop⟩

theorem take {n : Nat} (h : IsCut c.bytes n) : (c.take n).OnCharacters := by
  have hle := c.start_le_stop
  have hstop : (c.take n).stop = min (c.start + n) c.stop := by
    simp only [Cursor.take, length]
    omega
  refine ⟨hc.utf8, hc.start, ?_⟩
  rw [hstop]
  exact hc.isBoundaryAt_cut h

theorem text_eq : c.text = c.bytes := c.text_eq_bytes hc.start hc.stop

theorem atEnd : c.atEnd.OnCharacters := ⟨hc.utf8, hc.stop, hc.stop⟩

theorem dropWhile {p : UInt8 → Bool} (hp : IsUniform p) : (c.dropWhile p).OnCharacters :=
  hc.advance (.takeWhile hp c.bytes)

theorem skipWhitespace : c.skipWhitespace.OnCharacters := hc.dropWhile isUniform_isWhitespace

theorem seek {b : UInt8} (hb : b < 0x80) : (c.seek b).OnCharacters :=
  hc.dropWhile (isUniform_beq hb).not

theorem lead (k : TokenClass) : (k.lead c).OnCharacters := by
  rw [TokenClass.lead]
  split
  · exact hc.skipWhitespace
  · exact hc

theorem past {k : TokenClass} (hk : IsUniform k.accepts) : (k.past c).OnCharacters :=
  (hc.lead k).dropWhile hk

theorem token {o : Operation} {k : TokenClass} (hk : o.tokenClass? = some k)
    (ho : o.HeedsCharacters) {d : Cursor} (h : o.apply c = some d) : d.OnCharacters := by
  rw [(Operation.apply_token hk c).1] at h
  cases h
  exact hc.past (Operation.isUniform_accepts hk ho)

theorem seekLineLast : c.seekLineLast.OnCharacters := by
  apply hc.advance
  rw [hc.text_eq]
  cases hlast : lastIndex? (fun b => !continues b) (c.bytes.takeWhile fun b => !isLineEnd b) with
  | none => exact .front c.bytes
  | some i =>
      obtain ⟨b, hbyte, hb⟩ := getElem?_lastIndex hlast
      obtain ⟨rest, hrest⟩ := List.takeWhile_prefix (l := c.bytes) fun b => !isLineEnd b
      refine .before i b ?_ (by simpa using hb)
      rw [← hrest, List.getElem?_append_left (List.getElem?_eq_some_iff.mp hbyte).1, hbyte]

theorem seekLast {p : UInt8 → Bool} (hp : ∀ b, p b = true → b < 0x80) :
    (c.seekLast p).OnCharacters := by
  rw [Cursor.seekLast]
  split
  · rename_i i hlast
    obtain ⟨b, hbyte, hb⟩ := getElem?_lastIndex hlast
    exact hc.advance (.before i b hbyte (continues_of_ascii (hp b hb)))
  · exact hc

theorem skipComments : c.skipComments.OnCharacters := by
  induction c using skipComments.induct with
  | case1 c blank past hahead ih =>
      rw [Cursor.skipComments, if_pos hahead]
      exact ih (hc.skipWhitespace.advance (.commentLength _))
  | case2 c blank past hstays =>
      rw [Cursor.skipComments, if_neg hstays]
      exact hc.skipWhitespace

theorem trimEnd : c.trimEnd.OnCharacters := by
  apply hc.take
  rw [← c.length_bytes]
  exact .trailing (fun _ => ascii_of_isWhitespace) c.bytes

theorem splitOff {separator : UInt8} (hascii : separator < 0x80) :
    (c.splitOff separator).OnCharacters := by
  rw [Cursor.splitOff]
  split
  · exact hc
  · rw [takeUntil, Cursor.dropWhile, advance_advance]
    exact hc.advance (.seek_succ hascii c.bytes)

theorem quoted {delimiter : UInt8} (hascii : delimiter < 0x80) {escapes : Bool} {d : Cursor}
    (h : (c.quoted? delimiter escapes).map (·.1) = some d) : d.OnCharacters := by
  rw [quoted?] at h
  split at h
  · cases h
  · cases h
    have hinner := hc.advance (.unquotedLength_succ hascii escapes c.bytes)
    rw [advance_advance]
    exact hinner.advance (.unquotedLength_succ hascii escapes _)

theorem expect {literal : Bytes} (hliteral : literal.IsUtf8) {d : Cursor}
    (h : c.expect? literal = some d) : d.OnCharacters := by
  rw [expect?] at h
  split at h
  · rename_i hprefix
    cases h
    obtain ⟨rest, hrest⟩ := List.isPrefixOf_iff_prefix.mp hprefix
    exact hc.advance (.whole literal rest hrest.symm hliteral)
  · cases h

theorem read {α : Type} {scan : Bytes → Option (Reading α)} {d : Cursor}
    (hcut : ∀ {r}, scan c.bytes = some r → IsCut c.bytes r.length)
    (h : (c.read? scan).map (·.1) = some d) : d.OnCharacters := by
  rw [read?, Option.map_map, Option.map_eq_some_iff] at h
  obtain ⟨r, hr, rfl⟩ := h
  exact hc.advance (hcut hr)

/-- One operation leads from between characters to between characters. -/
theorem apply {o : Operation} (ho : o.HeedsCharacters) {d : Cursor} (h : o.apply c = some d) :
    d.OnCharacters := by
  cases o with
  | advance | take => exact absurd ho id
  | atEnd => cases h; exact hc.atEnd
  | dropWhile p => cases h; exact hc.dropWhile ho
  | skipWhitespace => cases h; exact hc.skipWhitespace
  | seek b => cases h; exact hc.seek ho
  | skipLine => cases h; exact hc.advance (.lineLength c.bytes)
  | skipToNextLine => cases h; exact (hc.advance (.lineLength c.bytes)).skipWhitespace
  | seekLineLast => cases h; exact hc.seekLineLast
  | seekLast p => cases h; exact hc.seekLast ho
  | skipComment => cases h; exact hc.advance (.commentLength c.bytes)
  | skipComments => cases h; exact hc.skipComments
  | takeUntil | field | word | wordOf | identifier | identifierWith | wordIn | qualifiedName =>
      exact hc.token rfl ho h
  | quoted delimiter escapes => exact hc.quoted ho h
  | splitOff separator => cases h; exact hc.splitOff ho
  | expect literal => exact hc.expect ho h
  | trimEnd => cases h; exact hc.trimEnd
  | trim => cases h; exact hc.skipWhitespace.trimEnd
  | int16 | int32 => exact hc.read IsCut.scanSigned h
  | uint32 | hexadecimal => exact hc.read IsCut.scanUnsigned h
  | float => exact hc.read IsCut.scanFloat h

theorem applyOrStay {o : Operation} (ho : o.HeedsCharacters) :
    (o.applyOrStay c).OnCharacters := by
  rw [Operation.applyOrStay]
  cases h : o.apply c with
  | none => exact hc
  | some d => exact hc.apply ho h

/-- Whatever is done to a cursor between characters leads to one between characters. -/
theorem run (os : List Operation) (hos : ∀ o ∈ os, o.HeedsCharacters) :
    (os.foldl Operation.applyOrStay c).OnCharacters := by
  induction os generalizing c with
  | nil => exact hc
  | cons o os ih =>
      rw [List.forall_mem_cons] at hos
      exact ih (hc.applyOrStay hos.1) hos.2

theorem upTo {past : Cursor} (hbuffer : past.buffer = c.buffer) (hpast : past.OnCharacters) :
    (c.upTo past).OnCharacters := by
  obtain ⟨hstart, hstop⟩ := upTo_places hbuffer
  have hend := hpast.start
  rw [hbuffer] at hend
  refine ⟨hc.utf8, by rw [hstart]; exact hc.start, ?_⟩
  rw [hstop]
  rcases Nat.le_total past.start c.start with hle | hle
  · rw [Nat.max_eq_right hle]
    exact hc.start
  · rw [Nat.max_eq_left hle]
    exact hend

theorem textTo_eq {past : Cursor} (hbuffer : past.buffer = c.buffer) (hpast : past.OnCharacters) :
    c.textTo past = (c.upTo past).bytes := by
  rw [← text_upTo hbuffer, (hc.upTo hbuffer hpast).text_eq]

/-- A text is what is skipped and what remains. -/
theorem textTo_append {d e : Cursor} (hd : d.OnCharacters) (he : e.OnCharacters) (hdc : d.Follows c)
    (hed : e.Follows d) : c.textTo e = c.textTo d ++ d.textTo e := by
  have hbuffer := (hed.trans hdc).1
  have hend := he.start
  have hmiddle := hd.start
  rw [hbuffer] at hend
  rw [hdc.1] at hmiddle
  rw [textTo, textTo, textTo, hdc.1, Nat.max_eq_left (hed.trans hdc).2.1, Nat.max_eq_left hdc.2.1,
    Nat.max_eq_left hed.2.1]
  exact Bytes.slice_append hc.start hmiddle hend hdc.2.1 hed.2.1

theorem text_append {d : Cursor} (hd : d.OnCharacters) (hdc : d.Follows c) :
    c.text = c.textTo d ++ d.text := by
  have hmiddle := hd.start
  rw [hdc.1] at hmiddle
  have hle := d.start_le_stop
  rw [hdc.2.2] at hle
  rw [text, textTo, text, hdc.1, hdc.2.2, Nat.max_eq_left hdc.2.1]
  exact Bytes.slice_append hc.start hmiddle hc.stop hdc.2.1 hle

section Tokens

theorem textTo_dropWhile {p : UInt8 → Bool} (hp : IsUniform p) :
    c.textTo (c.dropWhile p) = c.bytes.takeWhile p := by
  have hle : (c.bytes.takeWhile p).length ≤ c.length := by
    rw [← c.length_bytes]
    exact (List.takeWhile_prefix p).length_le
  have hend := (hc.dropWhile hp).start
  rw [Cursor.dropWhile, c.start_advance _ hle, buffer_advance] at hend
  rw [Cursor.dropWhile, c.textTo_advance _ hle, hc.start, hend, Bool.and_self, if_pos rfl,
    ← List.prefix_iff_eq_take.mp (List.takeWhile_prefix p)]

/-- Moving over a run of one class takes all of it, and nothing else. -/
theorem run_dropWhile {p : UInt8 → Bool} (hp : IsUniform p) :
    (∀ b ∈ c.textTo (c.dropWhile p), p b = true) ∧
      ∀ b ∈ (c.dropWhile p).text.head?, p b = false := by
  obtain ⟨run, hrun, _, hall, hhead⟩ := exists_takeWhile p c.bytes
  rw [hc.textTo_dropWhile hp, (hc.dropWhile hp).text_eq, Cursor.dropWhile, bytes_advance, hrun]
  exact ⟨hall, hhead⟩

theorem splits_token {k : TokenClass} (hk : IsUniform k.accepts) :
    k.Splits c.text (c.textTo (k.lead c)) (k.cut c).2 (k.cut c).1.text := by
  have hlead := hc.lead k
  have hpast := hc.past hk
  have hforward : (k.lead c).Follows c := by
    rw [TokenClass.lead]
    split
    · exact c.follows_advance _
    · exact Follows.refl c
  have hrest := hlead.text_append hpast ((k.lead c).follows_advance _)
  have hblank := hc.run_dropWhile isUniform_isWhitespace
  obtain ⟨htoken, hlongest⟩ := hlead.run_dropWhile hk
  refine ⟨?_, ?_, ?_, htoken, hlongest⟩
  · rw [List.append_assoc]
    exact (hc.text_append hlead hforward).trans (congrArg _ hrest)
  · intro b hb
    cases hskips : k.skips with
    | true =>
        rw [TokenClass.lead, if_pos hskips] at hb
        exact ⟨rfl, hblank.1 b hb⟩
    | false =>
        rw [TokenClass.lead, if_neg (by rw [hskips]; decide), c.textTo_self] at hb
        cases hb
  · intro hskips
    rw [TokenClass.cut, ← hrest, TokenClass.lead, if_pos hskips]
    exact hblank.2

end Tokens

section Pieces

theorem piece {o : Operation} (ho : o.HeedsCharacters) {d : Cursor} (h : o.piece? c = some d) :
    d.OnCharacters := by
  cases hk : o.tokenClass? with
  | some k =>
      rw [(Operation.apply_token hk c).2.2] at h
      cases h
      exact (hc.lead k).upTo rfl (hc.past (Operation.isUniform_accepts hk ho))
  | none =>
      cases o with
      | quoted delimiter escapes =>
          obtain ⟨_, _, rfl⟩ := Option.map_eq_some_iff.mp h
          have hinner := hc.advance (.unquotedLength_succ ho escapes c.bytes)
          exact hinner.upTo rfl (hinner.advance (.unquotedLength ho escapes _))
      | splitOff separator =>
          rw [Operation.piece?] at h
          split at h
          · cases h
          · cases h
            exact hc.upTo rfl (hc.seek ho)
      | takeUntil | field | word | wordOf | identifier | identifierWith | wordIn | qualifiedName =>
          cases hk
      | _ => cases h

theorem text?_eq {o : Operation} (ho : o.HeedsCharacters) :
    o.text? c = (o.piece? c).map Cursor.bytes := by
  rw [Operation.text?_eq_map_text]
  apply Option.map_congr
  intro d hd
  exact (hc.piece ho hd).text_eq

theorem split_eq {separator : UInt8} (hascii : separator < 0x80) :
    c.split separator = dropEmptyEnd (c.bytes.splitOn separator) := by
  induction c using split.induct separator with
  | case1 c hempty =>
      rw [split, if_pos hempty, c.isEmpty_iff.mp hempty]
      rfl
  | case2 c hsome cut ih =>
      have hnext := hc.splitOff hascii
      rw [Cursor.splitOff, if_neg hsome] at hnext
      obtain ⟨run, hrun, hsplit, hall, hhead⟩ := exists_takeWhile (fun b => !(b == separator)) c.bytes
      have hplain : ∀ b ∈ run, (b == separator) = false := fun b hb => by simpa using hall b hb
      have hpiece : cut.2 = run := (hc.textTo_dropWhile (isUniform_beq hascii).not).trans hrun
      have hbytes : (cut.1.advance 1).bytes = (c.bytes.drop run.length).drop 1 := by
        show ((c.advance _).advance 1).bytes = _
        rw [bytes_advance, bytes_advance, hrun]
      have hstep : c.split separator = cut.2 :: (cut.1.advance 1).split separator := by
        rw [split, if_neg hsome]
      rw [hstep, ih hnext, hpiece, hbytes, List.splitOn, List.splitOn]
      cases hafter : c.bytes.drop run.length with
      | nil =>
          rw [hafter, List.append_nil] at hsplit
          have hne : run ≠ [] := by
            rw [← hsplit]
            exact fun hnil => hsome (c.isEmpty_iff.mpr hnil)
          rw [hsplit, List.splitOnP_eq_singleton hplain]
          simp [dropEmptyEnd, hne]
      | cons b more =>
          obtain rfl : b = separator := by simpa using hhead b (by rw [hafter]; rfl)
          rw [hafter] at hsplit
          rw [hsplit, List.splitOnP_append_cons_of_forall_mem hplain b (beq_self_eq_true b),
            dropEmptyEnd_cons _ (List.splitOnP_ne_nil _ _)]
          rfl

end Pieces

section Chains
variable (os os' : List Operation)

/-- Operations that leave the end alone skip what lies between the cursors they lead from and to. -/
theorem chain (hos : ∀ o ∈ os ++ os', o.HeedsCharacters) :
    let p := os.foldl Operation.applyOrStay c
    let q := os'.foldl Operation.applyOrStay p
    p.OnCharacters ∧ q.OnCharacters ∧
      (q.stop = c.stop → c.text = c.textTo p ++ p.text ∧ c.textTo q = c.textTo p ++ p.textTo q) := by
  intro p q
  have hp : p.OnCharacters := hc.run os fun o ho => hos o (List.mem_append_left _ ho)
  have hq : q.OnCharacters := hp.run os' fun o ho => hos o (List.mem_append_right _ ho)
  refine ⟨hp, hq, ?_⟩
  intro hend
  have hpc : p.span.IsWithin c.span := c.isWithin_run os
  have hqp : q.span.IsWithin p.span := p.isWithin_run os'
  have hstop : p.stop = c.stop :=
    Nat.le_antisymm hpc.stop_le_stop (Nat.le_trans (Nat.le_of_eq hend.symm) hqp.stop_le_stop)
  have hskipped : p.Follows c := ⟨hpc.buffer_eq, hpc.start_le_start, hstop⟩
  have hmore : q.Follows p := ⟨hqp.buffer_eq, hqp.start_le_start, hend.trans hstop.symm⟩
  exact ⟨hc.text_append hp hskipped, hc.textTo_append hp hq hskipped hmore⟩

end Chains

end OnCharacters

theorem onCharacters_of_isUtf8 {buffer : Bytes} (h : buffer.IsUtf8) :
    (ofBuffer buffer).OnCharacters where
  utf8 := h
  start := (Bytes.isBoundaryAt_iff _ 0 (Nat.zero_le _)).mpr (isRegular_of_isUtf8 h).2
  stop := Bytes.isBoundaryAt_length _

theorem onCharacters_ofBuffer (text : String) : (ofBuffer (Bytes.ofString text)).OnCharacters :=
  onCharacters_of_isUtf8 (Bytes.isUtf8_ofString text)

end Cursor

open Cursor (Operation)

/-- On a range of whole characters an operation leads to another one, and the text it hands out is all
of a range of whole characters; a token operation splits the text into whitespace, the longest run of
its class and the rest.  What is read between separators are the pieces of the bytes, the last one only
if something is in it.  The text of the cursor and the text up to another one are all there, too, and
after any operations that leave the end alone they are what was skipped and what remains. -/
theorem scans_keep_characters_whole (c : Cursor) (hc : c.OnCharacters) :
    (∀ o : Operation, o.HeedsCharacters →
      (∀ d, o.apply c = some d → d.OnCharacters) ∧
      (∀ d, o.piece? c = some d → d.OnCharacters) ∧
      o.text? c = (o.piece? c).map Cursor.bytes ∧
      ∀ k, o.tokenClass? = some k → ∃ blank token next,
        o.apply c = some next ∧ o.text? c = some token ∧ k.Splits c.text blank token next.text) ∧
    (∀ separator, separator < 0x80 →
      c.split separator = dropEmptyEnd (c.bytes.splitOn separator)) ∧
    c.text = c.bytes ∧
    (∀ past : Cursor, past.buffer = c.buffer → past.OnCharacters →
      (c.upTo past).OnCharacters ∧ c.textTo past = (c.upTo past).bytes) ∧
    ∀ os os' : List Operation, (∀ o ∈ os ++ os', o.HeedsCharacters) →
      let p := os.foldl Operation.applyOrStay c
      let q := os'.foldl Operation.applyOrStay p
      p.OnCharacters ∧ q.OnCharacters ∧
        (q.stop = c.stop →
          c.text = c.textTo p ++ p.text ∧ c.textTo q = c.textTo p ++ p.textTo q) := by
  refine ⟨?_, fun _ => hc.split_eq, hc.text_eq, ?_, hc.chain⟩
  · intro o ho
    refine ⟨fun _ => hc.apply ho, fun _ => hc.piece ho, hc.text?_eq ho, ?_⟩
    intro k hk
    obtain ⟨happly, htext, _⟩ := Operation.apply_token hk c
    exact ⟨_, _, _, happly, htext, hc.splits_token (Operation.isUniform_accepts hk ho)⟩
  · intro past hbuffer hpast
    exact ⟨hc.upTo hbuffer hpast, hc.textTo_eq hbuffer hpast⟩

/-- Words of letters beyond ASCII are taken whole. -/
theorem accented_words_whole :
    let c := Cursor.ofBuffer (Bytes.ofString " né à")
    c.OnCharacters ∧ Operation.word.HeedsCharacters ∧
      (∀ d, Operation.word.apply c = some d → d.OnCharacters) ∧
      c.text = c.textTo (Operation.word.applyOrStay c) ++ (Operation.word.applyOrStay c).text := by
  intro c
  have hc : c.OnCharacters := Cursor.onCharacters_ofBuffer _
  obtain ⟨hops, _, _, _, hchain⟩ := scans_keep_characters_whole c hc
  have hword : Operation.word.HeedsCharacters := trivial
  obtain ⟨hnext, _⟩ := hops .word hword
  obtain ⟨_, _, htext⟩ := hchain [.word] [] (by simpa using hword)
  exact ⟨hc, hword, hnext, (htext rfl).1⟩

end SExpression
