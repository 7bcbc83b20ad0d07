import SExpression.Proofs.NestingLimit
import SExpression.Proofs.RoundTrip
import SExpression.Proofs.TextPieces

/-! # Reading what was read and written

Whatever a parse delivers can be written and read again, with two exceptions.  A literal that
overflows to an infinite float is written as an atom, and a quote that nothing closes may end in a
backslash that has nothing to hide: written, it hides the closing quote
(`Dissection.isWritable_or`).  Apart from these the same tokens come back, and from a complete parse
a complete one (`delivered_comes_back`). -/
set_option autoImplicit false
namespace SExpression
open Report (depthAfter)

section Backslashes

/-- The number of backslashes at the end. -/
def trailingBackslashes (t : Bytes) : Nat := (t.reverse.takeWhile (· == byte '\\')).length

theorem trailingBackslashes_concat (t : Bytes) :
    trailingBackslashes (t ++ [byte '\\']) = trailingBackslashes t + 1 := by
  simp [trailingBackslashes]

theorem trailingBackslashes_cons (b : UInt8) (t : Bytes) :
    trailingBackslashes (b :: t) =
      if trailingBackslashes t = t.length ∧ b = byte '\\' then t.length + 1
      else trailingBackslashes t := by
  rw [trailingBackslashes, List.reverse_cons, List.takeWhile_append, List.length_reverse]
  change (if trailingBackslashes t = t.length then t.reverse ++ [b].takeWhile (· == byte '\\')
    else t.reverse.takeWhile (· == byte '\\')).length = _
  by_cases hall : trailingBackslashes t = t.length
  · by_cases hb : b = byte '\\'
    · rw [if_pos hall, if_pos ⟨hall, hb⟩]
      simp [hb]
    · rw [if_pos hall, if_neg fun h => hb h.2, hall]
      simp [hb]
  · rw [if_neg hall, if_neg fun h => hall h.1]
    rfl

/-- Before a quote that closes, each backslash has a byte to take. -/
theorem IsEnclosed.even_backslashes {t : Bytes} (h : IsEnclosed true t) :
    trailingBackslashes t % 2 = 0 := by
  induction h with
  | nil => rfl
  | plain b t _ hback _ ih =>
      rw [trailingBackslashes_cons, if_neg fun h => hback rfl h.2]
      exact ih
  | escaped b t _ _ ih =>
      rw [trailingBackslashes_cons, trailingBackslashes_cons, List.length_cons]
      by_cases hall : trailingBackslashes t = t.length
      · by_cases hb : b = byte '\\'
        · simp only [hall, hb, and_self, if_true]
          omega
        · have hshort : ¬ t.length = t.length + 1 := by omega
          simp only [hall, hb, and_false, if_false, hshort, false_and]
          omega
      · have hshort : ¬ trailingBackslashes t = t.length + 1 := by
          have hle : trailingBackslashes t ≤ t.length := by
            rw [trailingBackslashes, ← t.length_reverse]
            exact (List.takeWhile_prefix _).length_le
          omega
        simp only [hall, false_and, if_false, hshort]
        exact ih

end Backslashes

section Texts

theorem not_isNaN_of_scanFloat (text : Bytes) (r : Reading Binary64) (h : scanFloat text = some r) :
    r.value.isNaN = false := by
  rw [scanFloat, Option.map_eq_some_iff] at h
  obtain ⟨literal, _, rfl⟩ := h
  have hle : literal.value.value.magnitude ≤ Binary64.infinity := Nat.min_le_right _ _
  exact decide_eq_false (Nat.not_lt.mpr hle)

theorem bmod_of_scanSigned (text : Bytes) (r : Reading Int)
    (h : IntegerType.int32.scanSigned text = some r) : r.value.bmod (2 ^ 32) = r.value := by
  rw [IntegerType.scanSigned, Option.map_eq_some_iff] at h
  obtain ⟨numeral, _, rfl⟩ := h
  exact BitVec.toInt_bmod_cancel _

/-- What a lexeme stands for comes back as it is, but for an infinite float. -/
theorem Lexeme.readBack_token_iff (policy : NumericPolicy) (l : Lexeme) :
    (l.token policy).readBack = l.token policy ↔
      ∀ x, l.token policy = .float x → x.isInfinite = false := by
  cases l with
  | bare text =>
      rw [token]
      rcases Token.ofBare_cases policy text with ⟨r, hr, h⟩ | ⟨r, hr, h⟩ | h
      · have hnan := not_isNaN_of_scanFloat text r hr
        cases hinfinite : r.value.isInfinite <;> simp [h, Token.readBack, hnan, hinfinite]
      · have hsame : (Token.integer r.value).readBack = .integer r.value :=
          congrArg Token.integer (bmod_of_scanSigned text r hr)
        simp [h, hsame]
      · simp [h, Token.readBack]
  | _ => simp [token, Token.readBack]

/-- What a lexeme stands for can be written, unless it is a quote whose last backslash hides
nothing. -/
theorem Lexeme.isWritable_or (settings : Settings) (l : Lexeme) (rest : Bytes)
    (h : l.StandsBefore settings.escapes rest) :
    (l.token settings.numeric).IsWritable settings ∨
      ∃ u, l = .quoted (u ++ [byte '\\']) false ∧ settings.escapes = true ∧
        IsEnclosed settings.escapes u := by
  cases l with
  | opening => exact Or.inl trivial
  | closing => exact Or.inl trivial
  | quoted text closed =>
      cases closed with
      | true => exact Or.inl h
      | false =>
          rcases h.1 with henclosed | ⟨hescapes, u, hu, rfl⟩
          · exact Or.inl henclosed
          · exact Or.inr ⟨u, rfl, hescapes, hu⟩
  | bare text =>
      refine Or.inl ?_
      rw [token]
      rcases Token.ofBare_cases settings.numeric text with ⟨r, _, hr⟩ | ⟨r, _, hr⟩ | hr
      · rw [hr]
        trivial
      · rw [hr]
        trivial
      · rw [hr]
        exact ⟨h.1, h.2.1, hr⟩

/-- The tokens of the first lexemes of a text can all be written, but for a last quote whose last
backslash hides nothing. -/
theorem Dissection.isWritable_or (settings : Settings) (tail : Bytes)
    (parts : List (Bytes × Lexeme)) (h : Grammatical settings.escapes tail parts) (ts : List Token)
    (hts : ts <+: parts.map fun part => part.2.token settings.numeric) :
    (∀ t ∈ ts, t.IsWritable settings) ∨
      ∃ us u gap, ts = us ++ [.string (u ++ [byte '\\'])] ∧
        parts.getLast? = some (gap, .quoted (u ++ [byte '\\']) false) ∧
        settings.escapes = true ∧ IsEnclosed settings.escapes u ∧
        ∀ t ∈ us, t.IsWritable settings := by
  induction parts generalizing ts with
  | nil =>
      rw [List.prefix_nil.mp hts]
      exact Or.inl (by simp)
  | cons part parts ih =>
      obtain ⟨gap, l⟩ := part
      obtain ⟨_, hl, hparts⟩ := h
      rw [List.map_cons, List.prefix_cons_iff] at hts
      obtain rfl | ⟨ts, rfl, hts⟩ := hts
      · exact Or.inl (by simp)
      rcases l.isWritable_or settings _ hl with hfirst | ⟨u, rfl, hescapes, hu⟩
      · rcases ih hparts ts hts with hall | ⟨us, u, gap', rfl, hlast, hescapes, hu, hus⟩
        · refine Or.inl fun t ht => ?_
          rcases List.mem_cons.mp ht with rfl | ht
          · exact hfirst
          · exact hall t ht
        · refine Or.inr ⟨_ :: us, u, gap', rfl, ?_, hescapes, hu, ?_⟩
          · rw [List.getLast?_cons, hlast]
            rfl
          · intro t ht
            rcases List.mem_cons.mp ht with rfl | ht
            · exact hfirst
            · exact hus t ht
      · -- such a quote takes the rest of the text
        obtain ⟨rfl, _⟩ := textOf_eq_nil tail parts hparts hl.2
        rw [List.map_nil, List.prefix_nil] at hts
        subst hts
        exact Or.inr ⟨[], u, gap, rfl, rfl, hescapes, hu, by simp⟩

end Texts

section Delivered
variable (settings : Settings) (src : Bytes)

theorem delivered_isWritable_or (d : Dissection) (hd : d.IsOf settings.escapes src) :
    (∀ t ∈ delivered settings (.ofBuffer src), t.IsWritable settings) ∨
      ∃ us u gap, delivered settings (.ofBuffer src) = us ++ [.string (u ++ [byte '\\'])] ∧
        d.parts.getLast? = some (gap, .quoted (u ++ [byte '\\']) false) ∧
        settings.escapes = true ∧ IsEnclosed settings.escapes u ∧
        ∀ t ∈ us, t.IsWritable settings := by
  have hread := delivered_prefix_of_isOf settings src d hd
  rw [Dissection.lexemes, List.map_map] at hread
  exact Dissection.isWritable_or settings d.tail d.parts hd.2 _ hread

theorem readBack_delivered_iff :
    (delivered settings (.ofBuffer src)).map Token.readBack = delivered settings (.ofBuffer src) ↔
      ∀ x, Token.float x ∈ delivered settings (.ofBuffer src) → x.isInfinite = false := by
  obtain ⟨d, hd⟩ := Dissection.exists_isOf settings.escapes src
  have hlexeme : ∀ t ∈ delivered settings (.ofBuffer src),
      t.readBack = t ↔ ∀ x, t = .float x → x.isInfinite = false := by
    intro t ht
    obtain ⟨l, _, rfl⟩ := List.mem_map.mp ((delivered_prefix_of_isOf settings src d hd).subset ht)
    exact l.readBack_token_iff settings.numeric
  constructor
  · intro h x hx
    have hall := List.map_inj_left.mp (h.trans (List.map_id _).symm)
    exact (hlexeme _ hx).mp (hall _ hx) x rfl
  · intro h
    refine Eq.trans (List.map_congr_left fun t ht => (hlexeme t ht).mpr ?_) (List.map_id _)
    rintro x rfl
    exact h x ht

/-- A complete parse leaves no list open and meets no stray bracket. -/
theorem depth_of_complete (c : Cursor) (h : outcomeAt settings c = .complete) :
    (delivered settings c).foldl depthAfter 0 = 0 ∧ strayCount 0 (delivered settings c) = 0 := by
  rw [delivered]
  rcases parsedLexemes_cases settings c with hnil | hmatched
  · rw [hnil]
    exact ⟨rfl, rfl⟩
  · rw [outcomeAt, hmatched] at h
    rw [hmatched]
    rcases matchBrackets_cases settings.maxDepth .start (c.lexemes settings.escapes) with
      ⟨pre, l, post, _, _, _, hcut⟩ | hall
    · rw [hcut] at h
      cases h
    · rw [hall] at h ⊢
      exact (outcome_eq_complete_iff settings.numeric _).mp h

end Delivered

section Writing
open Dissection (textOf Grammatical Standing)

theorem Layout.partsAfter_concat (depth : Int) (previous : Token) (ts : List Token) (t : Token) :
    ∃ depth' previous', partsAfter depth previous (ts ++ [t]) =
      partsAfter depth previous ts ++ [(separator depth' previous' t, t.lexeme)] := by
  induction ts generalizing depth previous with
  | nil => exact ⟨depth, previous, rfl⟩
  | cons u ts ih =>
      obtain ⟨depth', previous', h⟩ := ih (depth + u.step) u
      exact ⟨depth', previous', by rw [List.cons_append, partsAfter, h, partsAfter, List.cons_append]⟩

theorem Layout.parts_concat (u : Token) (ts : List Token) (t : Token) :
    ∃ depth previous, parts (u :: ts ++ [t]) =
      parts (u :: ts) ++ [(separator depth previous t, t.lexeme)] := by
  obtain ⟨depth, previous, h⟩ := partsAfter_concat u.step u ts t
  exact ⟨depth, previous, by rw [List.cons_append, parts, h, parts, List.cons_append]⟩

theorem Layout.boundary_separator (depth : Int) (previous t : Token) (rest : Bytes)
    (hrest : ∀ b ∈ rest.head?, isBoundary b = true) :
    ∀ b ∈ (separator depth previous t ++ rest).head?, isBoundary b = true := by
  unfold separator
  split
  · simp [isBoundary, isWhitespace]
  · split
    · simp [isBoundary, isWhitespace]
    · exact hrest

theorem Layout.not_openEnded_parts (ts : List Token) (gap t : Bytes) :
    (gap, Lexeme.quoted t false) ∉ parts ts := by
  intro hmem
  have hlexeme := List.mem_map_of_mem (f := Prod.snd) hmem
  rw [lexemes_parts] at hlexeme
  obtain ⟨u, _, hu⟩ := List.mem_map.mp hlexeme
  cases u <;> cases hu

theorem parsedLexemes_writeLine (settings : Settings) (ts : List Token)
    (hfirst : ∀ t ∈ ts.head?, t = .opening) (hts : ∀ t ∈ ts, t.IsWritable settings)
    (hdepth : ∀ pre, pre <+: ts → ∀ most ∈ settings.maxDepth, pre.foldl depthAfter 0 ≤ most) :
    ∃ ls, parsedLexemes settings (.ofBuffer (Layout.writeLine ts)) =
        (ls, (ls.foldl Nesting.after .start).outcome) ∧
      ls.filterMap (fun l => l.value.token? settings.numeric) = ts.map Token.readBack := by
  unfold Layout.writeLine
  simp only
  split
  · rename_i hempty
    have hplain := parsedLexemes_written settings ts [] hfirst hts hdepth .nil (by simp)
    rwa [List.append_nil, hempty] at hplain
  · exact parsedLexemes_written settings ts [byte '\n'] hfirst hts hdepth (.space _ _ rfl .nil)
      (by simp [isBoundary, isWhitespace])

theorem Layout.standing_parts (settings : Settings) (ts : List Token) (rest : Bytes)
    (hts : ∀ t ∈ ts, t.IsWritable settings) (hrest : ∀ b ∈ rest.head?, isBoundary b = true) :
    Standing settings.escapes rest (parts ts) := by
  have hwhole := isOf_parts settings [] ts hts .nil (by simp)
  obtain ⟨hstanding, _⟩ := Dissection.standing_of_grammatical _ _ hwhole.2
  exact hstanding.extend rest hrest (not_openEnded_parts ts)

/-- Before the quote that is written after it, the backslash takes that quote, and the string goes on
to the end of the text. -/
theorem Layout.isOf_openEnded (settings : Settings) (us : List Token) (t : Bytes)
    (hus : ∀ v ∈ .opening :: us, v.IsWritable settings) (hescapes : settings.escapes = true)
    (ht : IsEnclosed settings.escapes t) :
    ∃ gap, Dissection.IsOf settings.escapes
      (writeLine (.opening :: us ++ [.string (t ++ [byte '\\'])]))
      ⟨parts (.opening :: us) ++ [(gap, .quoted (t ++ [byte '\\', byte '"', byte '\n']) false)],
        []⟩ := by
  obtain ⟨depth, previous, hparts⟩ := parts_concat .opening us (.string (t ++ [byte '\\']))
  have hline : writeLine (.opening :: us ++ [.string (t ++ [byte '\\'])]) =
      write (.opening :: us ++ [.string (t ++ [byte '\\'])]) ++ [byte '\n'] := by
    unfold writeLine
    exact if_neg (by simp [write, Token.written])
  have hopen : IsOpenEnded settings.escapes (t ++ [byte '\\', byte '"', byte '\n']) := by
    apply Or.inl
    apply ht.append
    exact .escaped _ _ hescapes (.plain _ _ (by decide) (fun _ => by decide) .nil)
  refine ⟨separator depth previous (.string (t ++ [byte '\\'])), ?_, ?_⟩
  · rw [hline, ← textOf_parts, hparts, Dissection.textOf_append, Dissection.textOf_append]
    simp [textOf, Lexeme.written, Token.lexeme]
  · rw [Dissection.grammatical_append_iff]
    refine ⟨?_, isGap_separator _ _ _ _, ⟨hopen, rfl⟩, .nil⟩
    apply standing_parts settings _ _ hus
    apply boundary_separator
    intro b hb
    obtain rfl : byte '"' = b := by simpa [Lexeme.written] using hb
    rfl

/-- A quote that ends in a backslash with nothing to hide does not come back. -/
theorem delivered_openEnded (settings : Settings) (us : List Token) (t : Bytes)
    (hus : ∀ v ∈ .opening :: us, v.IsWritable settings) (hescapes : settings.escapes = true)
    (ht : IsEnclosed settings.escapes t) :
    delivered settings
        (.ofBuffer (Layout.writeLine (.opening :: us ++ [.string (t ++ [byte '\\'])]))) ≠
      .opening :: us ++ [.string (t ++ [byte '\\'])] := by
  obtain ⟨gap, hd⟩ := Layout.isOf_openEnded settings us t hus hescapes ht
  intro h
  have hread := delivered_prefix_of_isOf settings _ _ hd
  rw [h, Dissection.lexemes, List.map_append, Layout.lexemes_parts, List.map_append] at hread
  obtain ⟨_, hlast⟩ := List.append_inj' (hread.eq_of_length (by simp)) rfl
  -- the string that comes back is longer
  simp [Lexeme.token] at hlast

end Writing

section Again
variable (settings : Settings) (src : Bytes)

/-- The exception, told by the tokens. -/
theorem isWritable_delivered_iff :
    (∀ t ∈ delivered settings (.ofBuffer src), t.IsWritable settings) ↔
      ¬ (settings.escapes = true ∧ ∃ t,
        (delivered settings (.ofBuffer src)).getLast? = some (.string t) ∧
          trailingBackslashes t % 2 = 1) := by
  constructor
  · rintro hall ⟨hescapes, t, hlast, hodd⟩
    have ht : IsEnclosed settings.escapes t := hall _ (List.mem_of_getLast? hlast)
    rw [hescapes] at ht
    have heven := ht.even_backslashes
    omega
  · intro hlast
    obtain ⟨d, hd⟩ := Dissection.exists_isOf settings.escapes src
    rcases delivered_isWritable_or settings src d hd with hall | ⟨us, u, _, hts, _, hescapes, hu, _⟩
    · exact hall
    · exfalso
      apply hlast
      rw [hescapes] at hu
      have heven := hu.even_backslashes
      refine ⟨hescapes, _, by rw [hts, List.getLast?_concat], ?_⟩
      rw [trailingBackslashes_concat]
      omega

/-- Such a string comes from a quote that nothing closes. -/
theorem openEnded_of_odd (d : Dissection) (hd : d.IsOf settings.escapes src) (t : Bytes)
    (hescapes : settings.escapes = true)
    (hlast : (delivered settings (.ofBuffer src)).getLast? = some (.string t))
    (hodd : trailingBackslashes t % 2 = 1) :
    ∃ gap, d.parts.getLast? = some (gap, .quoted t false) := by
  rcases delivered_isWritable_or settings src d hd with hall | ⟨us, u, gap, hts, hpart, _⟩
  · exact absurd ⟨hescapes, t, hlast, hodd⟩ ((isWritable_delivered_iff settings src).mp hall)
  · rw [hts, List.getLast?_concat, Option.some.injEq, Token.string.injEq] at hlast
    rw [← hlast]
    exact ⟨gap, hpart⟩

theorem isWritable_of_reread
    (h : delivered settings (.ofBuffer (Layout.writeLine (delivered settings (.ofBuffer src)))) =
      delivered settings (.ofBuffer src)) :
    ∀ t ∈ delivered settings (.ofBuffer src), t.IsWritable settings := by
  obtain ⟨d, hd⟩ := Dissection.exists_isOf settings.escapes src
  rcases delivered_isWritable_or settings src d hd with hall | ⟨us, u, _, hts, _, hescapes, hu, hus⟩
  · exact hall
  · exfalso
    have hfirst := head_delivered settings (.ofBuffer src)
    rw [hts] at h hfirst
    cases us with
    | nil => cases hfirst _ rfl
    | cons v us =>
        obtain rfl : v = .opening := hfirst v rfl
        exact delivered_openEnded settings us u hus hescapes hu h

theorem parsedLexemes_reread
    (hall : ∀ t ∈ delivered settings (.ofBuffer src), t.IsWritable settings) :
    ∃ ls, parsedLexemes settings
          (.ofBuffer (Layout.writeLine (delivered settings (.ofBuffer src)))) =
        (ls, (ls.foldl Nesting.after .start).outcome) ∧
      ls.filterMap (fun l => l.value.token? settings.numeric) =
        (delivered settings (.ofBuffer src)).map Token.readBack :=
  parsedLexemes_writeLine settings _ (head_delivered settings (.ofBuffer src)) hall fun pre hpre =>
    depth_delivered_le settings (.ofBuffer src) pre hpre

theorem delivered_reread_iff :
    delivered settings (.ofBuffer (Layout.writeLine (delivered settings (.ofBuffer src)))) =
        delivered settings (.ofBuffer src) ↔
      (∀ x, Token.float x ∈ delivered settings (.ofBuffer src) → x.isInfinite = false) ∧
        ∀ t ∈ delivered settings (.ofBuffer src), t.IsWritable settings := by
  rw [← readBack_delivered_iff]
  constructor
  · intro h
    have hall := isWritable_of_reread settings src h
    obtain ⟨ls, hread, htokens⟩ := parsedLexemes_reread settings src hall
    rw [← htokens]
    rw [delivered, hread] at h
    exact ⟨h, hall⟩
  · rintro ⟨hsame, hall⟩
    obtain ⟨ls, hread, htokens⟩ := parsedLexemes_reread settings src hall
    rw [delivered, hread]
    exact htokens.trans hsame

theorem complete_reread
    (h : delivered settings (.ofBuffer (Layout.writeLine (delivered settings (.ofBuffer src)))) =
      delivered settings (.ofBuffer src))
    (hcomplete : outcomeAt settings (.ofBuffer src) = .complete) :
    outcomeAt settings (.ofBuffer (Layout.writeLine (delivered settings (.ofBuffer src)))) =
      .complete := by
  obtain ⟨ls, hread, _⟩ := parsedLexemes_reread settings src (isWritable_of_reread settings src h)
  have hmatched := depth_of_complete settings (.ofBuffer src) hcomplete
  rw [← h, delivered, hread] at hmatched
  rw [outcomeAt, hread]
  exact (outcome_eq_complete_iff settings.numeric ls).mpr hmatched

end Again

/-- What a parse delivers comes back when it is written and parsed again, unless it holds an infinite
float or ends with a string whose last backslash hides nothing; such a string comes from a quote that
nothing closes.  If the first parse was complete, the second one is. -/
theorem delivered_comes_back (settings : Settings) (src : String) (start : Int) {σ : Type} [Sink σ]
    (sink : σ) :
    let ts := delivered settings (.ofBuffer (Bytes.ofString src))
    let text := Layout.writeLine ts
    let first := parseInto settings (.ofBuffer (Bytes.ofString src)) start sink
    let second := parseInto settings (.ofBuffer text) start sink
    Reader.read settings start (.ofBuffer (Bytes.ofString src)) sink = first ∧ text.IsUtf8 ∧
    Reader.read settings start (.ofBuffer text) sink = second ∧
    first.1 = feed sink ts ∧ second.1 = feed sink (delivered settings (.ofBuffer text)) ∧
    (delivered settings (.ofBuffer text) = ts ↔
      (∀ x, Token.float x ∈ ts → x.isInfinite = false) ∧
      ¬ (settings.escapes = true ∧
        ∃ t, ts.getLast? = some (.string t) ∧ trailingBackslashes t % 2 = 1)) ∧
    (∀ t, settings.escapes = true → ts.getLast? = some (.string t) →
      trailingBackslashes t % 2 = 1 → ∀ d, Dissection.IsOf settings.escapes (Bytes.ofString src) d →
        ∃ gap, d.parts.getLast? = some (gap, .quoted t false)) ∧
    (delivered settings (.ofBuffer text) = ts → first.2.outcome = .complete →
      second.2.outcome = .complete) := by
  intro ts text first second
  have hutf8 : text.IsUtf8 :=
    Layout.isUtf8_writeLine ts (isUtf8_delivered settings _ (Bytes.isUtf8_ofString src))
  refine ⟨Reader.read_eq_parseInto settings start _ (Bytes.isUtf8_ofString src) sink, hutf8,
    Reader.read_eq_parseInto settings start _ hutf8 sink, rfl, rfl, ?_, ?_, ?_⟩
  · rw [← isWritable_delivered_iff]
    exact delivered_reread_iff settings (Bytes.ofString src)
  · intro t hescapes hlast hodd d hd
    exact openEnded_of_odd settings (Bytes.ofString src) d hd t hescapes hlast hodd
  · intro hagain hcomplete
    have houtcome := complete_reread settings (Bytes.ofString src) hagain
      (map_eq_complete _ _ hcomplete)
    show (outcomeAt settings (.ofBuffer text)).map (Position.ofOffset text) = .complete
    rw [houtcome]
    rfl

/-- A complete parse may end with a quote that nothing closes. -/
example :
    let c := Cursor.ofBuffer (Bytes.ofString "() \"\\")
    outcomeAt .lenient c = .complete ∧
    delivered .lenient c = [.opening, .closing, .string [byte '\\']] ∧
    delivered .lenient (.ofBuffer (Layout.writeLine (delivered .lenient c))) =
      [.opening, .closing, .string [byte '\\', byte '"', byte '\n']] := by
  decide +kernel

end SExpression
