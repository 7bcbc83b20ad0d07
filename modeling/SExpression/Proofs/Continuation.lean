import SExpression.Columns
import SExpression.Proofs.Joining
import SExpression.Proofs.NumberText

/-! # Going on with a parse

A parse without a nesting limit that goes on where another one ended leaves what one parse of both
texts would have left, with a line feed between them (`continued_parse`).  Nothing but the balance of
the store is carried from the first parse to the second, whatever the first text ends in, as long as
it leaves no quote open and neither text is refused at its beginning. -/
set_option autoImplicit false
namespace SExpression

theorem Dissection.not_mem_of_getLast? {escapes : Bool} (text : Bytes) (d : Dissection)
    (hd : d.IsOf escapes text)
    (h : ∀ gap t, d.parts.getLast? ≠ some (gap, .quoted t false)) :
    ∀ gap t, (gap, Lexeme.quoted t false) ∉ d.parts := by
  intro gap t hmem
  obtain ⟨pre, post, hparts⟩ := List.append_of_mem hmem
  obtain ⟨rfl, _⟩ := d.openEnded_last text hd pre post gap t hparts
  apply h gap t
  rw [hparts, List.getLast?_concat]

section Unlimited
variable (settings : Settings) (hlimit : settings.maxDepth = none) (a b : Bytes)

include hlimit in
theorem delivered_unlimited (d : Dissection) (hd : d.IsOf settings.escapes a)
    (hfirst : ∀ part ∈ d.parts.head?, part.2 = .opening) :
    delivered settings (.ofBuffer a) = d.lexemes.map (Lexeme.token settings.numeric) := by
  apply delivered_of_isOf settings a d hd hfirst
  intro ts _ most hmost
  rw [hlimit] at hmost
  cases hmost

include hlimit in
/-- What the joined text delivers is what its parts deliver one after the other. -/
theorem delivered_join
    (ha : ∀ found place, (parse settings (.ofBuffer a) 0).outcome ≠
      .malformed (.missingOpening found) place)
    (hb : ∀ found place, (parse settings (.ofBuffer b) 0).outcome ≠
      .malformed (.missingOpening found) place)
    (hclosed : ∀ d, Dissection.IsOf settings.escapes a d →
      ∀ gap t, d.parts.getLast? ≠ some (gap, .quoted t false)) :
    delivered settings (.ofBuffer (a ++ byte '\n' :: b)) =
      delivered settings (.ofBuffer a) ++ delivered settings (.ofBuffer b) := by
  obtain ⟨d, hd⟩ := Dissection.exists_isOf settings.escapes a
  obtain ⟨e, he⟩ := Dissection.exists_isOf settings.escapes b
  have hdfirst := d.head_opening settings a hd 0 ha
  have hefirst := e.head_opening settings b he 0 hb
  have hjoin := Dissection.isOf_join a b d e hd he (d.not_mem_of_getLast? a hd (hclosed d hd))
  have hjoinfirst : ∀ part ∈ (d.join e).parts.head?, part.2 = .opening := by
    intro part hpart
    cases hdparts : d.parts with
    | cons first parts =>
        obtain rfl : first = part := by simpa [Dissection.join, hdparts] using hpart
        exact hdfirst first (by rw [hdparts]; rfl)
    | nil =>
        cases heparts : e.parts with
        | nil => simp [Dissection.join, Dissection.behind, hdparts, heparts] at hpart
        | cons first parts =>
            obtain ⟨gap, l⟩ := first
            obtain rfl : _ = part := by
              simpa [Dissection.join, Dissection.behind, hdparts, heparts] using hpart
            exact hefirst (gap, l) (by rw [heparts]; rfl)
  rw [delivered_unlimited settings hlimit _ (d.join e) hjoin hjoinfirst,
    delivered_unlimited settings hlimit a d hd hdfirst,
    delivered_unlimited settings hlimit b e he hefirst, Dissection.lexemes_join, List.map_append]

end Unlimited

/-- A parse that is continued ends with the store that one parse of the joined text ends with:
elements, tables and balance.  The same holds of the readers that take one turn after the other. -/
theorem continued_parse (numeric : NumericPolicy) (escapes : Bool) (a b : String) (s : Columns Bytes)
    (ha : ∀ found place, (parse ⟨numeric, escapes, none⟩ (.ofBuffer (Bytes.ofString a)) 0).outcome ≠
      .malformed (.missingOpening found) place)
    (hb : ∀ found place, (parse ⟨numeric, escapes, none⟩ (.ofBuffer (Bytes.ofString b)) 0).outcome ≠
      .malformed (.missingOpening found) place)
    (hclosed : ∀ d, Dissection.IsOf escapes (Bytes.ofString a) d →
      ∀ gap t, d.parts.getLast? ≠ some (gap, .quoted t false)) :
    let read (text : String) (s : Columns Bytes) :=
      Columns.parse ⟨numeric, escapes, none⟩ (.ofBuffer (Bytes.ofString text)) s
    let first := read a s
    let second := read b first.1
    let joined := read (a ++ "\n" ++ b) s
    second.1 = joined.1 ∧ second.2.balance = joined.2.balance ∧
    ∀ (text : String) (t : Columns Bytes),
      Reader.read ⟨numeric, escapes, none⟩ t.balance (.ofBuffer (Bytes.ofString text)) t =
        read text t := by
  intro read first second joined
  have htext : Bytes.ofString (a ++ "\n" ++ b) =
      Bytes.ofString a ++ byte '\n' :: Bytes.ofString b := by
    rw [ofString_append, ofString_append, List.append_assoc]
    rfl
  have hdelivered := delivered_join ⟨numeric, escapes, none⟩ rfl (Bytes.ofString a)
    (Bytes.ofString b) ha hb hclosed
  rw [← htext] at hdelivered
  have hstore : second.1 = joined.1 := by
    simp only [second, first, joined, read, Columns.parse, parseInto, hdelivered, feed_append]
  refine ⟨hstore, ?_, ?_⟩
  · have hsecond : second.1.balance = second.2.balance := Columns.balance_feed first.1 _
    have hjoined : joined.1.balance = joined.2.balance := Columns.balance_feed s _
    rw [← hsecond, ← hjoined, hstore]
  · intro text t
    exact Reader.read_eq_parseInto _ t.balance _ (Bytes.isUtf8_ofString text) t

/-- The first text ends in a comment inside a list, after a string with a quote in it. -/
theorem continued_after_comment :
    let read (text : String) (s : Columns Bytes) :=
      Columns.parse ⟨.leading, true, none⟩ (.ofBuffer (Bytes.ofString text)) s
    (read "(2.5)) ; end" (read "(\"\\\"\" ; (" (Columns.empty 1)).1).1 =
      (read "(\"\\\"\" ; (\n(2.5)) ; end" (Columns.empty 1)).1 := by
  have ha : (parse ⟨.leading, true, none⟩ (.ofBuffer (Bytes.ofString "(\"\\\"\" ; (")) 0).outcome =
      .truncated ⟨0, 0⟩ := by decide +kernel
  have hb : (parse ⟨.leading, true, none⟩ (.ofBuffer (Bytes.ofString "(2.5)) ; end")) 0).outcome =
      .malformed .unexpectedClosing ⟨0, 5⟩ := by decide +kernel
  let d : Dissection :=
    ⟨[([], .opening), ([], .quoted [byte '\\', byte '"'] true)], Bytes.ofString " ; ("⟩
  have hbody : ∀ b ∈ [byte ' ', byte '('], isLineEnd b = false := by
    intro b hb
    rcases List.mem_pair.mp hb with rfl | rfl <;> rfl
  have hd : d.IsOf true (Bytes.ofString "(\"\\\"\" ; (") := by
    refine ⟨rfl, .nil, trivial, .nil, .escaped _ _ rfl .nil, ?_⟩
    exact .space _ _ rfl (.comment [byte ' ', byte '('] [] hbody (by simp [AtLineEnd]) .nil)
  have hclosed : ∀ e, Dissection.IsOf true (Bytes.ofString "(\"\\\"\" ; (") e →
      ∀ gap t, e.parts.getLast? ≠ some (gap, .quoted t false) := by
    intro e he gap t
    rw [(Dissection.existsUnique true _).unique he hd]
    simp [d]
  exact (continued_parse .leading true _ _ (Columns.empty 1) (by simp [ha]) (by simp [hb])
    hclosed).1

end SExpression
