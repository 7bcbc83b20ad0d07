import SExpression.Proofs.Lines

/-! # Comments and whitespace

A comment is one of C: two slashes and the rest of their line with its ending, or what stands between
`/*` and the first `*/` after it, marks included; one that nothing closes takes the rest (`IsComment`).
The marks of a block do not share a byte, so `/*/` is not closed.

A text begins with one run of whitespace and comments before something else (`exists_blank`).  The
loop that passes whitespace, then a comment, and begins anew until there is none
(`Cursor.SkipsTo`) always ends, and what it has passed is this run (`blanks_skipped_exactly`). -/
set_option autoImplicit false
namespace SExpression

section Marks

def lineMark : Bytes := [byte '/', byte '/']

def blockStart : Bytes := [byte '/', byte '*']

def blockEnd : Bytes := [byte '*', byte '/']

def BeginsComment (bs : Bytes) : Prop := lineMark <+: bs ∨ blockStart <+: bs

/-- A comment that `rest` follows. -/
inductive IsComment (rest : Bytes) : Bytes → Prop where
  | line (line : Bytes) : IsLine rest line → IsComment rest (lineMark ++ line)
  | block (body : Bytes) : ¬ blockEnd <:+: body → IsComment rest (blockStart ++ (body ++ blockEnd))
  | openBlock (body : Bytes) : ¬ blockEnd <:+: body → rest = [] → IsComment rest (blockStart ++ body)

/-- A run of whitespace and comments that `rest` follows. -/
inductive IsBlank (rest : Bytes) : Bytes → Prop where
  | nil : IsBlank rest []
  | space (b : UInt8) (blank : Bytes) :
      isWhitespace b = true → IsBlank rest blank → IsBlank rest (b :: blank)
  | comment (text blank : Bytes) :
      IsComment (blank ++ rest) text → IsBlank rest blank → IsBlank rest (text ++ blank)

/-- Neither whitespace nor a comment stands at the front. -/
def AtBlankEnd (bs : Bytes) : Prop :=
  (∀ b ∈ bs.head?, isWhitespace b = false) ∧ ¬ BeginsComment bs

end Marks

section Blocks

theorem blockLength_cons (b : UInt8) (bs : Bytes) (h : ¬ blockEnd <+: b :: bs) :
    blockLength (b :: bs) = 1 + blockLength bs := by
  cases bs with
  | nil => rfl
  | cons b' rest =>
      have hmark : ¬ (b = byte '*' ∧ b' = byte '/') := by
        rintro ⟨rfl, rfl⟩
        exact h (List.prefix_append blockEnd rest)
      rw [blockLength, if_neg hmark]

/-- The first mark that ends the block may not begin in the body. -/
theorem blockLength_body (body rest : Bytes) (h : ¬ blockEnd <:+: body)
    (hrest : blockEnd <+: rest ∨ rest = []) :
    blockLength (body ++ rest) = body.length + blockLength rest := by
  induction body with
  | nil => simp
  | cons b body ih =>
      obtain ⟨hfront, hbody⟩ := not_or.mp (mt List.infix_cons_iff.mpr h)
      have hmark : ¬ blockEnd <+: b :: (body ++ rest) := by
        cases body with
        | cons x body =>
            -- the mark would lie in the body
            intro hpre
            have hpair : blockEnd <+: [b, x] ++ (body ++ rest) := hpre
            exact hfront ((List.prefix_of_prefix_length_le hpair (List.prefix_append _ _)
              (Nat.le_refl 2)).trans (List.prefix_append [b, x] body))
        | nil =>
            rcases hrest with ⟨after, rfl⟩ | rfl
            · intro hpre
              obtain ⟨-, hsecond⟩ := List.cons_prefix_cons.mp hpre
              cases (List.cons_prefix_cons.mp hsecond).1
            · exact hfront
      rw [List.cons_append, blockLength_cons b _ hmark, ih hbody, List.length_cons]
      omega

theorem exists_block (bs : Bytes) :
    ¬ blockEnd <:+: bs ∨ ∃ body rest, bs = body ++ (blockEnd ++ rest) ∧ ¬ blockEnd <:+: body := by
  induction bs with
  | nil => exact Or.inl (by decide)
  | cons b bs ih =>
      by_cases hfront : blockEnd <+: b :: bs
      · obtain ⟨rest, hrest⟩ := hfront
        exact Or.inr ⟨[], rest, hrest.symm, by decide⟩
      rcases ih with hnone | ⟨body, rest, rfl, hbody⟩
      · exact Or.inl fun h => (List.infix_cons_iff.mp h).elim hfront hnone
      · refine Or.inr ⟨b :: body, rest, rfl, ?_⟩
        intro h
        rcases List.infix_cons_iff.mp h with hpre | hinside
        · exact hfront (hpre.trans (List.prefix_append (b :: body) (blockEnd ++ rest)))
        · exact hbody hinside

end Blocks

section Comments

theorem commentLength_line (bs : Bytes) : commentLength (lineMark ++ bs) = 2 + lineLength bs := by
  have hmark : ∀ b ∈ lineMark, isLineEnd b = false := by
    rw [lineMark, List.forall_mem_cons, List.forall_mem_singleton]
    exact ⟨rfl, rfl⟩
  have hline := lineLength_body lineMark bs hmark
  rw [lineMark, List.cons_append, List.cons_append, List.nil_append] at hline ⊢
  rw [commentLength, if_pos ⟨rfl, rfl⟩, hline]
  rfl

theorem commentLength_block (bs : Bytes) :
    commentLength (blockStart ++ bs) = 2 + blockLength bs := by
  rw [blockStart, List.cons_append, List.cons_append, List.nil_append, commentLength,
    if_neg (by decide), if_pos ⟨rfl, rfl⟩]

theorem commentLength_append (text rest : Bytes) (h : IsComment rest text) :
    commentLength (text ++ rest) = text.length := by
  cases h with
  | line line hline =>
      rw [List.append_assoc, commentLength_line, lineLength_append line rest hline,
        List.length_append]
      rfl
  | block body hbody =>
      have hend : blockLength (blockEnd ++ rest) = 2 := if_pos ⟨rfl, rfl⟩
      rw [List.append_assoc, List.append_assoc, commentLength_block,
        blockLength_body body _ hbody (Or.inl (List.prefix_append _ _)), hend, List.length_append,
        List.length_append]
      rfl
  | openBlock body hbody hrest =>
      rw [List.append_assoc, commentLength_block, blockLength_body body _ hbody (Or.inr hrest), hrest,
        List.length_append]
      rfl

theorem exists_comment (bs : Bytes) (h : BeginsComment bs) :
    ∃ text rest, bs = text ++ rest ∧ IsComment rest text := by
  rcases h with ⟨after, rfl⟩ | ⟨after, rfl⟩
  · obtain ⟨line, rest, rfl, hline⟩ := exists_line after
    exact ⟨lineMark ++ line, rest, (List.append_assoc _ _ _).symm, .line line hline⟩
  · rcases exists_block after with hnone | ⟨body, rest, rfl, hbody⟩
    · exact ⟨blockStart ++ after, [], (List.append_nil _).symm, .openBlock after hnone rfl⟩
    · exact ⟨blockStart ++ (body ++ blockEnd), rest, by simp only [List.append_assoc],
        .block body hbody⟩

theorem IsComment.begins {text rest : Bytes} (h : IsComment rest text) :
    BeginsComment (text ++ rest) := by
  cases h with
  | line line _ => exact Or.inl (by rw [List.append_assoc]; exact List.prefix_append _ _)
  | block body _ => exact Or.inr (by rw [List.append_assoc]; exact List.prefix_append _ _)
  | openBlock body _ _ => exact Or.inr (by rw [List.append_assoc]; exact List.prefix_append _ _)

theorem IsComment.length_pos {text rest : Bytes} (h : IsComment rest text) : 0 < text.length := by
  cases h <;> simp [lineMark, blockStart]

theorem BeginsComment.head {bs : Bytes} (h : BeginsComment bs) : bs.head? = some (byte '/') := by
  rcases h with ⟨after, rfl⟩ | ⟨after, rfl⟩ <;> rfl

/-- A scan for a comment makes progress exactly where one begins. -/
theorem commentLength_eq_zero_iff (bs : Bytes) : commentLength bs = 0 ↔ ¬ BeginsComment bs := by
  refine ⟨?_, ?_⟩
  · rintro hzero (⟨after, rfl⟩ | ⟨after, rfl⟩)
    · rw [commentLength_line] at hzero
      omega
    · rw [commentLength_block] at hzero
      omega
  · intro hnone
    unfold commentLength
    split
    · rename_i b b' rest
      rw [if_neg, if_neg]
      · rintro ⟨rfl, rfl⟩
        exact hnone (Or.inr (List.prefix_append blockStart rest))
      · rintro ⟨rfl, rfl⟩
        exact hnone (Or.inl (List.prefix_append lineMark rest))
    · rfl

theorem exists_blank (bs : Bytes) :
    ∃ blank rest, bs = blank ++ rest ∧ IsBlank rest blank ∧ AtBlankEnd rest := by
  induction hn : bs.length using Nat.strong_induction_on generalizing bs with
  | _ n ih =>
    by_cases hcomment : BeginsComment bs
    · obtain ⟨text, after, rfl, htext⟩ := exists_comment bs hcomment
      have hpos := htext.length_pos
      rw [List.length_append] at hn
      obtain ⟨blank, rest, rfl, hblank, hrest⟩ := ih after.length (by omega) after rfl
      exact ⟨text ++ blank, rest, (List.append_assoc _ _ _).symm, .comment text blank htext hblank,
        hrest⟩
    cases bs with
    | nil => exact ⟨[], [], rfl, .nil, by simp, hcomment⟩
    | cons b bs =>
        by_cases hspace : isWhitespace b = true
        · obtain ⟨blank, rest, rfl, hblank, hrest⟩ := ih bs.length (by simp [← hn]) bs rfl
          exact ⟨b :: blank, rest, rfl, .space b blank hspace hblank, hrest⟩
        · refine ⟨[], b :: bs, rfl, .nil, ?_, hcomment⟩
          intro x hx
          obtain rfl : b = x := by simpa using hx
          simpa using hspace

end Comments

namespace Cursor

/-- From the first cursor the loop comes to the second: it passes whitespace, then a comment, and
ends when there was no comment to pass. -/
inductive SkipsTo : Cursor → Cursor → Prop where
  | done (c : Cursor) : c.skipWhitespace.skipComment = c.skipWhitespace →
      SkipsTo c c.skipWhitespace.skipComment
  | again (c d : Cursor) : c.skipWhitespace.skipComment ≠ c.skipWhitespace →
      SkipsTo c.skipWhitespace.skipComment d → SkipsTo c d

variable {c : Cursor}

section Loop

theorem skipComment_of_isComment {text rest : Bytes} (hbytes : c.bytes = text ++ rest)
    (h : IsComment rest text) :
    c.skipComment = c.advance text.length ∧ c.start < c.skipComment.start := by
  have hskip : c.skipComment = c.advance text.length := by
    rw [skipComment, hbytes, commentLength_append text rest h]
  have hlength := c.length_bytes
  rw [hbytes, List.length_append] at hlength
  rw [hskip, c.start_advance _ (by omega)]
  exact ⟨rfl, Nat.lt_add_of_pos_right h.length_pos⟩

/-- A pass of the loop gets ahead exactly where a comment begins. -/
theorem skipComment_eq_iff : c.skipComment = c ↔ ¬ BeginsComment c.bytes := by
  refine ⟨?_, ?_⟩
  · intro hsame hcomment
    obtain ⟨text, rest, hbytes, htext⟩ := exists_comment c.bytes hcomment
    have hahead := (skipComment_of_isComment hbytes htext).2
    rw [hsame] at hahead
    exact Nat.lt_irrefl _ hahead
  · intro hnone
    rw [skipComment, (commentLength_eq_zero_iff c.bytes).mpr hnone, c.advance_zero]

theorem skipWhitespace_eq (h : ∀ b ∈ c.bytes.head?, isWhitespace b = false) :
    c.skipWhitespace = c := by
  have hnone : c.bytes.takeWhile isWhitespace = [] := by
    cases hbytes : c.bytes with
    | nil => rfl
    | cons b rest =>
        have hb : isWhitespace b = false := h b (by rw [hbytes]; rfl)
        simp [hb]
  rw [skipWhitespace, dropWhile, hnone]
  exact c.advance_zero

/-- Nothing is passed exactly where the loop stops. -/
theorem skipComments_eq (c : Cursor) :
    c.skipComments =
      if c.skipWhitespace.skipComment = c.skipWhitespace then c.skipWhitespace.skipComment
      else c.skipWhitespace.skipComment.skipComments := by
  rw [skipComments]
  by_cases hcomment : BeginsComment c.skipWhitespace.bytes
  · obtain ⟨text, rest, hbytes, htext⟩ := exists_comment _ hcomment
    have hahead := (skipComment_of_isComment hbytes htext).2
    have hmoved := mt skipComment_eq_iff.mp (not_not.mpr hcomment)
    rw [if_neg hmoved]
    exact if_pos hahead
  · have hsame := skipComment_eq_iff.mpr hcomment
    simp only [hsame, Nat.lt_irrefl, if_false, if_true]

theorem skipComments_blankEnd (h : AtBlankEnd c.bytes) : c.skipComments = c := by
  have hpast := skipComment_eq_iff.mpr h.2
  rw [skipComments_eq, skipWhitespace_eq h.1, if_pos hpast, hpast]

theorem skipComments_space {b : UInt8} {rest : Bytes} (hbytes : c.bytes = b :: rest)
    (hb : isWhitespace b = true) : c.skipComments = (c.advance 1).skipComments := by
  have hskip : c.skipWhitespace = (c.advance 1).skipWhitespace := by
    simp only [skipWhitespace, dropWhile, bytes_advance, advance_advance, hbytes,
      List.takeWhile_cons, hb, if_true, List.length_cons, List.drop_succ_cons, List.drop_zero,
      Nat.add_comm]
  rw [skipComments_eq, hskip, ← skipComments_eq]

theorem skipComments_comment {text rest : Bytes} (hbytes : c.bytes = text ++ rest)
    (h : IsComment rest text) : c.skipComments = (c.advance text.length).skipComments := by
  have hcomment : BeginsComment c.bytes := by
    rw [hbytes]
    exact h.begins
  have hblank : c.skipWhitespace = c := by
    apply skipWhitespace_eq
    intro b hb
    rw [hcomment.head] at hb
    obtain rfl : byte '/' = b := by simpa using hb
    rfl
  have hmoved := mt skipComment_eq_iff.mp (not_not.mpr hcomment)
  rw [skipComments_eq, hblank, if_neg hmoved, (skipComment_of_isComment hbytes h).1]

/-- The loop passes a run of whitespace and comments as a whole. -/
theorem skipComments_append {blank rest : Bytes} (hbytes : c.bytes = blank ++ rest)
    (hblank : IsBlank rest blank) (hrest : AtBlankEnd rest) :
    c.skipComments = c.advance blank.length := by
  induction hblank generalizing c with
  | nil =>
      rw [List.length_nil, c.advance_zero]
      exact skipComments_blankEnd (by rw [hbytes]; exact hrest)
  | space b blank hb _ ih =>
      have hnext : (c.advance 1).bytes = blank ++ rest := by
        rw [bytes_advance, hbytes]
        rfl
      rw [skipComments_space hbytes hb, ih hnext, advance_advance, List.length_cons, Nat.add_comm]
  | comment text blank htext _ ih =>
      rw [List.append_assoc] at hbytes
      have hnext : (c.advance text.length).bytes = blank ++ rest := by
        rw [bytes_advance, hbytes, List.drop_left]
      rw [skipComments_comment hbytes htext, ih hnext, advance_advance, List.length_append]

end Loop

/-- The loop ends, wherever it begins, and in one place. -/
theorem skipsTo_iff (c d : Cursor) : c.SkipsTo d ↔ d = c.skipComments := by
  refine ⟨?_, ?_⟩
  · intro h
    induction h with
    | done c hsame => rw [skipComments_eq, if_pos hsame]
    | again c d hmoved _ ih => rw [skipComments_eq, if_neg hmoved, ih]
  · rintro rfl
    induction c using skipComments.induct with
    | case1 c blank past hahead ih =>
        have hmoved : past ≠ blank := by
          intro hsame
          rw [hsame] at hahead
          exact Nat.lt_irrefl _ hahead
        rw [skipComments, if_pos hahead]
        exact .again c _ hmoved ih
    | case2 c blank past hstays =>
        have hsame : past = blank := by
          apply skipComment_eq_iff.mpr
          intro hcomment
          obtain ⟨text, rest, hbytes, htext⟩ := exists_comment _ hcomment
          exact hstays (skipComment_of_isComment hbytes htext).2
        rw [skipComments_eq, if_pos hsame]
        exact .done c hsame

end Cursor

/-- The loop that passes whitespace and comments ends in one place and nowhere else.  What it has
passed is a run of them, and what remains begins with neither; no other run at the front of the range
is followed by such a rest.  From there the loop passes nothing more. -/
theorem blanks_skipped_exactly (c : Cursor) :
    let d := c.skipComments
    (∀ e, c.SkipsTo e ↔ e = d) ∧
    d.Follows c ∧ c.bytes = c.passed d ++ d.bytes ∧
    IsBlank d.bytes (c.passed d) ∧ AtBlankEnd d.bytes ∧
    (∀ blank rest, c.bytes = blank ++ rest → IsBlank rest blank → AtBlankEnd rest →
      blank = c.passed d) ∧
    d.skipComments = d := by
  intro d
  obtain ⟨blank, rest, hbytes, hblank, hrest⟩ := exists_blank c.bytes
  have hd : ∀ blank rest, c.bytes = blank ++ rest → IsBlank rest blank → AtBlankEnd rest →
      c.passed d = blank ∧ d.bytes = rest := by
    intro blank rest hbytes hblank hrest
    rw [show d = c.advance blank.length from Cursor.skipComments_append hbytes hblank hrest]
    exact c.passed_advance blank rest hbytes
  obtain ⟨hpassed, hafter⟩ := hd blank rest hbytes hblank hrest
  have hend : AtBlankEnd d.bytes := by rwa [hafter]
  refine ⟨c.skipsTo_iff, c.follows_skipComments, ?_, ?_, hend, ?_, ?_⟩
  · rw [hpassed, hafter, hbytes]
  · rw [hpassed, hafter]
    exact hblank
  · intro blank rest hbytes hblank hrest
    exact (hd blank rest hbytes hblank hrest).1.symm
  · exact Cursor.skipComments_blankEnd hend

/-- The marks of a block do not share the asterisk. -/
example : commentLength (Bytes.ofString "/*/ */ x") = 6 := by decide

end SExpression
