import SExpression.CommandLine
import SExpression.Tally
import SExpression.Proofs.Passages
import SExpression.Proofs.Stores
import SExpression.Proofs.NestingLimit

/-! # Reports follow the parse

The loop of a report knows the tokens only, and counts the open lists by itself; it finds around each
token as many lists as the reader had open there (`Tally.depth_foldl`, `Reader.passages_eq`).  It
ends at the first passage that lies beyond the margin, and otherwise prints them all
(`Tally.foldlM_take`).  Which store holds the tokens makes no difference, and so the switch for
chains makes none to the program (`CommandLine.run_chained`). -/
set_option autoImplicit false
namespace SExpression
open Report (Tally depthAfter margin tooDeep complaint)

section Lines

/-- The line that a report prints for a token. -/
def Passage.line (x : Passage) : Bytes := Report.line (x.level, x.token)

/-- Whether a passage lies deeper than the margin is wide. -/
def Passage.IsBeyond (x : Passage) : Prop := margin < x.level

instance (x : Passage) : Decidable x.IsBeyond := inferInstanceAs (Decidable (margin < x.level))

theorem Report.indented_eq (depth : Nat) (ts : List Token) :
    indented depth ts = (Passage.ofTokens depth ts).map fun x => (x.level, x.token) := by
  induction ts generalizing depth with
  | nil => rfl
  | cons t ts ih =>
      have hlevel : indentation depth t = Passage.level ⟨t, depth, depthAfter depth t⟩ := by
        cases t <;> simp [indentation, depthAfter, Passage.level]
      rw [indented, ih, hlevel, Passage.ofTokens, List.map_cons]

theorem Report.lines_eq (ts : List Token) :
    lines ts =
      ((Passage.ofTokens 0 ts).takeWhile fun x => ¬ x.IsBeyond).flatMap Passage.line := by
  rw [lines, indented_eq, List.takeWhile_map, List.flatMap_map]
  simp only [Passage.IsBeyond, Nat.not_lt]
  rfl

theorem Report.isTooDeep_iff (ts : List Token) :
    isTooDeep ts = true ↔ ∃ x ∈ Passage.ofTokens 0 ts, x.IsBeyond := by
  simp [isTooDeep, indented_eq, Passage.IsBeyond]

theorem Report.topLevelCount_eq (depth : Nat) (ts : List Token) :
    topLevelCount depth ts =
      (Passage.ofTokens depth ts).countP fun x => x.token = .opening ∧ x.before = 0 := by
  induction ts generalizing depth with
  | nil => rfl
  | cons t ts ih =>
      rw [topLevelCount, ih, Passage.ofTokens, List.countP_cons, Nat.add_comm]
      simp only [decide_eq_true_eq]

end Lines

namespace Report.Tally

section Counts

theorem depth_count (a : Tally) (t : Token) : (a.count t).depth = depthAfter a.depth t := by
  cases t <;> rfl

theorem level_eq (a : Tally) (t : Token) :
    a.level t = Passage.level ⟨t, a.depth, depthAfter a.depth t⟩ := by
  cases t <;> rfl

theorem depth_foldl (a : Tally) (ts : List Token) :
    (ts.foldl count a).depth = ts.foldl depthAfter a.depth := by
  induction ts generalizing a with
  | nil => rfl
  | cons t ts ih => rw [List.foldl_cons, ih, depth_count, List.foldl_cons]

theorem entered_foldl (a : Tally) (ts : List Token) :
    (ts.foldl count a).entered = a.entered + ts.count .opening := by
  induction ts generalizing a with
  | nil => rfl
  | cons t ts ih =>
      rw [List.foldl_cons, ih]
      cases t <;> simp [count, Nat.add_comm, Nat.add_left_comm]

theorem topLevel_foldl (a : Tally) (ts : List Token) :
    (ts.foldl count a).topLevel = a.topLevel +
      (Passage.ofTokens a.depth ts).countP fun x => x.token = .opening ∧ x.before = 0 := by
  induction ts generalizing a with
  | nil => rfl
  | cons t ts ih =>
      rw [List.foldl_cons, ih, depth_count, Passage.ofTokens, List.countP_cons]
      cases t with
      | opening =>
          by_cases hdepth : a.depth = 0 <;> simp [count, hdepth, Nat.add_assoc, Nat.add_comm]
      | _ => simp [count]

theorem printed_foldl (a : Tally) (ts : List Token) : (ts.foldl count a).printed = a.printed := by
  induction ts generalizing a with
  | nil => rfl
  | cons t ts ih =>
      rw [List.foldl_cons, ih]
      cases t <;> rfl

/-- What was printed does not matter to the counts. -/
theorem foldl_count_printed (a : Tally) (printed : Bytes) (ts : List Token) :
    ts.foldl count { a with printed := printed } = { ts.foldl count a with printed := printed } := by
  induction ts generalizing a with
  | nil => rfl
  | cons t ts ih =>
      have hcount : count { a with printed := printed } t = { a.count t with printed := printed } := by
        cases t <;> rfl
      rw [List.foldl_cons, hcount, ih, List.foldl_cons]

end Counts

section Loop

theorem foldlM_take_silent (a : Tally) (ts : List Token) :
    ts.foldlM (take false) a = .ok (ts.foldl count a) := by
  induction ts generalizing a with
  | nil => rfl
  | cons t ts ih => exact ih (a.count t)

/-- Within the margin a turn prints the line of the token, and the loop goes on. -/
theorem foldlM_take_cons (a : Tally) (t : Token) (ts : List Token)
    (h : ¬ Passage.IsBeyond ⟨t, a.depth, depthAfter a.depth t⟩) :
    (t :: ts).foldlM (take true) a = ts.foldlM (take true) (a.printLine t) := by
  have hwithin : ¬ margin < a.level t := by rwa [level_eq]
  have htake : a.take true t = .ok (a.printLine t) := by simp [take, hwithin]
  rw [List.foldlM_cons, htake]
  rfl

theorem printed_printLine (a : Tally) (t : Token) :
    (a.printLine t).printed =
      a.printed ++ Passage.line ⟨t, a.depth, depthAfter a.depth t⟩ := by
  rw [Passage.line, ← level_eq]
  rfl

theorem depth_printLine (a : Tally) (t : Token) :
    (a.printLine t).depth = depthAfter a.depth t := a.depth_count t

theorem foldlM_take (a : Tally) (ts : List Token)
    (h : ∀ x ∈ Passage.ofTokens a.depth ts, ¬ x.IsBeyond) :
    ts.foldlM (take true) a = .ok { ts.foldl count a with
      printed := a.printed ++ (Passage.ofTokens a.depth ts).flatMap Passage.line } := by
  induction ts generalizing a with
  | nil => simp [Passage.ofTokens, pure, Except.pure]
  | cons t ts ih =>
      obtain ⟨hfirst, hrest⟩ := List.forall_mem_cons.mp h
      rw [← depth_printLine] at hrest
      rw [foldlM_take_cons a t ts hfirst, ih (a.printLine t) hrest, printed_printLine, depth_printLine,
        List.append_assoc, ← List.flatMap_cons, ← Passage.ofTokens, printLine, foldl_count_printed,
        List.foldl_cons]

/-- The loop ends at the first token beyond the margin, with the lines before it. -/
theorem foldlM_take_beyond (a : Tally) (ts : List Token) (pre : List Passage) (x : Passage)
    (post : List Passage) (hsplit : Passage.ofTokens a.depth ts = pre ++ x :: post)
    (hpre : ∀ y ∈ pre, ¬ y.IsBeyond) (hx : x.IsBeyond) :
    ts.foldlM (take true) a = .error (a.printed ++ pre.flatMap Passage.line) := by
  induction ts generalizing a pre with
  | nil => cases pre <;> cases hsplit
  | cons t ts ih =>
      cases pre with
      | nil =>
          obtain ⟨rfl, -⟩ := List.cons.inj hsplit
          have hbeyond : margin < a.level t := by rwa [level_eq]
          have htake : a.take true t = .error a.printed := by simp [take, hbeyond]
          rw [List.foldlM_cons, htake, List.flatMap_nil, List.append_nil]
          rfl
      | cons y pre =>
          obtain ⟨rfl, hrest⟩ := List.cons.inj hsplit
          obtain ⟨hfirst, hpre⟩ := List.forall_mem_cons.mp hpre
          rw [← depth_printLine] at hrest
          rw [foldlM_take_cons a t ts hfirst, ih (a.printLine t) pre hrest hpre, printed_printLine,
            List.append_assoc, List.flatMap_cons]

end Loop

end Report.Tally

section Results

/-- What is printed lies within the margin, or one passage is the first that does not. -/
theorem Passage.within_or_beyond (print : Bool) (xs : List Passage) :
    (print = true → ∀ x ∈ xs, ¬ x.IsBeyond) ∨
      print = true ∧
        ∃ pre x post, xs = pre ++ x :: post ∧ (∀ y ∈ pre, ¬ y.IsBeyond) ∧ x.IsBeyond := by
  cases print with
  | false => exact Or.inl fun h => by cases h
  | true =>
      cases hfind : xs.find? fun x => x.IsBeyond with
      | none => exact Or.inl fun _ => by simpa using hfind
      | some x =>
          obtain ⟨hx, pre, post, hsplit, hpre⟩ := List.find?_eq_some_iff_append.mp hfind
          exact Or.inr ⟨rfl, pre, x, post, hsplit, by simpa using hpre, by simpa using hx⟩

namespace Report

section Messages

theorem head?_append (s t : String) (c : Char) (h : s.toList.head? = some c) :
    (s ++ t).toList.head? = some c := by
  rw [String.toList_append, List.head?_append, h]
  rfl

theorem head?_tooDeep (path : String) : (tooDeep path).toList.head? = some 'l' :=
  head?_append "lists nested too deeply in " _ 'l' (by decide +kernel)

theorem head?_message (e : ParseError) : ∃ c, e.message.toList.head? = some c ∧ c ≠ 'l' := by
  cases e with
  | missingOpening found =>
      refine ⟨'e', ?_, by decide⟩
      exact head?_append _ _ 'e' (head?_append "expected '(', got '" _ 'e' (by decide +kernel))
  | unexpectedClosing => exact ⟨'u', by decide +kernel, by decide⟩
  | nestingTooDeep => exact ⟨'n', by decide +kernel, by decide⟩
  | unclosedList => exact ⟨'p', by decide +kernel, by decide⟩

theorem head?_complaint (path : String) (o : Outcome Position) (message : String)
    (h : complaint path o = some message) : ∃ c, message.toList.head? = some c ∧ c ≠ 'l' := by
  cases o with
  | complete => cases h
  | truncated opening =>
      cases h
      refine ⟨'p', ?_, by decide⟩
      exact head?_append _ _ 'p' (head?_append _ _ 'p'
        (head?_append "premature EOF, list opened at " _ 'p' (by decide +kernel)))
  | malformed error place =>
      cases h
      obtain ⟨c, hc, hne⟩ := head?_message error
      exact ⟨c, head?_append _ _ c (head?_append _ _ c (head?_append _ _ c hc)), hne⟩

/-- No complaint about a text reads like the one about the margin. -/
theorem complaint_ne_tooDeep (path : String) (o : Outcome Position) :
    complaint path o ≠ some (tooDeep path) := by
  intro h
  obtain ⟨c, hc, hne⟩ := head?_complaint path o _ h
  rw [head?_tooDeep] at hc
  exact hne (Option.some.inj hc).symm

theorem complaint_eq_none_iff (path : String) (o : Outcome Position) :
    complaint path o = none ↔ o = .complete := by
  cases o <;> simp [complaint]

end Messages

namespace Tally

theorem ofTokens_within (print : Bool) (ts : List Token)
    (h : print = true → ∀ x ∈ Passage.ofTokens 0 ts, ¬ x.IsBeyond) :
    ofTokens print ts = .ok { ts.foldl count start with
      printed := if print then (Passage.ofTokens 0 ts).flatMap Passage.line else [] } := by
  cases print with
  | false =>
      have hnothing : (ts.foldl count start).printed = [] := printed_foldl start ts
      rw [ofTokens, foldlM_take_silent, if_neg (by decide), ← hnothing]
  | true => exact foldlM_take start ts (h rfl)

theorem ofTokens_beyond (ts : List Token) (pre : List Passage) (x : Passage) (post : List Passage)
    (hsplit : Passage.ofTokens 0 ts = pre ++ x :: post) (hpre : ∀ y ∈ pre, ¬ y.IsBeyond)
    (hx : x.IsBeyond) : ofTokens true ts = .error (pre.flatMap Passage.line) :=
  foldlM_take_beyond start ts pre x post hsplit hpre hx

/-- The loop counts the same whether it prints or not. -/
theorem eq_of_ofTokens_eq_ok (print : Bool) (ts : List Token) (a : Tally)
    (h : ofTokens print ts = .ok a) : a = { ts.foldl count start with printed := a.printed } := by
  rcases Passage.within_or_beyond print (Passage.ofTokens 0 ts) with
    hwithin | ⟨rfl, pre, x, post, hsplit, hpre, hx⟩
  · rw [ofTokens_within print ts hwithin] at h
    cases h
    rfl
  · rw [ofTokens_beyond ts pre x post hsplit hpre hx] at h
    cases h

theorem summary_eq (a : Tally) (ts : List Token) (balance : Int)
    (hentered : a.entered = ts.count .opening)
    (htop : a.topLevel =
      (Passage.ofTokens 0 ts).countP fun x => x.token = .opening ∧ x.before = 0) :
    a.summary balance = Report.summary ts balance := by
  have hopened : (ts.filter (· = .opening)).length = ts.count .opening := by
    rw [List.count, List.countP_eq_length_filter]
    rfl
  simp only [summary, Report.summary, topLevelCount_eq, hopened, hentered, htop]

end Tally

section Parsed
variable (q : Request) (text : Bytes) {ts : List Token} {p : Parsed}
  (hparsed : parsed q.chained q.settings text = (ts, p))
include hparsed

/-- Within the margin the loop goes through all tokens. -/
theorem drawUp_within (h : q.print = true → ∀ x ∈ Passage.ofTokens 0 ts, ¬ x.IsBeyond) :
    ∃ a, Tally.ofTokens q.print ts = .ok a ∧
      a.entered = ts.count .opening ∧
      a.topLevel = (Passage.ofTokens 0 ts).countP (fun x => x.token = .opening ∧ x.before = 0) ∧
      a.printed = (if q.print then (Passage.ofTokens 0 ts).flatMap Passage.line else []) ∧
      drawUp q text =
        ⟨a.printed ++ (if q.write then Layout.writeLine ts else []) ++ a.summary p.balance,
          complaint q.path p.outcome⟩ := by
  have hloop := Tally.ofTokens_within q.print ts h
  refine ⟨_, hloop, ?_, ?_, rfl, ?_⟩
  · exact (Tally.entered_foldl .start ts).trans (Nat.zero_add _)
  · exact (Tally.topLevel_foldl .start ts).trans (Nat.zero_add _)
  · rw [drawUp, hparsed]
    simp only [hloop]

theorem drawUp_beyond (hprint : q.print = true) (pre : List Passage) (x : Passage)
    (post : List Passage) (hsplit : Passage.ofTokens 0 ts = pre ++ x :: post)
    (hpre : ∀ y ∈ pre, ¬ y.IsBeyond) (hx : x.IsBeyond) :
    drawUp q text = ⟨pre.flatMap Passage.line, some (tooDeep q.path)⟩ := by
  rw [drawUp, hparsed]
  simp only [hprint, Tally.ofTokens_beyond ts pre x post hsplit hpre hx]

theorem error_eq_tooDeep_iff :
    (drawUp q text).error = some (tooDeep q.path) ↔
      q.print = true ∧ ∃ x ∈ Passage.ofTokens 0 ts, x.IsBeyond := by
  rcases Passage.within_or_beyond q.print (Passage.ofTokens 0 ts) with
    hwithin | ⟨hprint, pre, x, post, hsplit, hpre, hx⟩
  · obtain ⟨a, _, _, _, _, hreport⟩ := drawUp_within q text hparsed hwithin
    rw [hreport]
    constructor
    · intro h
      exact absurd h (complaint_ne_tooDeep q.path p.outcome)
    · rintro ⟨hprint, x, hmem, hx⟩
      exact absurd hx (hwithin hprint x hmem)
  · rw [drawUp_beyond q text hparsed hprint pre x post hsplit hpre hx]
    have hmem : x ∈ Passage.ofTokens 0 ts := by simp [hsplit]
    exact ⟨fun _ => ⟨hprint, x, hmem, hx⟩, fun _ => rfl⟩

end Parsed

/-- The loop gives the report. -/
theorem ofText_eq_drawUp (q : Request) (text : Bytes) : ofText q text = drawUp q text := by
  obtain ⟨ts, p, hparsed⟩ : ∃ ts p, parsed q.chained q.settings text = (ts, p) := ⟨_, _, rfl⟩
  rcases Passage.within_or_beyond q.print (Passage.ofTokens 0 ts) with
    hwithin | ⟨hprint, pre, x, post, hsplit, hpre, hx⟩
  · obtain ⟨a, _, hentered, htop, hprinted, hreport⟩ := drawUp_within q text hparsed hwithin
    have hshallow : ¬ (q.print && isTooDeep ts) = true := by
      rw [Bool.and_eq_true, isTooDeep_iff]
      rintro ⟨hprint, x, hmem, hx⟩
      exact hwithin hprint x hmem hx
    have hlines : (if q.print then lines ts else []) = a.printed := by
      rw [hprinted]
      split_ifs with hprint
      · rw [lines_eq, List.takeWhile_eq_self_iff.mpr fun x hmem => by
          simpa using hwithin hprint x hmem]
      · rfl
    rw [hreport, ofText, hparsed, a.summary_eq ts p.balance hentered htop]
    simp only [if_neg hshallow, hlines]
  · have hdeep : isTooDeep ts = true := (isTooDeep_iff ts).mpr ⟨x, by simp [hsplit], hx⟩
    have hlines : lines ts = pre.flatMap Passage.line := by
      rw [lines_eq, hsplit, List.takeWhile_append_of_pos (by simpa using hpre)]
      simp [hx]
    rw [drawUp_beyond q text hparsed hprint pre x post hsplit hpre hx, ofText, hparsed]
    simp only [hprint, hdeep, hlines]
    rfl

end Report

end Results

section Switch

theorem Report.parsed_eq (chained : Bool) (settings : Settings) (text : Bytes) :
    parsed chained settings text =
      (delivered settings (.ofBuffer text), parse settings (.ofBuffer text) 0) := by
  cases chained with
  | true =>
      have htokens := Chain.Appender.tokens_feed_ofChain .empty (delivered settings (.ofBuffer text))
      exact Prod.ext htokens rfl
  | false =>
      have htokens := Columns.tokens_feed (Columns.empty 0) (delivered settings (.ofBuffer text))
        (Columns.isConsistent_empty 0)
      exact Prod.ext htokens rfl

theorem Report.ofContent_chained (q : Request) (content : Except Fault Bytes) :
    ofContent { q with chained := true } content = ofContent q content := by
  simp only [ofContent, ofText, parsed_eq]

namespace CommandLine

/-- The same arguments with the switch for chains among them. -/
def Arguments.withChain (a : Arguments) : Arguments := { a with chained := true }

theorem option?_withChain (a : Arguments) (s : String) :
    option? a.withChain s = (option? a s).map Arguments.withChain := by
  unfold option?
  split_ifs <;> simp [Arguments.withChain, Option.map_map, Function.comp_def]

theorem scan_withChain (a : Arguments) (args : List String) :
    scan a.withChain args = (scan a args).map Arguments.withChain := by
  induction a, args using scan.induct with
  | case1 a => rfl
  | case2 a rest => rfl
  | case3 a value rest hoption => simp [scan, hoption]
  | case4 a value rest hoption ih =>
      simp only [scan, hoption]
      cases limit? value with
      | none => rfl
      | some n => exact ih n
  | case5 a s rest hend hdepth hoption ih =>
      rw [scan.eq_4 _ _ _ hend hdepth, scan.eq_4 _ _ _ hend hdepth, if_pos hoption, if_pos hoption,
        option?_withChain]
      cases option? a s with
      | none => rfl
      | some a => exact ih a
  | case6 a s rest hend hdepth hoption ih =>
      rw [scan.eq_4 _ _ _ hend hdepth, scan.eq_4 _ _ _ hend hdepth, if_neg hoption, if_neg hoption]
      exact ih

theorem parse_chained (args : List String) :
    parse ("--chain" :: args) = (parse args).map fun q => { q with chained := true } := by
  have hoption : isOption "--chain" = true := by decide +kernel
  have hscan : scan .none ("--chain" :: args) = (scan .none args).map Arguments.withChain := by
    rw [scan.eq_4 _ _ _ (by simp) (by simp), if_pos hoption]
    exact scan_withChain .none args
  rw [parse, parse, hscan]
  cases scan .none args with
  | none => rfl
  | some a =>
      obtain ⟨chained, print, write, strict, maxDepth, paths⟩ := a
      match paths with
      | [] => rfl
      | [path] =>
          show (if path.isEmpty then none else some _) = (if path.isEmpty then none else some _).map _
          cases path.isEmpty <;> rfl
      | _ :: _ :: _ => rfl

theorem run_chained (d : Directory) (args : List String) :
    run d ("--chain" :: args) = run d args := by
  rw [run, run, parse_chained]
  cases parse args with
  | none => rfl
  | some q =>
      show exitOf (Report.ofContent { q with chained := true } (d.read q.path)) = _
      rw [Report.ofContent_chained]

/-- The limit that an option sets is the one that the parse keeps to. -/
theorem maxDepth_of_parse {args : List String} {q : Report.Request} (hparse : parse args = some q)
    {a : Arguments} (hscan : scan .none args = some a) :
    ∀ most ∈ a.maxDepth, q.settings.maxDepth = some most := by
  obtain ⟨chained, print, write, strict, maxDepth, paths⟩ := a
  rintro most ⟨⟩
  rw [parse, hscan] at hparse
  match paths with
  | [] => cases hparse
  | [path] =>
      dsimp only at hparse
      split at hparse
      · cases hparse
      · cases hparse
        rfl
  | _ :: _ :: _ => cases hparse

theorem code_eq_zero_iff (r : Report.Result) : (exitOf r).code = 0 ↔ r.error = none := by
  rw [exitOf]
  cases r.error <;> simp

/-- A run on a file of text is the report that the loop draws up. -/
theorem run_eq_drawUp (d : Directory) (args : List String) {q : Report.Request} {content : Bytes}
    (hparse : parse args = some q) (hread : d.read q.path = .ok content) (hutf8 : content.IsUtf8) :
    run d args = exitOf (Report.drawUp q content) := by
  have hdecoded : Document.decode content = .ok content := if_pos hutf8
  rw [run, hparse]
  simp only [hread, Report.ofContent, Except.bind, hdecoded, Report.ofText_eq_drawUp]

end CommandLine

end Switch

section Depth

/-- A passage lies within the limit that the parse kept to. -/
theorem level_le_maxDepth (settings : Settings) (c : Cursor) (hutf8 : c.buffer.IsUtf8) (start : Int)
    (x : Passage) (hx : x ∈ Reader.passages settings start c) :
    ∀ most ∈ settings.maxDepth, x.level ≤ most := by
  intro most hmost
  obtain ⟨pre, post, hsplit⟩ := List.append_of_mem hx
  have htokens := Passage.tokens_ofTokens 0 (delivered settings c)
  rw [Reader.passages_eq settings start c hutf8] at hsplit
  rw [hsplit] at htokens
  obtain ⟨hbefore, hafter⟩ := Passage.of_ofTokens_eq 0 _ pre x post hsplit
  have hprefix : pre.map (·.token) <+: delivered settings c :=
    ⟨(x :: post).map (·.token), by rw [← htokens, List.map_append]⟩
  have hlonger : pre.map (·.token) ++ [x.token] <+: delivered settings c :=
    ⟨post.map (·.token), by simp [← htokens]⟩
  have hleast := depth_delivered_le settings c _ hprefix most hmost
  have hnext := depth_delivered_le settings c _ hlonger most hmost
  rw [List.foldl_append, ← hbefore, List.foldl_cons, List.foldl_nil, ← hafter] at hnext
  rw [← hbefore] at hleast
  rw [Passage.level]
  split <;> assumption

end Depth

end SExpression
