import SExpression.Chain.Tail
import SExpression.Proofs.Stores

/-! # A chain under any history

The tail of an appender in memory is the last cell of its chain when the appender is made, and again
after every token (`Tail.IsAtEnd`), so that a new cell replaces nothing.  A session therefore adds the
tokens it delivers behind all cells there are, and another token for the last cell changes no other
cell (`Session.cells_run`).  What a chain holds after any number of sessions is what they delivered,
but for the tokens that were written over (`Session.getElem?_cells_foldl`). -/
set_option autoImplicit false
namespace SExpression

namespace Chain

section Places

theorem insertBehind_lastPlace (c : Chain) (t : Token) :
    c.insertBehind t c.lastPlace = c.extend [t] := by
  induction c with
  | last u => rfl
  | link u next ih => rw [lastPlace, insertBehind, ih, extend]

theorem setAt_lastPlace (c : Chain) (t : Token) : c.setAt t c.lastPlace = c.setLast t := by
  induction c with
  | last u => rfl
  | link u next ih => rw [lastPlace, setAt, ih, setLast]

theorem lastPlace_ofTokens (t : Token) (ts : List Token) : (ofTokens t ts).lastPlace = ts.length := by
  induction ts generalizing t with
  | nil => rfl
  | cons u ts ih => rw [ofTokens, lastPlace, ih, List.length_cons]

theorem lastPlace_extend (c : Chain) (ts : List Token) :
    (c.extend ts).lastPlace = c.lastPlace + ts.length := by
  induction c with
  | last t => rw [extend, lastPlace_ofTokens, lastPlace, Nat.zero_add]
  | link t next ih => rw [extend, lastPlace, ih, lastPlace, Nat.add_right_comm]

theorem length_cells (c : Chain) : c.cells.length = c.size := by
  induction c with
  | last t => rfl
  | link t next ih => exact congrArg (· + 1) ih

theorem cells_extend (c : Chain) (ts : List Token) : (c.extend ts).cells = c.cells ++ ts := by
  rw [cells, head_extend, tokens_extend, cells, List.cons_append]

theorem cells_setLast (c : Chain) (t : Token) : (c.setLast t).cells = c.cells.dropLast ++ [t] := by
  induction c with
  | last u => rfl
  | link u next ih =>
      show u :: (next.setLast t).cells = (u :: next.cells).dropLast ++ [t]
      have hne : next.cells ≠ [] := by simp [cells]
      rw [ih, List.dropLast_cons_of_ne_nil hne, List.cons_append]

end Places

namespace Tail

/-- Nothing follows the tail. -/
def IsAtEnd (a : Tail) : Prop := a.place = some a.chain.lastPlace

/-- The appender has hung these tokens behind the cells of a chain and changed none of those; it
counts as many as there are new cells. -/
structure HasAdded (a : Tail) (c : Chain) (ts : List Token) : Prop where
  cells : a.chain.cells = c.cells ++ ts
  count : a.appended = ts.length
  size : a.chain.size = c.size + a.appended
  atEnd : a.IsAtEnd

theorem put_of_isAtEnd (a : Tail) (t : Token) (h : a.IsAtEnd) :
    (a.put t).chain = a.chain.extend [t] ∧ (a.put t).IsAtEnd ∧ (a.put t).appended = a.appended + 1 := by
  have hput : a.put t = ⟨a.chain.extend [t], some (a.chain.lastPlace + 1), a.appended + 1⟩ := by
    rw [put, h, ← insertBehind_lastPlace]
  rw [hput]
  exact ⟨rfl, congrArg some (a.chain.lastPlace_extend [t]).symm, rfl⟩

theorem feed_of_isAtEnd (a : Tail) (ts : List Token) (h : a.IsAtEnd) :
    (feed a ts).chain = a.chain.extend ts ∧ (feed a ts).IsAtEnd ∧
      (feed a ts).appended = a.appended + ts.length := by
  induction ts generalizing a with
  | nil => exact ⟨a.chain.extend_nil.symm, h, rfl⟩
  | cons t ts ih =>
      obtain ⟨hchain, hend, hcount⟩ := a.put_of_isAtEnd t h
      obtain ⟨hchains, hends, hcounts⟩ := ih (a.put t) hend
      rw [hchain, extend_append, List.singleton_append] at hchains
      refine ⟨hchains, hends, hcounts.trans ?_⟩
      rw [hcount, List.length_cons, Nat.add_assoc, Nat.add_comm 1]

variable (c : Chain)

theorem chain_feed_ofChain (ts : List Token) : (feed (ofChain c) ts).chain = c.extend ts :=
  ((ofChain c).feed_of_isAtEnd ts rfl).1

theorem hasAdded_feed (ts : List Token) : (feed (ofChain c) ts).HasAdded c ts := by
  obtain ⟨hchain, hend, hcount⟩ := (ofChain c).feed_of_isAtEnd ts rfl
  have hcells : (feed (ofChain c) ts).chain.cells = c.cells ++ ts := by
    rw [hchain]
    exact c.cells_extend ts
  have hadded : (feed (ofChain c) ts).appended = ts.length := hcount.trans (Nat.zero_add _)
  refine ⟨hcells, hadded, ?_, hend⟩
  rw [← length_cells, hcells, List.length_append, length_cells, hadded]

/-- The appender that keeps the new cells apart ends with the same chain and the same count. -/
theorem eq_appender (ts : List Token) :
    (feed (ofChain c) ts).chain = (feed (Appender.ofChain c) ts).chain ∧
      (feed (ofChain c) ts).appended = (feed (Appender.ofChain c) ts).appended := by
  have hfresh : (Appender.ofChain c).chain = c := c.extend_nil
  rw [chain_feed_ofChain, Appender.chain_feed, hfresh, Appender.appended_feed,
    (hasAdded_feed c ts).count]
  exact ⟨rfl, (Nat.zero_add _).symm⟩

section Parsing
variable (settings : Settings) (src : String)

theorem parse_eq :
    parse settings (Bytes.ofString src) c = Chain.parse settings (Bytes.ofString src) c := by
  have hutf8 : (Cursor.ofBuffer (Bytes.ofString src)).buffer.IsUtf8 := Bytes.isUtf8_ofString src
  rw [parse, Reader.read_eq_parseInto settings 0 _ hutf8, Chain.parse_eq, ← (eq_appender c _).1]
  rfl

theorem hasAdded_read (start : Int) (range : Cursor) (hutf8 : range.buffer.IsUtf8) :
    (Reader.read settings start range (ofChain c)).1.HasAdded c (delivered settings range) := by
  rw [Reader.read_eq_parseInto settings start range hutf8]
  exact hasAdded_feed c _

theorem read_array (start : Int) (range : Cursor) (hutf8 : range.buffer.IsUtf8) :
    (Reader.read settings start range (#[] : Array Token)).1.toList = delivered settings range := by
  rw [Reader.read_eq_parseInto settings start range hutf8, parseInto, feed_array]
  simp

theorem result_read (start : Int) (range : Cursor) (hutf8 : range.buffer.IsUtf8) :
    (Reader.read settings start range (ofChain c)).2 =
      (Reader.read settings start range (#[] : Array Token)).2 := by
  rw [Reader.read_eq_parseInto settings start range hutf8,
    Reader.read_eq_parseInto settings start range hutf8]
  rfl

end Parsing

end Tail

namespace Session

theorem cells_run (c : Chain) (s : Session) :
    (s.run c).cells =
      match s.overwrites? with
      | some new => c.cells.dropLast ++ [new]
      | none => c.cells ++ s.delivered := by
  cases s with
  | feed ts => exact (Tail.hasAdded_feed c ts).cells
  | read settings start src i j =>
      exact (Tail.hasAdded_read c settings start _ (Bytes.isUtf8_ofString src)).cells
  | parse settings src =>
      exact (Tail.hasAdded_read c settings 0 _ (Bytes.isUtf8_ofString src)).cells
  | overwrite new =>
      rw [run, setAt_lastPlace]
      exact c.cells_setLast new

theorem delivered_of_overwrites {s : Session} {new : Token} (h : s.overwrites? = some new) :
    s.delivered = [] := by
  cases s with
  | overwrite new => rfl
  | feed | read | parse => cases h

theorem size_run (c : Chain) (s : Session) : (s.run c).size = c.size + s.delivered.length := by
  have hpos : 0 < c.cells.length := Nat.succ_pos _
  rw [← length_cells, ← length_cells, cells_run]
  cases h : s.overwrites? with
  | none => exact List.length_append
  | some new =>
      rw [delivered_of_overwrites h, List.length_append, List.length_dropLast, List.length_singleton,
        List.length_nil]
      omega

/-- A session leaves every cell there was as it was, but for the one it writes over. -/
theorem getElem?_cells_run (c : Chain) (s : Session) (rest : List Token) (i : Nat) :
    ((s.run c).cells ++ rest)[i]? =
      (c.cells ++ (s.delivered ++ rest))[i]?.map fun t =>
        (if i + 1 = c.size then s.overwrites? else none).getD t := by
  rw [cells_run, ← length_cells]
  cases h : s.overwrites? with
  | none => simp
  | some new =>
      obtain ⟨front, old, hcells⟩ : ∃ front old, c.cells = front ++ [old] :=
        ⟨_, _, (List.dropLast_concat_getLast (List.cons_ne_nil _ _)).symm⟩
      rw [delivered_of_overwrites h, hcells, List.dropLast_concat, List.length_append]
      rcases Nat.lt_trichotomy i front.length with hi | rfl | hi
      · simp [List.getElem?_append_left, hi, Nat.ne_of_lt hi]
      · simp
      · obtain ⟨k, rfl⟩ := Nat.exists_eq_add_of_lt hi
        have hbehind : front.length + k + 1 - front.length = k + 1 := by omega
        simp [List.getElem?_append_right, Nat.le_of_lt hi, Nat.ne_of_gt hi, hbehind]

theorem rewritten?_eq_none (i size : Nat) (sessions : List Session)
    (h : ∀ s ∈ sessions, s.overwrites? = none) : rewritten? i size sessions = none := by
  induction sessions generalizing size with
  | nil => rfl
  | cons s sessions ih =>
      rw [rewritten?, ih _ fun s hs => h s (List.mem_cons_of_mem _ hs), h s List.mem_cons_self]
      simp

/-- Cell by cell, a chain holds what it held at first and what the sessions delivered, or else what
was the last to be written over it. -/
theorem getElem?_cells_foldl (c : Chain) (sessions : List Session) (i : Nat) :
    (sessions.foldl run c).cells[i]? =
      (c.cells ++ sessions.flatMap delivered)[i]?.map fun t =>
        (rewritten? i c.size sessions).getD t := by
  induction sessions generalizing c with
  | nil => simp [rewritten?]
  | cons s sessions ih =>
      rw [List.foldl_cons, ih, getElem?_cells_run, size_run, rewritten?, List.flatMap_cons,
        Option.map_map]
      congr 1
      funext t
      simp only [Function.comp_apply]
      cases rewritten? i (c.size + s.delivered.length) sessions <;> rfl

end Session

/-- Whatever was done to a chain in earlier sessions, an appender that starts then hangs its tokens
behind all cells, in order, and changes none of them, whether it is fed or a parse drives it; the
tokens of a parse are those that it puts into an array, also where it fails.  Another token for the
last cell changes that cell alone.  So the chain holds, cell by cell, what it held at first and what
the sessions delivered, but for the tokens that were written over. -/
theorem grows_at_its_end (head : Chain) (sessions : List Session) :
    let c := sessions.foldl Session.run head
    (∀ i, c.cells[i]? =
      (head.cells ++ sessions.flatMap Session.delivered)[i]?.map fun t =>
        (Session.rewritten? i head.size sessions).getD t) ∧
    ((∀ s ∈ sessions, s.overwrites? = none) →
      c.head = head.head ∧ c.tokens = head.tokens ++ sessions.flatMap Session.delivered) ∧
    (∀ ts : List Token,
      let a := feed (Tail.ofChain c) ts
      a.HasAdded c ts ∧ a.chain = (feed (Appender.ofChain c) ts).chain ∧
        a.appended = (feed (Appender.ofChain c) ts).appended) ∧
    (∀ (settings : Settings) (start : Int) (src : String) (i j : Nat),
      let range := Cursor.ofRange (Bytes.ofString src) i j
      let r := Reader.read settings start range (Tail.ofChain c)
      let v := Reader.read settings start range (#[] : Array Token)
      r.1.HasAdded c v.1.toList ∧ r.2 = v.2) ∧
    (∀ (settings : Settings) (src : String),
      let r := Tail.parse settings (Bytes.ofString src) c
      let v := Reader.read settings 0 (.ofBuffer (Bytes.ofString src)) (#[] : Array Token)
      r.1.cells = c.cells ++ v.1.toList ∧ r.2 = v.2.result.map (fun _ => ()) ∧
        r = parse settings (Bytes.ofString src) c) ∧
    ∀ new : Token,
      let d := c.setAt new c.lastPlace
      d.cells = c.cells.dropLast ++ [new] ∧ d = c.setLast new := by
  intro c
  refine ⟨Session.getElem?_cells_foldl head sessions, ?_, ?_, ?_, ?_, ?_⟩
  · intro hkept
    have hcells : c.cells = head.cells ++ sessions.flatMap Session.delivered := by
      apply List.ext_getElem?
      intro i
      rw [Session.getElem?_cells_foldl, Session.rewritten?_eq_none i _ sessions hkept]
      simp
    exact List.cons.inj hcells
  · intro ts
    exact ⟨Tail.hasAdded_feed c ts, Tail.eq_appender c ts⟩
  · intro settings start src i j range r v
    have hutf8 : range.buffer.IsUtf8 := Bytes.isUtf8_ofString src
    refine ⟨?_, Tail.result_read c settings start range hutf8⟩
    rw [Tail.read_array settings start range hutf8]
    exact Tail.hasAdded_read c settings start range hutf8
  · intro settings src r v
    have hutf8 : (Cursor.ofBuffer (Bytes.ofString src)).buffer.IsUtf8 := Bytes.isUtf8_ofString src
    refine ⟨?_, ?_, Tail.parse_eq c settings src⟩
    · rw [Tail.read_array settings 0 _ hutf8]
      exact (Tail.hasAdded_read c settings 0 _ hutf8).cells
    · exact congrArg (fun p => p.result.map fun _ => ()) (Tail.result_read c settings 0 _ hutf8)
  · intro new d
    have hlast : d = c.setLast new := c.setAt_lastPlace new
    exact ⟨by rw [hlast, cells_setLast], hlast⟩

end Chain

end SExpression
