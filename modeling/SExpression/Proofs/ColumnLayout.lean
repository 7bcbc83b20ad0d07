import SExpression.Proofs.ColumnStore
import SExpression.Proofs.Outcomes

/-! # How columns are filled

The elements that point into one table carry the indices 0, 1, 2, … in order, and the table has
exactly as many entries; atoms and strings share such a count, brackets stay at zero, and the balance
is told by the elements (`Columns.IsAligned`).  Every token put into a store keeps this
(`isAligned_put`), so it holds whatever mixture of single tokens and parses a store was built by,
and then every element resolves to the token it was made for (`aligned_after_any_actions`). -/
set_option autoImplicit false
namespace SExpression

/-- The tables that hold the values of a store. -/
inductive Table where
  | integers
  | floats
  | texts
  deriving DecidableEq, Repr

/-- The table with the values of a kind; brackets have none. -/
def Kind.table? : Kind → Option Table
  | .atom => some .texts
  | .string => some .texts
  | .integer => some .integers
  | .float => some .floats
  | .opening => none
  | .closing => none

namespace Columns

section Alignment
variable {τ : Type} (s : Columns τ)

def entries : Table → Nat
  | .integers => s.integers.size
  | .floats => s.floats.size
  | .texts => s.texts.size

/-- The indices that point into a table, in the order of the elements. -/
def indices (table : Table) : List Nat :=
  s.elements.toList.filterMap fun e => if e.kind.table? = some table then some e.index else none

def count (kind : Kind) : Nat := s.elements.toList.countP fun e => e.kind = kind

/-- The tables are filled in the order of the elements, and the balance went on from `initial`. -/
structure IsAligned (initial : Int) : Prop where
  indices : ∀ table, s.indices table = List.range (s.entries table)
  brackets : ∀ e ∈ s.elements.toList, e.kind.table? = none → e.index = 0
  balance : s.balance = initial + s.count .opening - s.count .closing

theorem isAligned_empty (initial : Int) : (empty initial : Columns τ).IsAligned initial where
  indices table := by cases table <;> rfl
  brackets e he := by cases he
  balance := by simp [empty, count]

variable {s}

theorem IsAligned.index_lt {initial : Int} (h : s.IsAligned initial) {e : Element}
    (he : e ∈ s.elements.toList) {table : Table} (htable : e.kind.table? = some table) :
    e.index < s.entries table := by
  have hmem : e.index ∈ s.indices table :=
    List.mem_filterMap.mpr ⟨e, he, if_pos htable⟩
  rw [h.indices table] at hmem
  exact List.mem_range.mp hmem

variable [Text τ]

theorem IsAligned.token?_isSome {initial : Int} (h : s.IsAligned initial) {e : Element}
    (he : e ∈ s.elements.toList) : (s.token? e).isSome = true := by
  have hlt : ∀ table, e.kind.table? = some table → e.index < s.entries table :=
    fun _ => h.index_lt he
  obtain ⟨kind, index⟩ := e
  cases kind with
  | opening => rfl
  | closing => rfl
  | atom => simpa [token?, entries] using hlt .texts rfl
  | string => simpa [token?, entries] using hlt .texts rfl
  | integer => simpa [token?, entries] using hlt .integers rfl
  | float => simpa [token?, entries] using hlt .floats rfl

/-- No element is without a token, so none is left out. -/
theorem IsAligned.map_token? {initial : Int} (h : s.IsAligned initial) :
    s.elements.toList.map s.token? = s.tokens.map some := by
  have hresolved : ∀ e ∈ s.elements.toList, (s.token? e).map some = some (s.token? e) := by
    intro e he
    obtain ⟨t, ht⟩ := Option.isSome_iff_exists.mp (h.token?_isSome he)
    rw [ht, Option.map_some]
  rw [tokens, List.map_filterMap, List.filterMap_congr hresolved, List.filterMap_eq_map']

end Alignment

section Putting
variable (s : Columns Bytes)

/-- The index that the next element of a kind gets. -/
def nextIndex (kind : Kind) : Nat :=
  match kind.table? with
  | some table => s.entries table
  | none => 0

theorem elements_put_eq (t : Token) :
    (s.put t).elements.toList = s.elements.toList ++ [⟨t.kind, s.nextIndex t.kind⟩] := by
  cases t <;> simp [put, Token.kind, nextIndex, Kind.table?, entries]

theorem entries_put (t : Token) (table : Table) :
    (s.put t).entries table = s.entries table + if t.kind.table? = some table then 1 else 0 := by
  cases t <;> cases table <;> simp [put, Token.kind, Kind.table?, entries]

theorem indices_put (t : Token) (table : Table) :
    (s.put t).indices table =
      s.indices table ++ if t.kind.table? = some table then [s.entries table] else [] := by
  rw [indices, elements_put_eq, List.filterMap_append, ← indices]
  by_cases h : t.kind.table? = some table <;> simp [h, nextIndex]

theorem count_put (t : Token) (kind : Kind) :
    (s.put t).count kind = s.count kind + if t.kind = kind then 1 else 0 := by
  rw [count, elements_put_eq, List.countP_append, ← count]
  simp [List.countP_singleton]

theorem isAligned_put (initial : Int) (t : Token) (h : s.IsAligned initial) :
    (s.put t).IsAligned initial where
  indices table := by
    rw [indices_put, entries_put, h.indices table]
    split
    · rw [List.range_succ]
    · rw [List.append_nil, Nat.add_zero]
  brackets e he hnone := by
    rw [elements_put_eq, List.mem_append, List.mem_singleton] at he
    rcases he with he | rfl
    · exact h.brackets e he hnone
    · simp only [nextIndex, hnone]
  balance := by
    rw [balance_put, h.balance, count_put, count_put]
    cases t <;> simp [Token.step, Token.kind] <;> omega

theorem isAligned_feed (initial : Int) (ts : List Token) (h : s.IsAligned initial) :
    (feed s ts).IsAligned initial := by
  induction ts generalizing s with
  | nil => exact h
  | cons t ts ih => exact ih (s.put t) (isAligned_put s initial t h)

theorem elements_prefix_feed (ts : List Token) :
    s.elements.toList <+: (feed s ts).elements.toList := by
  induction ts generalizing s with
  | nil => exact List.prefix_refl _
  | cons t ts ih =>
      refine List.IsPrefix.trans ?_ (ih (s.put t))
      rw [elements_put_eq]
      exact List.prefix_append _ _

theorem token?_feed (ts : List Token) (e : Element) (h : (s.token? e).isSome = true) :
    (feed s ts).token? e = s.token? e := by
  induction ts generalizing s with
  | nil => rfl
  | cons t ts ih =>
      have hkept := token?_put s t e h
      have hrest := ih (s.put t) (by rw [hkept]; exact h)
      exact hrest.trans hkept

end Putting

section Acting

/-- What can be done to a store: a token is put into it, or some range of a text is parsed into it,
from its own balance or from another. -/
inductive Action where
  | put (t : Token)
  | parse (settings : Settings) (src : String) (i j : Nat)
  | parseFrom (start : Int) (settings : Settings) (src : String) (i j : Nat)

namespace Action

def range (src : String) (i j : Nat) : Cursor := .ofRange (Bytes.ofString src) i j

def delivered : Action → List Token
  | put t => [t]
  | parse settings src i j => SExpression.delivered settings (range src i j)
  | parseFrom _ settings src i j => SExpression.delivered settings (range src i j)

end Action

def act (s : Columns Bytes) : Action → Columns Bytes
  | .put t => Sink.put s t
  | .parse settings src i j => (s.parse settings (Action.range src i j)).1
  | .parseFrom start settings src i j => (parseInto settings (Action.range src i j) start s).1

/-- The same with a reader, which puts each token into the store as soon as it has passed it. -/
def actByTurns (s : Columns Bytes) : Action → Columns Bytes
  | .put t => Sink.put s t
  | .parse settings src i j => (Reader.read settings s.balance (Action.range src i j) s).1
  | .parseFrom start settings src i j => (Reader.read settings start (Action.range src i j) s).1

theorem actByTurns_eq_act (s : Columns Bytes) (a : Action) : s.actByTurns a = s.act a := by
  have hutf8 : ∀ src i j, (Action.range src i j).buffer.IsUtf8 := fun src _ _ =>
    Bytes.isUtf8_ofString src
  cases a with
  | put t => rfl
  | parse settings src i j =>
      simp only [actByTurns, act, Reader.read_eq_parseInto settings _ _ (hutf8 src i j)]
      rfl
  | parseFrom start settings src i j =>
      simp only [actByTurns, act, Reader.read_eq_parseInto settings _ _ (hutf8 src i j)]

theorem act_eq_feed (s : Columns Bytes) (a : Action) : s.act a = feed s a.delivered := by
  cases a <;> rfl

theorem foldl_act_eq_feed (s : Columns Bytes) (actions : List Action) :
    actions.foldl act s = feed s (actions.flatMap Action.delivered) := by
  induction actions generalizing s with
  | nil => rfl
  | cons a actions ih => rw [List.foldl_cons, ih, act_eq_feed, List.flatMap_cons, feed_append]

end Acting

section Packing
variable (s : Columns Bytes)

theorem entries_pack (table : Table) : s.pack.entries table = s.entries table := by
  cases table with
  | integers => rfl
  | floats => rfl
  | texts => exact Array.size_map

theorem IsAligned.pack {s : Columns Bytes} {initial : Int} (h : s.IsAligned initial) :
    s.pack.IsAligned initial where
  indices table := by
    rw [entries_pack]
    exact h.indices table
  brackets := h.brackets
  balance := h.balance

end Packing

end Columns

end SExpression
