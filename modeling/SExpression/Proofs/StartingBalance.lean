import SExpression.Reader

/-! # The balance at the start of a parse

A reader keeps two counts: a balance that goes on from where it was told to start, and a stack of the
brackets it has opened itself.  The balance is compared with its start and with nothing else, so
that a parse that starts higher takes the same turns, each of them higher by as much
(`turn_raise`), and ends the same way (`read_raise`).

Balances are unbounded here, as everywhere in this library: a counter of a fixed width shows the
same as long as it does not overflow. -/
set_option autoImplicit false
namespace SExpression

/-- The result of a parse that began with a balance higher by `k`. -/
def Parsed.raise (k : Int) (p : Parsed) : Parsed := { p with balance := p.balance + k }

/-- The same reader with a balance higher by `k`. -/
def Reader.raise {σ : Type} (k : Int) (r : Reader σ) : Reader σ :=
  { r with balance := r.balance + k }

def Turn.raise {σ : Type} (k : Int) : Turn σ → Turn σ
  | more r => more (r.raise k)
  | finished r => finished (r.raise k)
  | tooDeep r offset => tooDeep (r.raise k) offset

namespace Reader
variable {σ : Type} [Sink σ] (settings : Settings) (start k : Int) (r : Reader σ)

section Turns

omit [Sink σ] in
theorem moveTo_raise (c : Cursor) : (r.raise k).moveTo c = (r.moveTo c).raise k := rfl

theorem deliver_raise (c : Cursor) (t : Token) :
    (r.raise k).deliver c t = (r.deliver c t).raise k := rfl

theorem openList_raise : (r.raise k).openList = r.openList.raise k := by
  simp only [openList, raise, Int.add_right_comm]

/-- Whether a bracket is stray depends on the distance from the start. -/
theorem closeList_raise : (r.raise k).closeList (start + k) = (r.closeList start).raise k := by
  have hbalance : r.balance + k - 1 = r.balance - 1 + k := by omega
  simp only [closeList, raise, hbalance, Int.add_lt_add_iff_right]

theorem takeFront_raise :
    takeFront settings (start + k) (r.raise k) = (takeFront settings start r).raise k := by
  have hcursor : (r.raise k).cursor = r.cursor := rfl
  have hnesting : (r.raise k).nesting = r.nesting := rfl
  simp only [takeFront, hcursor, hnesting, moveTo_raise, deliver_raise, openList_raise,
    closeList_raise]
  split
  · rfl
  · repeat' split
    all_goals rfl

theorem turn_raise : turn settings (start + k) (r.raise k) = (turn settings start r).raise k := by
  rw [turn, turn, ← takeFront_raise]
  rfl

end Turns

section Runs

omit [Sink σ] in
theorem outcome_raise (origin : Nat) :
    (r.raise k).outcome (start + k) origin = r.outcome start origin := by
  simp only [outcome, raise, Int.add_left_inj]

omit [Sink σ] in
theorem result_raise (o : Outcome Nat) :
    (r.raise k).result o = ((r.result o).1, (r.result o).2.raise k) := rfl

/-- The runs end together, since they take the same turns. -/
theorem run_raise (origin : Nat) :
    run settings (start + k) origin (r.raise k) =
      ((run settings start origin r).1, (run settings start origin r).2.raise k) := by
  fun_induction run settings start origin r with
  | case1 r r' hturn ih =>
      have hraised := turn_raise settings start k r
      rw [hturn] at hraised
      rw [run_of_more hraised, ih]
  | case2 r r' hturn =>
      have hraised := turn_raise settings start k r
      rw [hturn] at hraised
      rw [run_of_finished hraised, outcome_raise, result_raise]
  | case3 r r' offset hturn =>
      have hraised := turn_raise settings start k r
      rw [hturn] at hraised
      rw [run_of_tooDeep hraised, result_raise]

theorem read_raise (c : Cursor) (sink : σ) :
    read settings (start + k) c sink =
      ((read settings start c sink).1, (read settings start c sink).2.raise k) := by
  simp only [read]
  split
  · rfl
  · split
    · exact run_raise settings start k ⟨c.skipGap, sink, start, .start⟩ c.start
    · rfl

end Runs

end Reader

/-- Two parses of a range with different balances at their start put the same tokens into a sink and
end with the same rest and the same outcome, and their balances differ at the end by as much as they
did at the start. -/
theorem starting_balance_is_offset (settings : Settings) (c : Cursor) (b₁ b₂ : Int) {σ : Type}
    [Sink σ] (sink : σ) :
    let r₁ := Reader.read settings b₁ c sink
    let r₂ := Reader.read settings b₂ c sink
    r₁.1 = r₂.1 ∧ r₁.2.rest = r₂.2.rest ∧ r₁.2.outcome = r₂.2.outcome ∧
      r₁.2.balance - r₂.2.balance = b₁ - b₂ := by
  intro r₁ r₂
  have hraised : r₁ = (r₂.1, r₂.2.raise (b₁ - b₂)) := by
    have hb : b₁ = b₂ + (b₁ - b₂) := by omega
    have h := Reader.read_raise settings b₂ (b₁ - b₂) c sink
    rwa [← hb] at h
  rw [hraised]
  refine ⟨rfl, rfl, rfl, ?_⟩
  show r₂.2.balance + (b₁ - b₂) - r₂.2.balance = b₁ - b₂
  omega

end SExpression
