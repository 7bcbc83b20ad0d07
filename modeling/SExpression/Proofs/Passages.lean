import SExpression.Proofs.Depth
import SExpression.Proofs.OnePass

/-! # The lists around each token

A passage is a token that a reader delivers, with the number of lists that the reader has open before
and after it.  A turn delivers one token or none, and what it does to the stack is what a report
counts for the token (`Reader.turn_cases`).  The passages of a parse can therefore be told from its
tokens (`Reader.passages_eq`). -/
set_option autoImplicit false
namespace SExpression
open Report (depthAfter)

structure Passage where
  token : Token
  before : Nat
  after : Nat
  deriving DecidableEq, Repr

namespace Passage

/-- The number of open lists around a token, its own list left out. -/
def level (x : Passage) : Nat :=
  match x.token with
  | .opening => x.before
  | .closing => x.after
  | _ => x.before

/-- Brackets counted along the tokens, from `depth` open lists on. -/
def ofTokens (depth : Nat) : List Token → List Passage
  | [] => []
  | t :: rest => ⟨t, depth, depthAfter depth t⟩ :: ofTokens (depthAfter depth t) rest

theorem tokens_ofTokens (depth : Nat) (ts : List Token) :
    (ofTokens depth ts).map (·.token) = ts := by
  induction ts generalizing depth with
  | nil => rfl
  | cons t ts ih => rw [ofTokens, List.map_cons, ih]

/-- A passage among others knows the count of the tokens before it. -/
theorem of_ofTokens_eq (depth : Nat) (ts : List Token) (pre : List Passage) (x : Passage)
    (post : List Passage) (h : ofTokens depth ts = pre ++ x :: post) :
    x.before = (pre.map (·.token)).foldl depthAfter depth ∧
      x.after = depthAfter x.before x.token := by
  induction ts generalizing depth pre with
  | nil => cases pre <;> cases h
  | cons t ts ih =>
      cases pre with
      | nil =>
          obtain ⟨rfl, -⟩ := List.cons.inj h
          exact ⟨rfl, rfl⟩
      | cons y pre =>
          obtain ⟨rfl, hrest⟩ := List.cons.inj h
          exact ih (depthAfter depth t) pre hrest

end Passage

section Turns

theorem depthAfter_bareToken (policy : NumericPolicy) (c : Cursor) (depth : Nat) :
    depthAfter depth (c.bareToken policy) = depth := by
  rw [Cursor.bareToken]
  split
  · rfl
  · exact depthAfter_ofBare policy c.bytes depth

namespace Reader
variable {σ : Type} [Sink σ] (settings : Settings) (start : Int)

/-- From one reader to another a token went into the sink, and a list was opened or closed
accordingly, or else nothing was delivered. -/
def Delivers (r r' : Reader σ) : Prop :=
  (r'.sink = r.sink ∧ r'.nesting = r.nesting) ∨
    ∃ t, r'.sink = Sink.put r.sink t ∧
      r'.nesting.opened.length = depthAfter r.nesting.opened.length t

theorem takeFront_cases (r : Reader σ) :
    (∃ r', takeFront settings start r = .more r' ∧ Delivers r r') ∨
    (∃ r', takeFront settings start r = .finished r' ∧ r'.sink = r.sink) ∨
    ∃ r' offset, takeFront settings start r = .tooDeep r' offset ∧ r'.sink = r.sink := by
  simp only [takeFront]
  split
  · exact Or.inr (Or.inl ⟨r, rfl, rfl⟩)
  split
  · exact Or.inl ⟨_, rfl, Or.inl ⟨rfl, rfl⟩⟩
  split
  · split
    · exact Or.inl ⟨_, rfl, Or.inr ⟨_, rfl, rfl⟩⟩
    · exact Or.inl ⟨_, rfl, Or.inl ⟨rfl, rfl⟩⟩
  split
  · exact Or.inl ⟨_, rfl, Or.inr ⟨.closing, rfl, List.length_tail⟩⟩
  split
  · split
    · exact Or.inr (Or.inr ⟨_, _, rfl, rfl⟩)
    · exact Or.inl ⟨_, rfl, Or.inr ⟨.opening, rfl, rfl⟩⟩
  split
  · exact Or.inl ⟨_, rfl, Or.inl ⟨rfl, rfl⟩⟩
  · have hkept := depthAfter_bareToken settings.numeric
      (r.cursor.take (r.cursor.takeUntil isBoundary).2.length) r.nesting.opened.length
    exact Or.inl ⟨_, rfl, Or.inr ⟨_, rfl, hkept.symm⟩⟩

theorem turn_cases (r : Reader σ) :
    (∃ r', turn settings start r = .more r' ∧ Delivers r r') ∨
    (∃ r', turn settings start r = .finished r' ∧ r'.sink = r.sink) ∨
    ∃ r' offset, turn settings start r = .tooDeep r' offset ∧ r'.sink = r.sink :=
  takeFront_cases settings start (r.moveTo r.cursor.skipWhitespace)

end Reader

end Turns

namespace Reader
variable (settings : Settings) (start : Int)

section Runs

/-- What happened between a reader and the one after it, if a token was put into the array. -/
def passage? (r r' : Reader (Array Token)) : Option Passage :=
  r'.sink[r.sink.size]?.map fun t => ⟨t, r.nesting.opened.length, r'.nesting.opened.length⟩

/-- The passages of a run, turn after turn. -/
def passagesFrom (r : Reader (Array Token)) : List Passage :=
  match _ : turn settings start r with
  | .more r' => (passage? r r').toList ++ passagesFrom r'
  | .finished _ => []
  | .tooDeep _ _ => []
termination_by r.cursor.length
decreasing_by exact length_turn settings start (by assumption)

/-- The passages of a parse. -/
def passages (c : Cursor) : List Passage :=
  if c.skipGap.peek? = some (byte '(') then passagesFrom settings start ⟨c.skipGap, #[], start, .start⟩
  else []

theorem passagesFrom_of_more {r r' : Reader (Array Token)} (h : turn settings start r = .more r') :
    passagesFrom settings start r = (passage? r r').toList ++ passagesFrom settings start r' := by
  rw [passagesFrom]
  split <;> simp_all

theorem passagesFrom_of_last {r : Reader (Array Token)}
    (h : ∀ r', turn settings start r ≠ .more r') : passagesFrom settings start r = [] := by
  rw [passagesFrom]
  split <;> simp_all

theorem passagesFrom_eq (r : Reader (Array Token)) (origin : Nat) :
    ∃ ts, passagesFrom settings start r = Passage.ofTokens r.nesting.opened.length ts ∧
      (run settings start origin r).1 = r.sink ++ ts := by
  induction hn : r.cursor.length using Nat.strong_induction_on generalizing r with
  | _ n ih =>
    rcases turn_cases settings start r with
      ⟨r', hturn, hdelivers⟩ | ⟨r', hturn, hsink⟩ | ⟨r', offset, hturn, hsink⟩
    · have hshort := length_turn settings start hturn
      obtain ⟨ts, hpassages, hrun⟩ := ih r'.cursor.length (by omega) r' rfl
      rw [passagesFrom_of_more settings start hturn, run_of_more hturn, hpassages, hrun]
      -- a turn that delivers nothing leaves no passage, and one that does leaves one
      rcases hdelivers with ⟨hsink, hnesting⟩ | ⟨t, hsink, hdepth⟩
      · refine ⟨ts, ?_, ?_⟩
        · simp [passage?, hsink, hnesting]
        · rw [hsink]
      · refine ⟨t :: ts, ?_, ?_⟩
        · simp [passage?, hsink, hdepth, Sink.put, Passage.ofTokens]
        · rw [hsink]
          simp [Sink.put]
    · refine ⟨[], ?_, ?_⟩
      · rw [passagesFrom_of_last settings start (by simp [hturn])]
        rfl
      · simp [run_of_finished hturn, result, hsink]
    · refine ⟨[], ?_, ?_⟩
      · rw [passagesFrom_of_last settings start (by simp [hturn])]
        rfl
      · simp [run_of_tooDeep hturn, result, hsink]

theorem passages_eq_read (c : Cursor) :
    ∃ ts, passages settings start c = Passage.ofTokens 0 ts ∧
      (read settings start c (#[] : Array Token)).1.toList = ts := by
  have hrun := passagesFrom_eq settings start ⟨c.skipGap, #[], start, .start⟩ c.start
  cases hpeek : c.skipGap.peek? with
  | none =>
      refine ⟨[], ?_, ?_⟩
      · rw [passages, if_neg (by simp [hpeek])]
        rfl
      · simp [read, hpeek, result]
  | some b =>
      by_cases hb : b = byte '('
      · obtain ⟨ts, hpassages, htokens⟩ := hrun
        refine ⟨ts, ?_, ?_⟩
        · rw [passages, if_pos (by rw [hpeek, hb]), hpassages]
          rfl
        · simp only [read, hpeek, if_pos hb, htokens]
          simp
      · refine ⟨[], ?_, ?_⟩
        · rw [passages, if_neg (by simp [hpeek, hb])]
          rfl
        · simp [read, hpeek, hb, result, moveTo]

/-- The passages are the delivered tokens, with the brackets counted. -/
theorem passages_eq (c : Cursor) (hutf8 : c.buffer.IsUtf8) :
    passages settings start c = Passage.ofTokens 0 (delivered settings c) := by
  obtain ⟨ts, hpassages, htokens⟩ := passages_eq_read settings start c
  rw [read_eq_parseInto settings start c hutf8, parseInto, feed_array] at htokens
  have hsame : ts = delivered settings c := by simpa using htokens.symm
  rw [hpassages, hsame]

end Runs

end Reader

end SExpression
