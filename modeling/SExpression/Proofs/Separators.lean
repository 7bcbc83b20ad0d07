import SExpression.Layout
import SExpression.Proofs.Delivery
import SExpression.Proofs.Depth

/-! # What stands between written tokens

A text of tokens has a separator before each token but the first (`Layout.write_eq`).  Which one it is
depends on the balance of the tokens before it, and that is the number of open lists less the number of
stray brackets (`balance_add_strayCount`).  So lines are broken between top-level lists as long as fewer
brackets are stray than lists are open; from then on a list may begin on a new line inside another one
(`lines_broken_by_balance`). -/
set_option autoImplicit false
namespace SExpression
open Report (depthAfter topLevelCount)

namespace Layout

def separatorsAfter (depth : Int) (previous : Token) : List Token → List Bytes
  | [] => []
  | t :: rest => separator depth previous t :: separatorsAfter (depth + t.step) t rest

/-- What is written between each two tokens. -/
def separators : List Token → List Bytes
  | [] => []
  | t :: rest => separatorsAfter t.step t rest

/-- What belongs between two tokens where stray brackets do not count. -/
def countedSeparator (opened : Nat) (previous t : Token) : Bytes :=
  if t = .opening ∧ opened = 0 then [byte '\n']
  else if previous = .opening ∨ t = .closing then []
  else [byte ' ']

/-- The opening brackets inside a list that come after at least as many stray brackets as lists are
open. -/
def innerBreaks (opened strays : Nat) : List Token → Nat
  | [] => 0
  | t :: rest =>
    (if t = .opening ∧ 0 < opened ∧ opened ≤ strays then 1 else 0) +
      innerBreaks (depthAfter opened t) (strays + strayCount opened [t]) rest

section Texts

theorem writeAfter_eq (depth : Int) (previous : Token) (ts : List Token) :
    writeAfter depth previous ts =
      (List.zipWith (fun s t => s ++ t.written) (separatorsAfter depth previous ts) ts).flatten := by
  induction ts generalizing depth previous with
  | nil => rfl
  | cons t ts ih =>
      rw [writeAfter, ih, separatorsAfter, List.zipWith_cons_cons, List.flatten_cons]

/-- A text is the tokens, each with the separator before it. -/
theorem write_eq (ts : List Token) :
    write ts = (List.zipWith (fun s t => s ++ t.written) ([] :: separators ts) ts).flatten := by
  cases ts with
  | nil => rfl
  | cons t ts =>
      rw [write, writeAfter_eq, separators, List.zipWith_cons_cons, List.flatten_cons, List.nil_append]

theorem length_separatorsAfter (depth : Int) (previous : Token) (ts : List Token) :
    (separatorsAfter depth previous ts).length = ts.length := by
  induction ts generalizing depth previous with
  | nil => rfl
  | cons t ts ih => rw [separatorsAfter, List.length_cons, ih, List.length_cons]

theorem length_separators (ts : List Token) : (separators ts).length = ts.length - 1 := by
  cases ts with
  | nil => rfl
  | cons t ts => rw [separators, length_separatorsAfter, List.length_cons, Nat.add_sub_cancel]

theorem getElem?_separatorsAfter (depth : Int) (previous : Token) (pre : List Token) (t : Token)
    (post : List Token) :
    (separatorsAfter depth previous (pre ++ t :: post))[pre.length]? =
      some (separator (depth + balance pre) (pre.getLast?.getD previous) t) := by
  induction pre generalizing depth previous with
  | nil => simp [separatorsAfter]
  | cons u pre ih =>
      rw [List.cons_append, separatorsAfter, List.length_cons, List.getElem?_cons_succ, ih,
        balance_cons, Int.add_assoc, List.getLast?_cons]
      rfl

/-- A separator depends on the tokens beside it and on the balance before it. -/
theorem getElem?_separators (pre : List Token) (p t : Token) (post : List Token) :
    (separators (pre ++ p :: t :: post))[pre.length]? =
      some (separator (balance (pre ++ [p])) p t) := by
  cases pre with
  | nil => simp [separators, separatorsAfter]
  | cons u pre =>
      have hsplit : pre ++ p :: t :: post = (pre ++ [p]) ++ t :: post := by simp
      have hafter := getElem?_separatorsAfter u.step u (pre ++ [p]) t post
      rw [List.length_append, List.length_singleton, List.getLast?_concat, ← balance_cons] at hafter
      rw [List.cons_append, separators, hsplit, List.length_cons]
      exact hafter

end Texts

section Counts

theorem step_add_strayCount (opened : Nat) (t : Token) :
    opened + t.step + strayCount opened [t] = (depthAfter opened t : Nat) := by
  cases t with
  | closing =>
      cases opened with
      | zero => rfl
      | succ n =>
          have hcloses : strayCount (n + 1) [.closing] = 0 := by simp [strayCount]
          rw [hcloses]
          simp only [Token.step, depthAfter]
          omega
  | _ => simp [Token.step, strayCount, depthAfter]

/-- The balance counts the open lists, less the stray brackets. -/
theorem balance_add_strayCount (opened : Nat) (ts : List Token) :
    opened + balance ts + strayCount opened ts = (ts.foldl depthAfter opened : Nat) := by
  induction ts generalizing opened with
  | nil => simp [strayCount]
  | cons t ts ih =>
      have hstep := step_add_strayCount opened t
      have hrest := ih (depthAfter opened t)
      have hstrays := strayCount_append opened [t] ts
      rw [List.singleton_append, List.foldl_cons, List.foldl_nil] at hstrays
      rw [List.foldl_cons, balance_cons, hstrays]
      omega

theorem separator_eq (opened strays : Nat) (previous t : Token) :
    separator (opened - strays) previous t =
      if t = .opening ∧ 0 < opened ∧ opened ≤ strays then [byte '\n']
      else countedSeparator opened previous t := by
  by_cases hopening : t = .opening
  · have hbreak : (opened : Int) - strays ≤ 0 ↔ (0 < opened ∧ opened ≤ strays) ∨ opened = 0 := by
      omega
    by_cases hinner : 0 < opened ∧ opened ≤ strays
    · simp [separator, hopening, hbreak, hinner]
    · simp [separator, countedSeparator, hopening, hbreak, hinner]
  · by_cases hclosing : t = .closing
    · simp [separator, countedSeparator, hclosing]
    · simp [separator, countedSeparator, hopening, hclosing]

theorem separator_eq_break_iff (depth : Int) (previous t : Token) :
    separator depth previous t = [byte '\n'] ↔ t = .opening ∧ depth ≤ 0 := by
  unfold separator
  split
  · rename_i h
    exact ⟨fun _ => ⟨h.2, h.1⟩, fun _ => rfl⟩
  · rename_i h
    refine ⟨?_, fun hbreak => absurd ⟨hbreak.2, hbreak.1⟩ h⟩
    intro hsame
    split at hsame <;> exact absurd hsame (by decide)

/-- Lines are broken before top-level lists, and where stray brackets hide that a list is open. -/
theorem count_separatorsAfter (opened strays : Nat) (previous : Token) (ts : List Token) :
    (separatorsAfter (opened - strays) previous ts).count [byte '\n'] =
      topLevelCount opened ts + innerBreaks opened strays ts := by
  induction ts generalizing opened strays previous with
  | nil => rfl
  | cons t ts ih =>
      have hstep := step_add_strayCount opened t
      have hdepth : (opened : Int) - strays + t.step =
          (depthAfter opened t : Nat) - (strays + strayCount opened [t] : Nat) := by omega
      have hhere : (if separator (opened - strays) previous t = [byte '\n'] then 1 else 0) =
          (if t = .opening ∧ opened = 0 then 1 else 0) +
            if t = .opening ∧ 0 < opened ∧ opened ≤ strays then 1 else 0 := by
        rw [if_congr (separator_eq_break_iff _ _ _) rfl rfl]
        by_cases hopening : t = .opening
        · simp only [hopening, true_and]
          split_ifs <;> omega
        · simp [hopening]
      rw [separatorsAfter, List.count_cons, hdepth, ih, topLevelCount, innerBreaks]
      simp only [beq_iff_eq]
      omega

/-- Nothing is hidden before the first stray bracket. -/
theorem innerBreaks_of_strayCount (opened : Nat) (ts : List Token) (h : strayCount opened ts = 0) :
    innerBreaks opened 0 ts = 0 := by
  induction ts generalizing opened with
  | nil => rfl
  | cons t ts ih =>
      obtain ⟨hhere, hrest⟩ := Nat.add_eq_zero_iff.mp h
      have hone : strayCount opened [t] = 0 := hhere
      have hnone : ¬ (t = .opening ∧ 0 < opened ∧ opened ≤ 0) := by omega
      rw [innerBreaks, if_neg hnone, hone, ih _ hrest]

/-- The first token opens a list, and no separator stands before it. -/
theorem count_separators (ts : List Token) (hfirst : ∀ t ∈ ts.head?, t = .opening) (hne : ts ≠ []) :
    (separators ts).count [byte '\n'] + 1 = topLevelCount 0 ts + innerBreaks 0 0 ts := by
  cases ts with
  | nil => exact absurd rfl hne
  | cons t ts =>
      obtain rfl : t = .opening := hfirst t rfl
      have hcount : (separators (.opening :: ts)).count [byte '\n'] =
          topLevelCount 1 ts + innerBreaks 1 0 ts := count_separatorsAfter 1 0 .opening ts
      have htop : topLevelCount 0 (.opening :: ts) = 1 + topLevelCount 1 ts := by
        simp [topLevelCount, depthAfter]
      have hinner : innerBreaks 0 0 (.opening :: ts) = innerBreaks 1 0 ts := by
        simp [innerBreaks, depthAfter, strayCount]
      omega

end Counts

end Layout

open Layout

/-- A line is broken before every list that is delivered inside no other one, except the first; nothing
stands behind an opening bracket or before a closing one, and a space between all others.  The exceptions
are lists inside at most as many others as there were stray brackets before them: these begin on a new
line, too.  So there are as many line breaks as top-level lists but one, as long as no bracket is
stray. -/
theorem lines_broken_by_balance (settings : Settings) (c : Cursor) :
    let ts := delivered settings c
    write ts = (List.zipWith (fun s t => s ++ t.written) ([] :: separators ts) ts).flatten ∧
    (separators ts).length = ts.length - 1 ∧
    (∀ pre p t post, ts = pre ++ p :: t :: post →
      let opened := (pre ++ [p]).foldl depthAfter 0
      (separators ts)[pre.length]? = some
        (if t = .opening ∧ 0 < opened ∧ opened ≤ strayCount 0 (pre ++ [p]) then [byte '\n']
        else countedSeparator opened p t)) ∧
    (ts ≠ [] → (separators ts).count [byte '\n'] + 1 = topLevelCount 0 ts + innerBreaks 0 0 ts) ∧
    (ts ≠ [] → strayCount 0 ts = 0 → (separators ts).count [byte '\n'] = topLevelCount 0 ts - 1) := by
  intro ts
  have hcount := count_separators ts (head_delivered settings c)
  refine ⟨write_eq ts, length_separators ts, ?_, hcount, ?_⟩
  · intro pre p t post hts opened
    have hbalance := balance_add_strayCount 0 (pre ++ [p])
    have hdepth : balance (pre ++ [p]) = (opened : Nat) - (strayCount 0 (pre ++ [p]) : Nat) := by
      omega
    rw [hts, getElem?_separators, hdepth, separator_eq]
  · intro hne hstrays
    have hbreaks := innerBreaks_of_strayCount 0 ts hstrays
    have hlines := hcount hne
    omega

/-- After a stray bracket a list begins on a new line inside the one around it. -/
theorem stray_bracket_breaks_list :
    let ts := delivered .lenient (.ofBuffer (Bytes.ofString "())((a))"))
    write ts = Bytes.ofString "())\n(\n(a))" ∧
    (∃ pre p t post, ts = pre ++ p :: t :: post ∧
      (separators ts)[pre.length]? ≠ some (countedSeparator ((pre ++ [p]).foldl depthAfter 0) p t)) ∧
    (separators ts).count [byte '\n'] ≠ topLevelCount 0 ts - 1 := by
  intro ts
  have hts : ts = [.opening, .closing, .closing] ++ .opening :: .opening ::
      [.atom [byte 'a'], .closing, .closing] := by decide +kernel
  refine ⟨by rw [hts]; decide +kernel, ⟨_, _, _, _, hts, ?_⟩, ?_⟩
  · rw [hts]
    decide +kernel
  · rw [hts]
    decide +kernel

end SExpression
