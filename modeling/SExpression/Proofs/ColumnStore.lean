import SExpression.Columns
import Mathlib.Data.List.Basic

/-! # What a columnar store holds

The tables of a store only grow, so an element keeps its token (`Columns.token?_put`) and a store
holds the tokens that were put into it, in order (`Columns.tokens_feed`). -/
set_option autoImplicit false
namespace SExpression.Columns

/-- Every element has its value in a table. -/
def IsConsistent (s : Columns Bytes) : Prop := ∀ e ∈ s.elements.toList, (s.token? e).isSome = true

section Putting

theorem getElem?_push_of_isSome {α : Type} (xs : Array α) (x : α) (i : Nat)
    (h : xs[i]?.isSome = true) : (xs.push x)[i]? = xs[i]? := by
  have hlt : i < xs.size := by
    rw [Option.isSome_iff_exists] at h
    obtain ⟨y, hy⟩ := h
    exact (Array.getElem?_eq_some_iff.mp hy).1
  rw [Array.getElem?_push, if_neg (Nat.ne_of_lt hlt)]

theorem token?_put (s : Columns Bytes) (t : Token) (e : Element) (h : (s.token? e).isSome = true) :
    (s.put t).token? e = s.token? e := by
  obtain ⟨kind, index⟩ := e
  cases kind with
  | opening => cases t <;> rfl
  | closing => cases t <;> rfl
  | atom =>
      have hin : s.texts[index]?.isSome = true := by simpa [token?] using h
      cases t <;> simp [put, token?, getElem?_push_of_isSome _ _ _ hin]
  | string =>
      have hin : s.texts[index]?.isSome = true := by simpa [token?] using h
      cases t <;> simp [put, token?, getElem?_push_of_isSome _ _ _ hin]
  | integer =>
      have hin : s.integers[index]?.isSome = true := by simpa [token?] using h
      cases t <;> simp [put, token?, getElem?_push_of_isSome _ _ _ hin]
  | float =>
      have hin : s.floats[index]?.isSome = true := by simpa [token?] using h
      cases t <;> simp [put, token?, getElem?_push_of_isSome _ _ _ hin]

theorem elements_put (s : Columns Bytes) (t : Token) :
    ∃ e, (s.put t).elements = s.elements.push e ∧ (s.put t).token? e = some t := by
  cases t with
  | opening => exact ⟨_, rfl, rfl⟩
  | closing => exact ⟨_, rfl, rfl⟩
  | _ => exact ⟨_, rfl, by simp [put, token?, Text.bytes]⟩

theorem tokens_put (s : Columns Bytes) (t : Token) (h : s.IsConsistent) :
    (s.put t).tokens = s.tokens ++ [t] := by
  obtain ⟨e, helements, he⟩ := elements_put s t
  have hold : s.elements.toList.filterMap (s.put t).token? =
      s.elements.toList.filterMap s.token? := by
    rw [List.filterMap_eq_flatMap_toList, List.filterMap_eq_flatMap_toList]
    apply List.flatMap_congr
    intro x hx
    rw [token?_put s t x (h x hx)]
  rw [tokens, tokens, helements, Array.toList_push, List.filterMap_append, hold]
  simp [he]

theorem isConsistent_put (s : Columns Bytes) (t : Token) (h : s.IsConsistent) :
    (s.put t).IsConsistent := by
  obtain ⟨e, helements, he⟩ := elements_put s t
  intro x hx
  rw [helements, Array.toList_push] at hx
  rcases List.mem_append.mp hx with hx | hx
  · rw [token?_put s t x (h x hx)]
    exact h x hx
  · rw [List.mem_singleton.mp hx, he]
    rfl

end Putting

section Feeding

theorem isConsistent_feed (s : Columns Bytes) (ts : List Token) (h : s.IsConsistent) :
    (feed s ts).IsConsistent := by
  induction ts generalizing s with
  | nil => exact h
  | cons t ts ih => exact ih (s.put t) (isConsistent_put s t h)

theorem tokens_feed (s : Columns Bytes) (ts : List Token) (h : s.IsConsistent) :
    (feed s ts).tokens = s.tokens ++ ts := by
  induction ts generalizing s with
  | nil => simp
  | cons t ts ih =>
      rw [feed_cons]
      show (feed (s.put t) ts).tokens = s.tokens ++ t :: ts
      rw [ih (s.put t) (isConsistent_put s t h), tokens_put s t h, List.append_assoc,
        List.singleton_append]

theorem isConsistent_empty (balance : Int) : (empty balance : Columns Bytes).IsConsistent := by
  intro e he
  cases he

end Feeding

section Packing

theorem token?_pack (s : Columns Bytes) (e : Element) : s.pack.token? e = s.token? e := by
  obtain ⟨kind, index⟩ := e
  cases kind with
  | atom => simp [pack, token?, Text.bytes, Bytes.toByteArray, Function.comp_def]
  | string => simp [pack, token?, Text.bytes, Bytes.toByteArray, Function.comp_def]
  | _ => rfl

theorem tokens_pack (s : Columns Bytes) : s.pack.tokens = s.tokens := by
  have h : s.pack.token? = s.token? := funext (token?_pack s)
  rw [tokens, tokens, h]
  rfl

end Packing

end SExpression.Columns
