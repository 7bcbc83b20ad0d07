import Mathlib.Data.List.Forall2
import SExpression.Proofs.ColumnLayout

/-! # Equal columns

A store has one layout for each sequence of tokens.  Its elements are told by the kinds of the
tokens, since an index counts the tokens before it that share its table, and each table holds the
values of its tokens in order (`feed_alike_iff`).  Two stores are therefore equal column by column if
they are equal token by token, whether floats are compared by value or bit by bit
(`equal_iff_tokens`). -/
set_option autoImplicit false
namespace SExpression

section ByteArrays

theorem Bytes.toByteArray_inj (bs cs : Bytes) : bs.toByteArray = cs.toByteArray ↔ bs = cs := by
  constructor
  · intro h
    exact congrArg (fun a : ByteArray => a.data.toList) h
  · rintro rfl
    rfl

instance lawfulBEqByteArray : LawfulBEq ByteArray where
  eq_of_beq {a b} h := by
    have hdata : a.data = b.data := eq_of_beq h
    cases a
    exact congrArg ByteArray.mk hdata
  rfl {a} := BEq.rfl (a := a.data)

end ByteArrays

namespace Token

def integer? : Token → Option Int
  | integer n => some n
  | _ => none

def float? : Token → Option Binary64
  | float v => some v
  | _ => none

/-- The same token, with floats compared by a relation of their own. -/
def Alike (R : Binary64 → Binary64 → Prop) : Token → Token → Prop
  | float x, float y => R x y
  | t, u => t = u

theorem alike_eq : Alike Eq = Eq := by
  funext t u
  cases t <;> cases u <;> simp [Alike]

theorem equal_iff_alike (t u : Token) :
    t.equal u = true ↔ Alike (fun x y => x.equal y = true) t u := by
  cases t <;> cases u <;> simp [Alike, equal]

/-- Sequences are alike if they are alike in their kinds and in the values of each type. -/
theorem forall₂_alike_iff (R : Binary64 → Binary64 → Prop) (ts us : List Token) :
    List.Forall₂ (Alike R) ts us ↔
      ts.map kind = us.map kind ∧ ts.filterMap integer? = us.filterMap integer? ∧
        List.Forall₂ R (ts.filterMap float?) (us.filterMap float?) ∧
        ts.filterMap text? = us.filterMap text? := by
  induction ts generalizing us with
  | nil =>
      cases us with
      | nil => simp
      | cons u us => simp
  | cons t ts ih =>
      cases us with
      | nil => simp
      | cons u us =>
          rw [List.forall₂_cons, ih]
          cases t <;> cases u <;>
            simp [Alike, kind, integer?, float?, text?, List.filterMap_cons, and_assoc, and_left_comm]

end Token

namespace Columns

/-- The same layout and the same values, with floats compared by a relation of their own. -/
structure Alike {τ : Type} (R : Binary64 → Binary64 → Prop) (s t : Columns τ) : Prop where
  elements : s.elements = t.elements
  integers : s.integers = t.integers
  floats : List.Forall₂ R s.floats.toList t.floats.toList
  texts : s.texts = t.texts

section Filling

/-- A column to which every token adds what it has for it. -/
theorem column_feed {α : Type} (column : Columns Bytes → List α) (part : Token → Option α)
    (hput : ∀ s t, column (s.put t) = column s ++ (part t).toList) (s : Columns Bytes)
    (ts : List Token) : column (feed s ts) = column s ++ ts.filterMap part := by
  induction ts generalizing s with
  | nil => simp
  | cons t ts ih =>
      have hrest : column (feed (s.put t) ts) = column (s.put t) ++ ts.filterMap part := ih (s.put t)
      rw [hput, List.append_assoc] at hrest
      rw [feed_cons]
      refine hrest.trans ?_
      cases h : part t <;> simp [h]

section Tables
variable (b : Int) (ts : List Token)

theorem kinds_feed :
    (feed (empty b : Columns Bytes) ts).elements.toList.map Element.kind = ts.map Token.kind := by
  have h := column_feed (fun s => s.elements.toList.map Element.kind) (fun t => some t.kind)
    (fun s t => by simp [elements_put_eq]) (empty b) ts
  rwa [List.filterMap_eq_map'] at h

theorem integers_feed :
    (feed (empty b : Columns Bytes) ts).integers.toList = ts.filterMap Token.integer? :=
  column_feed (fun s => s.integers.toList) Token.integer?
    (fun s t => by cases t <;> simp [put, Token.integer?]) (empty b) ts

theorem floats_feed :
    (feed (empty b : Columns Bytes) ts).floats.toList = ts.filterMap Token.float? :=
  column_feed (fun s => s.floats.toList) Token.float?
    (fun s t => by cases t <;> simp [put, Token.float?]) (empty b) ts

theorem texts_feed :
    (feed (empty b : Columns Bytes) ts).texts.toList = ts.filterMap Token.text? :=
  column_feed (fun s => s.texts.toList) Token.text?
    (fun s t => by cases t <;> simp [put, Token.text?]) (empty b) ts

end Tables

/-- An index depends on the kinds of the tokens before it and on nothing else. -/
theorem elements_feed_congr {s u : Columns Bytes} (ts us : List Token)
    (hkinds : ts.map Token.kind = us.map Token.kind) (hentries : s.entries = u.entries)
    (helements : s.elements.toList = u.elements.toList) :
    (feed s ts).elements.toList = (feed u us).elements.toList := by
  induction ts generalizing s u us with
  | nil =>
      obtain rfl : us = [] := List.map_eq_nil_iff.mp hkinds.symm
      exact helements
  | cons t ts ih =>
      cases us with
      | nil => cases hkinds
      | cons x us =>
          obtain ⟨hkind, hrest⟩ := List.cons.inj hkinds
          refine ih (s := s.put t) (u := u.put x) us hrest ?_ ?_
          · funext table
            rw [entries_put, entries_put, hentries, hkind]
          · rw [elements_put_eq, elements_put_eq, helements, hkind, nextIndex, nextIndex, hentries]

/-- Layout and values are alike exactly where the tokens are. -/
theorem feed_alike_iff (R : Binary64 → Binary64 → Prop) (a b : Int) (ts us : List Token) :
    (feed (empty a : Columns Bytes) ts).Alike R (feed (empty b : Columns Bytes) us) ↔
      List.Forall₂ (Token.Alike R) ts us := by
  rw [Token.forall₂_alike_iff, ← kinds_feed a ts, ← kinds_feed b us, ← integers_feed a ts,
    ← integers_feed b us, ← floats_feed a ts, ← floats_feed b us, ← texts_feed a ts,
    ← texts_feed b us]
  constructor
  · rintro ⟨helements, hinteger, hfloat, htext⟩
    exact ⟨by rw [helements], by rw [hinteger], hfloat, by rw [htext]⟩
  · rintro ⟨hkind, hinteger, hfloat, htext⟩
    rw [kinds_feed, kinds_feed] at hkind
    have hentries : (empty a : Columns Bytes).entries = (empty b : Columns Bytes).entries := by
      funext table
      cases table <;> rfl
    exact ⟨Array.toList_inj.mp (elements_feed_congr ts us hkind hentries rfl),
      Array.toList_inj.mp hinteger, hfloat, Array.toList_inj.mp htext⟩

end Filling

section Comparing

theorem floats_equal_iff (xs ys : Array Binary64) :
    (xs.size == ys.size && (xs.zip ys).all fun p => p.1.equal p.2) = true ↔
      List.Forall₂ (fun x y => x.equal y = true) xs.toList ys.toList := by
  rw [List.forall₂_iff_zip, ← Array.toList_zip, Bool.and_eq_true, beq_iff_eq, ← Array.all_toList,
    List.all_eq_true]
  refine and_congr Iff.rfl ⟨fun h x y hxy => h (x, y) hxy, fun h p hp => h hp⟩

theorem alike_eq_iff (s t : Columns Bytes) :
    s.Alike Eq t ↔
      s.elements = t.elements ∧ s.integers = t.integers ∧ s.floats = t.floats ∧ s.texts = t.texts := by
  constructor
  · rintro ⟨helements, hintegers, hfloats, htexts⟩
    rw [List.forall₂_eq_eq_eq] at hfloats
    exact ⟨helements, hintegers, Array.toList_inj.mp hfloats, htexts⟩
  · rintro ⟨helements, hintegers, hfloats, htexts⟩
    refine ⟨helements, hintegers, ?_, htexts⟩
    rw [List.forall₂_eq_eq_eq, hfloats]

theorem equal_iff_alike (s t : Columns Bytes) :
    s.equal t = true ↔ s.Alike (fun x y => x.equal y = true) t ∧ s.balance = t.balance := by
  rw [equal, Bool.and_eq_true, Bool.and_eq_true, Bool.and_eq_true, Bool.and_eq_true,
    floats_equal_iff]
  simp only [beq_iff_eq]
  constructor
  · rintro ⟨⟨⟨⟨helements, hintegers⟩, hfloats⟩, htexts⟩, hbalance⟩
    exact ⟨⟨helements, hintegers, hfloats, htexts⟩, hbalance⟩
  · rintro ⟨⟨helements, hintegers, hfloats, htexts⟩, hbalance⟩
    exact ⟨⟨⟨⟨helements, hintegers⟩, hfloats⟩, htexts⟩, hbalance⟩

/-- Packing keeps the difference between texts, and leaves the rest as it is. -/
theorem equal_pack (s t : Columns Bytes) : s.pack.equal t.pack = s.equal t := by
  have htexts : (s.pack.texts == t.pack.texts) = (s.texts == t.texts) := by
    rw [Bool.eq_iff_iff, beq_iff_eq, beq_iff_eq]
    exact Array.map_inj_right fun bs cs => (Bytes.toByteArray_inj bs cs).mp
  rw [equal, equal, htexts]
  rfl

end Comparing

/-- Two stores, each built in any way and from any balance, are equal if and only if their tokens are
equal one by one and their balances agree; and packed they are equal if and only if they were before.
Token sequences that are the same, bit by bit in their floats, have the same layout, and no others
have it. -/
theorem equal_iff_tokens (b₁ b₂ : Int) (actions₁ actions₂ : List Action) :
    let s : Columns Bytes := actions₁.foldl actByTurns (empty b₁)
    let t : Columns Bytes := actions₂.foldl actByTurns (empty b₂)
    (s.equal t = true ↔
      List.Forall₂ (fun x y => x.equal y = true) s.tokens t.tokens ∧ s.balance = t.balance) ∧
    s.pack.equal t.pack = s.equal t ∧
    (s.elements = t.elements ∧ s.integers = t.integers ∧ s.floats = t.floats ∧ s.texts = t.texts ↔
      s.tokens = t.tokens) := by
  intro s t
  have hbuilt : ∀ (b : Int) (actions : List Action), ∃ ts,
      actions.foldl actByTurns (empty b) = feed (empty b : Columns Bytes) ts ∧
      (feed (empty b : Columns Bytes) ts).tokens = ts := by
    intro b actions
    have hact : actByTurns = act := by
      funext u a
      exact actByTurns_eq_act u a
    refine ⟨actions.flatMap Action.delivered, by rw [hact, foldl_act_eq_feed], ?_⟩
    exact tokens_feed _ _ (isConsistent_empty b)
  obtain ⟨ts, hs, hts⟩ := hbuilt b₁ actions₁
  obtain ⟨us, ht, hus⟩ := hbuilt b₂ actions₂
  have halike : ∀ R, s.Alike R t ↔ List.Forall₂ (Token.Alike R) s.tokens t.tokens := by
    intro R
    simp only [s, t, hs, ht, hts, hus, feed_alike_iff]
  refine ⟨?_, equal_pack s t, ?_⟩
  · simp only [equal_iff_alike, halike, Token.equal_iff_alike]
  · rw [← alike_eq_iff, halike, Token.alike_eq, List.forall₂_eq_eq_eq]

end Columns

end SExpression
