import SExpression.Parse

/-! # Data in a chain of cells

A chain is a head cell followed by any number of cells, each with a token of its own.  The head
has no meaning; it is the place to append to, and `tokens` leaves it out.  A chain only grows at its
end, through an appender, which starts after the last cell present at that time. -/
set_option autoImplicit false
namespace SExpression

inductive Chain where
  | last (token : Token)
  | link (token : Token) (next : Chain)
  deriving DecidableEq, Repr

namespace Chain

def empty : Chain := .last (.atom [])

section View

def head : Chain → Token
  | last t => t
  | link t _ => t

def tokens : Chain → List Token
  | last _ => []
  | link _ next => next.head :: next.tokens

def size : Chain → Nat
  | last _ => 1
  | link _ next => next.size + 1

/-- The chain that begins with the cell after the first `n`. -/
def drop? : Nat → Chain → Option Chain
  | 0, c => some c
  | _ + 1, last _ => none
  | n + 1, link _ next => next.drop? n

def lastToken : Chain → Token
  | last t => t
  | link _ next => next.lastToken

end View

section Change

/-- The chain of a head and the tokens after it. -/
def ofTokens (head : Token) : List Token → Chain
  | [] => last head
  | t :: ts => link head (ofTokens t ts)

/-- Cells with the given tokens after the last one. -/
def extend : Chain → List Token → Chain
  | last t, ts => ofTokens t ts
  | link t next, ts => link t (next.extend ts)

/-- Another token in the last cell. -/
def setLast (new : Token) : Chain → Chain
  | last _ => last new
  | link t next => link t (next.setLast new)

/-- The chain up to cell `n`, where the head is cell zero. -/
def cut : Nat → Chain → Chain
  | _, last t => last t
  | 0, link t _ => last t
  | n + 1, link t next => link t (next.cut n)

@[simp] theorem head_ofTokens (t : Token) (ts : List Token) : (ofTokens t ts).head = t := by
  cases ts <;> rfl

@[simp] theorem tokens_ofTokens (t : Token) (ts : List Token) : (ofTokens t ts).tokens = ts := by
  induction ts generalizing t with
  | nil => rfl
  | cons u us ih => simp [ofTokens, tokens, ih]

@[simp] theorem head_extend (c : Chain) (ts : List Token) : (c.extend ts).head = c.head := by
  cases c with
  | last t => exact head_ofTokens t ts
  | link t next => rfl

@[simp] theorem tokens_extend (c : Chain) (ts : List Token) :
    (c.extend ts).tokens = c.tokens ++ ts := by
  induction c with
  | last t => simp [extend, tokens]
  | link t next ih => simp [extend, tokens, ih]

end Change

/-- The cells added to a chain so far, latest first. -/
structure Appender where
  base : Chain
  added : List Token

namespace Appender

def ofChain (c : Chain) : Appender := ⟨c, []⟩

def put (a : Appender) (t : Token) : Appender := { a with added := t :: a.added }

instance : Sink Appender := ⟨put⟩

def appended (a : Appender) : Nat := a.added.length

def chain (a : Appender) : Chain := a.base.extend a.added.reverse

theorem added_feed (a : Appender) (ts : List Token) :
    (feed a ts).added = ts.reverse ++ a.added := by
  induction ts generalizing a with
  | nil => rfl
  | cons t ts ih => simp [ih, Sink.put, put]

end Appender

/-- Parses a whole text onto the end of a chain.  What was delivered stays there also if the text
is not complete. -/
def parse (settings : Settings) (text : Bytes) (c : Chain) :
    Chain × Except PositionedError Unit :=
  let r := parseInto settings (.ofBuffer text) 0 (Appender.ofChain c)
  (r.1.chain, r.2.result.map fun _ => ())

end Chain

end SExpression
