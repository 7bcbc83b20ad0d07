import SExpression.Chain
import SExpression.Reader

/-! # Chains that grow at a tail

A cell of a chain has a place, the number of links from the head to it.  An appender in memory holds
on to one place only, its tail.  A new cell is put behind the tail, where it replaces whatever
followed, and becomes the tail itself.  So cells survive only because none ever follows the tail.  An
appender that has lost its tail takes nothing more.

A session is one use of a chain: tokens or a parse go into a new appender, or the last cell gets
another token. -/
set_option autoImplicit false
namespace SExpression

namespace Chain

section Places

/-- The place of the last cell, found by going from link to link. -/
def lastPlace : Chain → Nat
  | last _ => 0
  | link _ next => next.lastPlace + 1

/-- A new cell behind the one at a place; the cells that followed it are gone. -/
def insertBehind (new : Token) : Nat → Chain → Chain
  | 0, c => link c.head (last new)
  | _ + 1, last t => last t
  | n + 1, link t next => link t (next.insertBehind new n)

/-- Another token in the cell at a place. -/
def setAt (new : Token) : Nat → Chain → Chain
  | 0, last _ => last new
  | 0, link _ next => link new next
  | _ + 1, last t => last t
  | n + 1, link t next => link t (next.setAt new n)

/-- The tokens of all cells, that of the head too. -/
def cells (c : Chain) : List Token := c.head :: c.tokens

end Places

structure Tail where
  chain : Chain
  place : Option Nat
  appended : Nat

namespace Tail

def ofChain (c : Chain) : Tail := ⟨c, some c.lastPlace, 0⟩

def put (a : Tail) (t : Token) : Tail :=
  match a.place with
  | some n => ⟨a.chain.insertBehind t n, some (n + 1), a.appended + 1⟩
  | none => a

instance : Sink Tail := ⟨put⟩

/-- Parses a whole text, turn after turn, onto the end of a chain. -/
def parse (settings : Settings) (text : Bytes) (c : Chain) : Chain × Except PositionedError Unit :=
  let r := Reader.read settings 0 (.ofBuffer text) (ofChain c)
  (r.1.chain, r.2.result.map fun _ => ())

end Tail

inductive Session where
  | feed (ts : List Token)
  | read (settings : Settings) (start : Int) (src : String) (i j : Nat)
  | parse (settings : Settings) (src : String)
  | overwrite (new : Token)

namespace Session

/-- The chain after a session. -/
def run (c : Chain) : Session → Chain
  | feed ts => (SExpression.feed (Tail.ofChain c) ts).chain
  | read settings start src i j =>
    (Reader.read settings start (.ofRange (Bytes.ofString src) i j) (Tail.ofChain c)).1.chain
  | parse settings src => (Tail.parse settings (Bytes.ofString src) c).1
  | overwrite new => c.setAt new c.lastPlace

/-- The tokens that a session delivers. -/
def delivered : Session → List Token
  | feed ts => ts
  | read settings _ src i j => SExpression.delivered settings (.ofRange (Bytes.ofString src) i j)
  | parse settings src => SExpression.delivered settings (.ofBuffer (Bytes.ofString src))
  | overwrite _ => []

/-- The token that a session writes over another one. -/
def overwrites? : Session → Option Token
  | overwrite new => some new
  | _ => none

/-- The token that is the last to be written over cell `i` of a chain, which has `size` cells before
the sessions; only the cell that is the last of its time can be written over. -/
def rewritten? (i : Nat) : Nat → List Session → Option Token
  | _, [] => none
  | size, s :: later =>
    (rewritten? i (size + s.delivered.length) later).or
      (if i + 1 = size then s.overwrites? else none)

end Session

end Chain

end SExpression
