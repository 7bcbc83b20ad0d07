import SExpression.Token

/-! # Sinks

A sink takes tokens one by one.  `feed` puts a whole sequence into it. -/
set_option autoImplicit false
namespace SExpression

class Sink (σ : Type) where
  put : σ → Token → σ

def feed {σ : Type} [Sink σ] (sink : σ) (ts : List Token) : σ := ts.foldl Sink.put sink

/-- An array collects the tokens themselves. -/
instance : Sink (Array Token) := ⟨Array.push⟩

section Feeding
variable {σ : Type} [Sink σ] (sink : σ)

@[simp] theorem feed_nil : feed sink [] = sink := rfl

@[simp] theorem feed_cons (t : Token) (ts : List Token) :
    feed sink (t :: ts) = feed (Sink.put sink t) ts := rfl

theorem feed_append (ts us : List Token) : feed sink (ts ++ us) = feed (feed sink ts) us := by
  simp [feed]

end Feeding

theorem feed_array (sink : Array Token) (ts : List Token) : feed sink ts = sink ++ ts := by
  induction ts generalizing sink with
  | nil => simp
  | cons t ts ih =>
    rw [feed_cons, ih]
    simp [Sink.put]

end SExpression
