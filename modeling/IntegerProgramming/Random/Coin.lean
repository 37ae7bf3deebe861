import IntegerProgramming.Arithmetic.Basic
import IntegerProgramming.Fault
import IntegerProgramming.Random.ChaCha

/-!
# Coins — random decisions

A `Coin` shows heads with a given probability and has a state that each toss changes.  Any source of
64-bit words makes one: heads is a word below the given share of all words.  A certain head needs no
word; a probability outside the unit interval is a fault.
-/

namespace IntegerProgramming.Random

/-- A way to decide with a given probability, from a state. -/
structure Coin (α σ : Type) where
  toss : α → σ → Except Fault (Bool × σ)

/-- The coin made of a source of words. -/
def Coin.ofWords {α σ : Type} [Scalar α] (next : σ → UInt64 × σ) : Coin α σ where
  toss p s :=
    if p == 1 then .ok (true, s)
    else if 0 ≤ p ∧ p < 1 then
      let (word, s) := next s
      .ok (decide (word < Scalar.toWord (p * 18446744073709551616.0)), s)
    else .error .noProbability

/-- Words in steps: each one is the last plus the increment, modulo `2 ^ 64`. -/
structure Steps where
  current : UInt64
  increment : UInt64
  deriving DecidableEq, Repr

/-- The next word. -/
def Steps.next (s : Steps) : UInt64 × Steps :=
  (s.current, { s with current := s.current + s.increment })

end IntegerProgramming.Random
