import IntegerProgramming.Arithmetic.Basic

/-!
# Arithmetic — exact numbers

`Rat` is an instance of `Arith`, and `ExtRat` — the rationals with two infinities and an undefined
value — an instance of `Scalar`.  Nothing is rounded: on numbers the operations of `ExtRat` are
those of `Rat`, and an operation with no meaningful result (`∞ - ∞`, `0 · ∞`, `0 / 0`) is undefined.

* `ExtRat.num_add`, `ExtRat.num_sub`, `ExtRat.num_mul`, `ExtRat.num_neg`, `ExtRat.num_lt`, …:
  the embedding `ExtRat.num` respects every operation, division by zero excepted.
-/

namespace IntegerProgramming

instance : Arith Rat where
  zero := Rat.ofInt 0
  one := Rat.ofInt 1
  add := Rat.add
  sub := Rat.sub
  mul := Rat.mul
  div := Rat.div
  neg := Rat.neg
  lt := (· < ·)
  le := (· ≤ ·)
  beq a b := decide (a = b)
  ofScientific := Rat.ofScientific
  decLt := Rat.instDecidableLt
  decLe := Rat.instDecidableLe

/-- A rational number, an infinity, or no number at all. -/
inductive ExtRat where
  | negInf
  | num (q : Rat)
  | posInf
  | undef
  deriving DecidableEq, Repr, Inhabited

namespace ExtRat

/-- Sum; `∞ - ∞` is undefined. -/
def add : ExtRat → ExtRat → ExtRat
  | undef, _ | _, undef => undef
  | num p, num q => num (Rat.add p q)
  | posInf, negInf | negInf, posInf => undef
  | posInf, _ | _, posInf => posInf
  | _, _ => negInf

/-- Negation. -/
def neg : ExtRat → ExtRat
  | undef => undef
  | num q => num (Rat.neg q)
  | posInf => negInf
  | negInf => posInf

/-- Difference. -/
def sub (a b : ExtRat) : ExtRat := add a (neg b)

/-- An infinity with the sign of `q`, undefined at zero. -/
def infinityLike (q : Rat) : ExtRat :=
  if q.num = 0 then undef else if q.num < 0 then negInf else posInf

/-- Product; `0 · ∞` is undefined. -/
def mul : ExtRat → ExtRat → ExtRat
  | undef, _ | _, undef => undef
  | num p, num q => num (Rat.mul p q)
  | num q, posInf | posInf, num q => infinityLike q
  | num q, negInf | negInf, num q => infinityLike (Rat.neg q)
  | posInf, posInf | negInf, negInf => posInf
  | posInf, negInf | negInf, posInf => negInf

/-- Quotient; a number over zero is the infinity of its sign, and `0 / 0` is undefined. -/
def div : ExtRat → ExtRat → ExtRat
  | undef, _ | _, undef => undef
  | num p, num q => if q.num = 0 then infinityLike p else num (Rat.div p q)
  | num _, _ => num (Rat.ofInt 0)
  | posInf, num q => if q.num < 0 then negInf else posInf
  | negInf, num q => if q.num < 0 then posInf else negInf
  | _, _ => undef

/-- Strict order; the undefined value is below nothing and above nothing. -/
def lt : ExtRat → ExtRat → Bool
  | undef, _ | _, undef => false
  | num p, num q => decide (p < q)
  | posInf, _ | _, negInf => false
  | negInf, _ | _, posInf => true

/-- Equality of values; the undefined value equals nothing. -/
def same : ExtRat → ExtRat → Bool
  | num p, num q => decide (p = q)
  | posInf, posInf | negInf, negInf => true
  | _, _ => false

/-- Weak order. -/
def le (a b : ExtRat) : Bool := lt a b || same a b

/-- Apply an operation on rationals to a number, and leave the rest as it is. -/
def onNumber (f : Rat → Rat) : ExtRat → ExtRat
  | num q => num (f q)
  | a => a

/-- The nearest integer, a half going away from zero. -/
def nearest (q : Rat) : Int :=
  if q.num < 0 then -(Rat.add (Rat.neg q) (mkRat 1 2)).floor else (Rat.add q (mkRat 1 2)).floor

/-- The integer part as a word, kept within the range of words. -/
def word : ExtRat → UInt64
  | num q => UInt64.ofNat (min q.floor.toNat 0xffffffffffffffff)
  | posInf => 0xffffffffffffffff
  | _ => 0

instance : Scalar ExtRat where
  zero := num (Rat.ofInt 0)
  one := num (Rat.ofInt 1)
  add := add
  sub := sub
  mul := mul
  div := div
  neg := neg
  lt a b := lt a b = true
  le a b := le a b = true
  beq := same
  ofScientific m s e := num (Rat.ofScientific m s e)
  decLt a b := inferInstanceAs (Decidable (lt a b = true))
  decLe a b := inferInstanceAs (Decidable (le a b = true))
  infinity := posInf
  undefined := undef
  floor := onNumber fun q => Rat.ofInt q.floor
  ceil := onNumber fun q => Rat.ofInt q.ceil
  round := onNumber fun q => Rat.ofInt (nearest q)
  toWord := word

/-! ### The numbers among the extended rationals -/

theorem num_add (p q : Rat) : num p + num q = num (p + q) := rfl

theorem num_neg (q : Rat) : -num q = num (-q) := rfl

theorem num_sub (p q : Rat) : num p - num q = num (p - q) :=
  congrArg num (Rat.sub_eq_add_neg p q).symm

theorem num_mul (p q : Rat) : num p * num q = num (p * q) := rfl

theorem num_lt {p q : Rat} : num p < num q ↔ p < q := by
  change lt (num p) (num q) = true ↔ p < q
  simp [lt]

theorem num_beq (p q : Rat) : (num p == num q) = decide (p = q) := rfl

theorem num_le {p q : Rat} : num p ≤ num q ↔ p ≤ q := by
  change le (num p) (num q) = true ↔ p ≤ q
  simp [le, lt, same, Rat.le_iff_lt_or_eq]

theorem num_div {p q : Rat} (hq : q ≠ 0) : num p / num q = num (p / q) := by
  change div (num p) (num q) = num (p / q)
  have : q.num ≠ 0 := fun h => hq (Rat.num_eq_zero.mp h)
  simp only [div, if_neg this]
  rfl

theorem isFinite_iff {a : ExtRat} : isFinite a = true ↔ ∃ q, a = num q := by
  cases a with
  | num q =>
    have h : -(infinity : ExtRat) < num q ∧ num q < (infinity : ExtRat) := ⟨rfl, rfl⟩
    simp [isFinite, h]
  | negInf => simp [isFinite]; decide
  | posInf => simp [isFinite]; decide
  | undef => simp [isFinite]; decide

end ExtRat

end IntegerProgramming
