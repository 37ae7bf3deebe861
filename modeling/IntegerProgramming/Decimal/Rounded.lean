import IntegerProgramming.Decimal.Binary

/-!
# Decimal text — a given number of digits

The exact value of a double is rounded once, to a number of places after the point or to a number
of significant digits; a value halfway between two goes to the one whose last digit is even.
-/

namespace IntegerProgramming.Decimal

/-- The integer nearest to `num / den`, a half going to the even neighbour. -/
def roundDiv (num den : Nat) : Nat :=
  let q := num / den
  let rest := 2 * (num % den)
  if rest < den ∨ (rest = den ∧ q % 2 = 0) then q else q + 1

/-- A number to `places` places after the point; one that rounds to zero has no sign. -/
def fixed (places : Nat) (x : Float) : String :=
  match Unpacked.ofBits x.toBits with
  | .finite negative m e =>
    let r := (Ratio.scaled m 2 e).shift places
    let c := roundDiv r.num r.den
    signed (negative && c != 0) (pointed c places)
  | other => special other

/-- The exponent of the leading digit: the greatest `p` not above the given one with `10 ^ p ≤ r`.
-/
def leadingExponent (r : Ratio) : (fuel : Nat) → (p : Int) → Int
  | 0, p => p
  | fuel + 1, p =>
    let s := Ratio.scaled 1 10 p
    if s.num * r.den ≤ r.num * s.den then p else leadingExponent r fuel (p - 1)

/-- Significand and exponent with `places` places after the leading digit.  A significand that
rounds up to ten is one at the next exponent. -/
def scientificDigits (places : Nat) (r : Ratio) : Nat × Int :=
  let p := leadingExponent r 660 310
  let s := r.shift (Int.ofNat places - p)
  let c := roundDiv s.num s.den
  if c = Nat.pow 10 (places + 1) then (Nat.pow 10 places, p + 1) else (c, p)

/-- A number in scientific notation with `places` places after the leading digit. -/
def scientific (places : Nat) (x : Float) : String :=
  match Unpacked.ofBits x.toBits with
  | .finite negative 0 _ => signed negative (pointed 0 places ++ "e0")
  | .finite negative m e =>
    let (c, p) := scientificDigits places (.scaled m 2 e)
    signed negative (pointed c places ++ "e" ++ toString p)
  | other => special other

end IntegerProgramming.Decimal
