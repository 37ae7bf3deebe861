/-!
# Decimal text — the exact value of a double

A finite double is `± m · 2 ^ e` for natural `m` and integer `e`, read off its 64 bits.
-/

namespace IntegerProgramming.Decimal

/-- A double taken apart. -/
inductive Unpacked where
  /-- No number. -/
  | undefined
  /-- An infinity. -/
  | infinite (negative : Bool)
  /-- The number `m · 2 ^ e`, or its negative. -/
  | finite (negative : Bool) (m : Nat) (e : Int)

/-- The bit of a significand that is not stored. -/
def leadingBit : Nat := Nat.pow 2 52

/-- The parts of the double with the given bits: a sign, eleven bits of exponent and fifty-two of
fraction. -/
def Unpacked.ofBits (bits : UInt64) : Unpacked :=
  let negative := bits >>> 63 == 1
  let biased := (bits >>> 52 &&& 0x7ff).toNat
  let fraction := (bits &&& 0xfffffffffffff).toNat
  if biased = 2047 then
    if fraction = 0 then .infinite negative else .undefined
  else if biased = 0 then .finite negative fraction (-1074)
  else .finite negative (leadingBit + fraction) (Int.ofNat biased - 1075)

/-- A positive quotient of natural numbers. -/
structure Ratio where
  num : Nat
  den : Nat

/-- `m · base ^ e` as a quotient. -/
def Ratio.scaled (m base : Nat) (e : Int) : Ratio :=
  ⟨m * Nat.pow base e.toNat, Nat.pow base (-e).toNat⟩

/-- The quotient times `10 ^ p`. -/
def Ratio.shift (r : Ratio) (p : Int) : Ratio :=
  ⟨r.num * Nat.pow 10 p.toNat, r.den * Nat.pow 10 (-p).toNat⟩

/-- The text of a value that is no finite number. -/
def special : Unpacked → String
  | .infinite false => "inf"
  | .infinite true => "-inf"
  | _ => "NaN"

/-- A minus sign for negative values. -/
def signed (negative : Bool) (text : String) : String :=
  if negative then "-" ++ text else text

/-- Zeros, `n` of them. -/
def zeros (n : Nat) : String :=
  String.ofList (List.replicate n '0')

/-- The decimal digits of `c`, with a point `places` from the right and at least one digit before
it. -/
def pointed (c places : Nat) : String :=
  if places = 0 then toString c
  else
    let fraction := toString (c % Nat.pow 10 places)
    toString (c / Nat.pow 10 places) ++ "." ++ zeros (places - fraction.length) ++ fraction

end IntegerProgramming.Decimal
