import IntegerProgramming.Decimal.Binary

/-!
# Decimal text — the fewest digits that read back

The shortest text of a double is found on decimal grids.  The numbers that round to the double
form an interval, whose ends belong to it when the significand is even.  The coarsest grid
`{c · 10 ^ p}` with a point in that interval gives the fewest digits, and of its points in the
interval the one nearest to the double is written, the one farther from zero if the double lies
halfway between two — in positional notation, whatever its size.

If a grid has a point in the interval, one of the two points around the double itself lies in it;
so only these two are tried.
-/

namespace IntegerProgramming.Decimal

/-- The numbers that round to a double, as multiples of one unit, with the double among them. -/
structure Interval where
  low : Nat
  value : Nat
  high : Nat
  /-- How many units make one. -/
  unit : Nat
  /-- Whether the ends belong to it. -/
  closed : Bool

/-- The numbers that round to `m · 2 ^ e`.  Below the least significand the neighbour is half as
far as above. -/
def Interval.around (m : Nat) (e : Int) : Interval :=
  let scale := Nat.pow 2 e.toNat
  let below := if m = leadingBit ∧ -1074 < e then 1 else 2
  { low := (4 * m - below) * scale
    value := 4 * m * scale
    high := (4 * m + 2) * scale
    unit := 4 * Nat.pow 2 (-e).toNat
    closed := m % 2 == 0 }

/-- Whether `a` over `da` lies in the interval. -/
def Interval.contains (I : Interval) (a : Ratio) : Bool :=
  let x := a.num * I.unit
  if I.closed then decide (I.low * a.den ≤ x) && decide (x ≤ I.high * a.den)
  else decide (I.low * a.den < x) && decide (x < I.high * a.den)

/-- The point of the grid `{c · 10 ^ p}` in the interval that is nearest to its value; of two
equally near the greater. -/
def Interval.gridPoint? (I : Interval) (p : Int) : Option Nat :=
  let v := Ratio.shift ⟨I.value, I.unit⟩ (-p)
  let c := v.num / v.den
  let below := I.contains (.scaled c 10 p)
  let above := I.contains (.scaled (c + 1) 10 p)
  if below && above then
    if 2 * v.num < (2 * c + 1) * v.den then some c else some (c + 1)
  else if below then some c
  else if above then some (c + 1)
  else none

/-- The first grid with a point in the interval, going from `p` to finer ones. -/
def Interval.coarsest (I : Interval) : (fuel : Nat) → (p : Int) → Nat × Int
  | 0, p => (0, p)
  | fuel + 1, p =>
    match I.gridPoint? p with
    | some c => (c, p)
    | none => I.coarsest fuel (p - 1)

/-- The shortest decimal `c · 10 ^ p` that rounds to `m · 2 ^ e`.  No double needs a power of ten
outside `-343 … 309`. -/
def shortestDigits (m : Nat) (e : Int) : Nat × Int :=
  (Interval.around m e).coarsest 653 309

/-- The number `c · 10 ^ p` in positional notation. -/
def positional (c : Nat) (p : Int) : String :=
  if 0 ≤ p then toString c ++ zeros p.toNat else pointed c (-p).toNat

/-- The fewest digits that read back, in positional notation. -/
def shortest (x : Float) : String :=
  match Unpacked.ofBits x.toBits with
  | .finite negative 0 _ => signed negative "0"
  | .finite negative m e =>
    let (c, p) := shortestDigits m e
    signed negative (positional c p)
  | other => special other

end IntegerProgramming.Decimal
