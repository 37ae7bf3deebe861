import IntegerProgramming.Program
import IntegerProgramming.Random.Coin

/-!
# Rounding — integer points near a vertex

A `Heuristic` looks for an integer point of a program near a fractional vertex, to start the search
with.  `rounding` tries four points and takes the first that satisfies the constraints: every
coordinate down, every coordinate up, each coordinate up or down as a coin decides — up with its
fractional part as probability — and the zero vector.
-/

namespace IntegerProgramming

/-- The points that are tried. -/
inductive Rounding where
  | floor
  | ceil
  | randomized
  | zero
  deriving DecidableEq, Repr

/-- The name of the point. -/
def Rounding.name : Rounding → String
  | .floor => "floor"
  | .ceil => "ceil"
  | .randomized => "randomized"
  | .zero => "zero"

/-- What a heuristic found, and its state afterwards. -/
structure Finding (α η : Type) where
  /-- The point, if there is one. -/
  point : Except Fault (Option (List α))
  state : η
  /-- How the vertex was rounded to it, if it was. -/
  rounding : Option Rounding

/-- A search for an integer point near a vertex, with a state it may change. -/
structure Heuristic (α η : Type) where
  find : Program α → List α → η → Finding α η
  /-- The state at the beginning of a search. -/
  reset : η → η

/-- No point is ever found. -/
def Heuristic.never {α : Type} : Heuristic α Unit where
  find _ _ s := ⟨.ok none, s, none⟩
  reset s := s

/-- Always the same point, whether it satisfies the constraints or not. -/
def Heuristic.always {α : Type} (x : List α) : Heuristic α Unit where
  find _ _ s := ⟨.ok (some x), s, none⟩
  reset s := s

namespace Rounding

variable {α σ : Type} [Scalar α]

/-- A rounded point satisfies a constraint if it exceeds it by at most this much. -/
def tolerance : α := 1e-9

/-- `v` moved to the nearer end of the interval `[low, high]` if it lies outside. -/
def clamp (v low high : α) : α :=
  if v < low then low else if high < v then high else v

/-- Each coordinate down or up as the coin decides. -/
def randomPoint (coin : Random.Coin α σ) : List α → σ → Except Fault (List α × σ)
  | [], s => .ok ([], s)
  | v :: rest, s =>
    let down := Scalar.floor v
    match coin.toss (clamp (v - down) 0 1) s with
    | .error f => .error f
    | .ok (heads, s) =>
      match randomPoint coin rest s with
      | .error f => .error f
      | .ok (tail, s) => .ok ((if heads then down + 1 else down) :: tail, s)

/-- The first of the four points that satisfies the constraints. -/
def find (coin : Random.Coin α σ) (p : Program α) (x : List α) (s : σ) : Finding α σ :=
  let down := x.map Scalar.floor
  if p.satisfies down tolerance then ⟨.ok (some down), s, some .floor⟩
  else
    let up := x.map Scalar.ceil
    if p.satisfies up tolerance then ⟨.ok (some up), s, some .ceil⟩
    else
      match randomPoint coin x s with
      | .error f => ⟨.error f, s, none⟩
      | .ok (random, s) =>
        if p.satisfies random tolerance then ⟨.ok (some random), s, some .randomized⟩
        else
          let zero := List.replicate x.length 0
          if p.satisfies zero tolerance then ⟨.ok (some zero), s, some .zero⟩
          else ⟨.ok none, s, none⟩

/-- Rounding by tosses of a coin that begins each search in the same state.  The state is a value,
and what is kept of it is a copy; a generator that shares its state with its copies is left out.
-/
def heuristic (coin : Random.Coin α σ) (initial : σ) : Heuristic α σ where
  find := find coin
  reset _ := initial

/-- Rounding by the stream of a seed. -/
def seeded (seed : UInt64) : Heuristic α Random.Stream :=
  heuristic (.ofWords Random.Stream.next) (.seeded seed)

end Rounding

end IntegerProgramming
