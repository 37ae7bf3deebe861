/-!
# Random words — the ChaCha stream with twelve rounds

A stream of words is determined by a key of eight words.  Block `n` scrambles a table of sixteen
words — four constants, the key, the number of the block and two zeros — by six double rounds and
adds the table itself.  The output words of the blocks, in order, are the stream; a draw takes two
of them, the low word first, and is addressed by its position, so that a stream can be wound back
by forgetting how far it was read.

A key is spread from a single 64-bit seed by a linear congruential sequence whose states are
permuted before they are used.
-/

namespace IntegerProgramming.Random

/-- The table of a block. -/
abbrev Table := Array UInt32

/-- `x` with its bits turned left by `n` places, `0 < n < 32`. -/
def rotateLeft (x n : UInt32) : UInt32 :=
  (x <<< n) ||| (x >>> (32 - n))

/-- Word `i` of a table replaced. -/
def Table.put (t : Table) (i : Nat) (x : UInt32) : Table :=
  Array.setIfInBounds t i x

/-- Word `i` of a table. -/
def Table.word (t : Table) (i : Nat) : UInt32 :=
  Array.getD t i 0

/-- Word `b` is added to word `a`, and word `d` is joined with the sum and turned. -/
def mix (t : Table) (a b d : Nat) (turn : UInt32) : Table :=
  let sum := t.word a + t.word b
  (t.put a sum).put d (rotateLeft (t.word d ^^^ sum) turn)

/-- Four words of a table are mixed with each other. -/
def quarterRound (t : Table) (a b c d : Nat) : Table :=
  mix (mix (mix (mix t a b d 16) c d b 12) a b d 8) c d b 7

/-- The columns of the table are mixed, then its diagonals. -/
def doubleRound (t : Table) : Table :=
  let t := quarterRound (quarterRound t 0 4 8 12) 1 5 9 13
  let t := quarterRound (quarterRound t 2 6 10 14) 3 7 11 15
  let t := quarterRound (quarterRound t 0 5 10 15) 1 6 11 12
  quarterRound (quarterRound t 2 7 8 13) 3 4 9 14

/-- The words with which every table begins. -/
def constants : List UInt32 :=
  [0x61707865, 0x3320646e, 0x79622d32, 0x6b206574]

/-- The number of a block as two words, the low one first. -/
def counter (n : Nat) : List UInt32 :=
  [UInt32.ofNat n, UInt32.ofNat (n >>> 32)]

/-- The table of block `n` before it is scrambled. -/
def initialTable (key : List UInt32) (n : Nat) : Table :=
  (constants ++ key ++ counter n ++ [0, 0]).toArray

/-- Block `n` of the stream. -/
def block (key : List UInt32) (n : Nat) : Table :=
  let table := initialTable key n
  Array.zipWith (· + ·) (Nat.repeat doubleRound 6 table) table

/-- Word `i` of the stream. -/
def streamWord (key : List UInt32) (i : Nat) : UInt32 :=
  (block key (i / 16)).word (i % 16)

/-- Draw `k` of the stream. -/
def draw (key : List UInt32) (k : Nat) : UInt64 :=
  (streamWord key (2 * k)).toUInt64 ||| ((streamWord key (2 * k + 1)).toUInt64 <<< 32)

/-- `x` with its bits turned right by `n` places. -/
def rotateRight (x n : UInt32) : UInt32 :=
  if n % 32 = 0 then x else (x >>> (n % 32)) ||| (x <<< (32 - n % 32))

/-- The words that a seed is spread to, `n` of them. -/
def spread : (n : Nat) → (seed : UInt64) → List UInt32
  | 0, _ => []
  | n + 1, seed =>
    let s := seed * 6364136223846793005 + 11634580027462260723
    let x := (((s >>> 18) ^^^ s) >>> 27).toUInt32
    rotateRight x (s >>> 59).toUInt32 :: spread n s

/-- A stream and how many draws were taken from it. -/
structure Stream where
  key : List UInt32
  drawn : Nat
  deriving DecidableEq, Repr

/-- The stream of a seed. -/
def Stream.seeded (seed : UInt64) : Stream :=
  ⟨spread 8 seed, 0⟩

/-- The next draw. -/
def Stream.next (s : Stream) : UInt64 × Stream :=
  (draw s.key s.drawn, { s with drawn := s.drawn + 1 })

end IntegerProgramming.Random
