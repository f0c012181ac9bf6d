import Chiptune.Random.Source

/-!
# The seeded random source

ChaCha with twelve rounds. Its state is a square of sixteen words: the constants, the key in two
rows, and a row with the 64-bit block counter. A seed of 64 bits is spread over the key by a small
linear generator, so that every seed gives a stream of its own. The draws are the words of the
successive blocks taken in pairs, the lower half first.
-/

namespace Chiptune.ChaCha

/-! ## Rounds -/

/-- Four words, one per column. -/
structure Row where
  a : UInt32
  b : UInt32
  c : UInt32
  d : UInt32
deriving DecidableEq

namespace Row

/-- Adds column by column, modulo `2 ^ 32`. -/
@[inline] def add (x y : Row) : Row := ⟨x.a + y.a, x.b + y.b, x.c + y.c, x.d + y.d⟩

/-- Exclusive or, column by column. -/
@[inline] def xor (x y : Row) : Row := ⟨x.a ^^^ y.a, x.b ^^^ y.b, x.c ^^^ y.c, x.d ^^^ y.d⟩

/-- Turns every word left by `n` bits. -/
@[inline] def turn (x : Row) (n : UInt32) : Row :=
  let t (w : UInt32) : UInt32 := (w <<< n) ||| (w >>> (32 - n))
  ⟨t x.a, t x.b, t x.c, t x.d⟩

/-- Moves every word one column to the left. -/
@[inline] def shift (x : Row) : Row := ⟨x.b, x.c, x.d, x.a⟩

end Row

/-- The sixteen words of a state, row by row. -/
structure Square where
  r0 : Row
  r1 : Row
  r2 : Row
  r3 : Row
deriving DecidableEq

namespace Square

/-- The quarter round on all four columns. -/
def mixColumns (s : Square) : Square :=
  let r0 := s.r0.add s.r1
  let r3 := (s.r3.xor r0).turn 16
  let r2 := s.r2.add r3
  let r1 := (s.r1.xor r2).turn 12
  let r0 := r0.add r1
  let r3 := (r3.xor r0).turn 8
  let r2 := r2.add r3
  let r1 := (r1.xor r2).turn 7
  ⟨r0, r1, r2, r3⟩

/-- Lines the diagonals up as columns. -/
def diagonals (s : Square) : Square :=
  ⟨s.r0, s.r1.shift, s.r2.shift.shift, s.r3.shift.shift.shift⟩

/-- Puts lined up diagonals back. -/
def undiagonals (s : Square) : Square :=
  ⟨s.r0, s.r1.shift.shift.shift, s.r2.shift.shift, s.r3.shift⟩

/-- A round on the columns and a round on the diagonals. -/
def doubleRound (s : Square) : Square := s.mixColumns.diagonals.mixColumns.undiagonals

/-- Adds word by word, modulo `2 ^ 32`. -/
def add (s t : Square) : Square :=
  ⟨s.r0.add t.r0, s.r1.add t.r1, s.r2.add t.r2, s.r3.add t.r3⟩

/-- Twelve rounds, added to the state they started from. -/
def scramble (s : Square) : Square :=
  (Nat.repeat doubleRound 6 s).add s

end Square

/-! ## Draws -/

/-- Two words as one of 64 bits, the first one low. -/
@[inline] def join (low high : UInt32) : UInt64 := low.toUInt64 ||| (high.toUInt64 <<< 32)

/-- The eight draws of a block. -/
def Square.draws (s : Square) : Vector UInt64 8 :=
  #v[join s.r0.a s.r0.b, join s.r0.c s.r0.d, join s.r1.a s.r1.b, join s.r1.c s.r1.d,
     join s.r2.a s.r2.b, join s.r2.c s.r2.d, join s.r3.a s.r3.b, join s.r3.c s.r3.d]

/-- A generator in the middle of its stream: the key, the number of the current block, the draws of
that block and the place of the next one among them. -/
structure Generator where
  key : Row × Row
  block : UInt64
  ready : Vector UInt64 8
  next : Fin 8

/-- The draws of block number `block` under `key`. -/
def blockDraws (key : Row × Row) (block : UInt64) : Vector UInt64 8 :=
  (Square.scramble
    ⟨⟨0x61707865, 0x3320646e, 0x79622d32, 0x6b206574⟩, key.1, key.2,
     ⟨block.toUInt32, (block >>> 32).toUInt32, 0, 0⟩⟩).draws

/-- The generator at the start of the stream of `key`. -/
def Generator.start (key : Row × Row) : Generator := ⟨key, 0, blockDraws key 0, 0⟩

/-- The next draw; after the last one of a block the next block is made. -/
def Generator.draw (g : Generator) : UInt64 × Generator :=
  let word := g.ready[g.next]
  if g.next = 7 then
    (word, { g with block := g.block + 1, ready := blockDraws g.key (g.block + 1), next := 0 })
  else
    (word, { g with next := g.next + 1 })

instance : RandomSource Generator := ⟨Generator.draw⟩

/-! ## Seeds -/

/-- One step of the generator that spreads a seed. -/
def spreadStep (state : UInt64) : UInt64 := state * 6364136223846793005 + 11634580027462260723

/-- The key word of a spreading state: its upper bits folded together and turned right by an amount
that the state itself holds. -/
def spreadWord (state : UInt64) : UInt32 :=
  let x := (((state >>> 18) ^^^ state) >>> 27).toUInt32
  let n := (state >>> 59).toUInt32
  (x >>> n) ||| (x <<< ((32 - n) % 32))

/-- The key of a seed. -/
def keyOfSeed (seed : UInt64) : Row × Row :=
  let state (n : Nat) := Nat.repeat spreadStep n seed
  let word (n : Nat) := spreadWord (state n)
  (⟨word 1, word 2, word 3, word 4⟩, ⟨word 5, word 6, word 7, word 8⟩)

/-- The random source of a seed. -/
def ofSeed (seed : UInt64) : Generator := .start (keyOfSeed seed)

end Chiptune.ChaCha
