import CircuitSynthesis.UniformDraw

/-!
# Seeded draws

Random numbers from a seed: a short congruential generator stretches the seed to a key, the ChaCha block function with
twelve rounds makes a stream of words from it, and each pair of words gives one number from `-1` to `1`.

These are the draws of `StdRng` in `rand`, started by `seed_from_u64`.
-/

namespace CircuitSynthesis.TwoQubit.Keystream

/-- The next state of the generator that makes key words. -/
def nextState (state : UInt64) : UInt64 := state * 6364136223846793005 + 11634580027462260723

/-- The key word of a generator state: high bits folded into low ones and rotated. -/
def keyWord (state : UInt64) : UInt32 :=
  let x := (((state >>> 18) ^^^ state) >>> 27).toUInt32
  let turn := (state >>> 59).toUInt32
  (x >>> turn) ||| (x <<< ((32 - turn) % 32))

/-- The first key words of a generator state. -/
def keyWords : Nat → UInt64 → List UInt32
  | 0, _ => []
  | count + 1, state => let state := nextState state; keyWord state :: keyWords count state

def rotateLeft (x : UInt32) (turn : UInt32) : UInt32 := (x <<< turn) ||| (x >>> (32 - turn))

/-- The state of the block function. -/
abbrev Block := Vector UInt32 16

/-- The quarter round on four words of a block. -/
def quarterRound (a b c d : Fin 16) (s : Block) : Block :=
  let s := s.set a (s[a] + s[b])
  let s := s.set d (rotateLeft (s[d] ^^^ s[a]) 16)
  let s := s.set c (s[c] + s[d])
  let s := s.set b (rotateLeft (s[b] ^^^ s[c]) 12)
  let s := s.set a (s[a] + s[b])
  let s := s.set d (rotateLeft (s[d] ^^^ s[a]) 8)
  let s := s.set c (s[c] + s[d])
  s.set b (rotateLeft (s[b] ^^^ s[c]) 7)

/-- Two rounds: one on the columns and one on the diagonals. -/
def doubleRound (s : Block) : Block :=
  let s := quarterRound 0 4 8 12 s
  let s := quarterRound 1 5 9 13 s
  let s := quarterRound 2 6 10 14 s
  let s := quarterRound 3 7 11 15 s
  let s := quarterRound 0 5 10 15 s
  let s := quarterRound 1 6 11 12 s
  let s := quarterRound 2 7 8 13 s
  quarterRound 3 4 9 14 s

/-- The words `expand 32-byte k`. -/
def constants : List UInt32 := [0x61707865, 0x3320646e, 0x79622d32, 0x6b206574]

/-- The block that a key and a counter start from. -/
def initialBlock (key : List UInt32) (counter : UInt64) : Block :=
  let words := constants ++ key ++ [counter.toUInt32, (counter >>> 32).toUInt32, 0, 0]
  .ofFn fun i => words.getD i 0

/-- A block of the stream: six double rounds added to the block they start from. -/
def block (key : List UInt32) (counter : UInt64) : Block :=
  let start := initialBlock key counter
  let mixed := Nat.repeat doubleRound 6 start
  .ofFn fun i => start[i] + mixed[i]

/-- The double word of an index, its low half first in the stream. -/
def doubleWord (seed : UInt64) (index : Nat) : UInt64 :=
  let words := block (keyWords 8 seed) (index / 8).toUInt64
  let low : Fin 16 := ⟨2 * (index % 8), by omega⟩
  let high : Fin 16 := ⟨2 * (index % 8) + 1, by omega⟩
  words[low].toUInt64 ||| (words[high].toUInt64 <<< 32)

end Keystream

/-- The draws that follow from a seed. -/
def Keystream.draws {R : Type} [Scalar R] (seed : UInt64) (index : Nat) : R := uniformOfWord (doubleWord seed index)

end CircuitSynthesis.TwoQubit
