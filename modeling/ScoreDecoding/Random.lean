import ScoreDecoding.Double.Order
import ScoreDecoding.Json.Decode

/-!
# Random draws

A generator of 64-bit words whose state has 256 bits (xoshiro256++), seeded from one word by four steps of SplitMix64,
and the draws that decoding makes with it. Each draw takes one word.

- `Random.next` gives the next word, `Random.uniform` a double in the unit interval;
- `Random.pick` picks an index in proportion to weights, `Random.pickLogits` by the exponentials of logits, and both say
  where the generator stands afterwards. Only positive finite weights and only finite logits are picked;
- `Random.draw` and `Random.drawLogits` give the index with the generator to go on with, if there is one to pick.
-/

namespace ScoreDecoding

/-- The state of a generator. -/
structure Random where
  s0 : UInt64
  s1 : UInt64
  s2 : UInt64
  s3 : UInt64
  deriving DecidableEq, Repr

namespace Random

/-- A word with its bits turned to the left. -/
def rotateLeft (x k : UInt64) : UInt64 := (x <<< k) ||| (x >>> (64 - k))

/-- The step between two states of the seeding sequence. -/
def seedStep : UInt64 := 0x9e3779b97f4a7c15

/-- Mixes the bits of a word of the seeding sequence. -/
def mix (z : UInt64) : UInt64 :=
  let z := (z ^^^ (z >>> 30)) * 0xbf58476d1ce4e5b9
  let z := (z ^^^ (z >>> 27)) * 0x94d049bb133111eb
  z ^^^ (z >>> 31)

/-- The generator of a seed. -/
def ofSeed (seed : UInt64) : Random where
  s0 := mix (seed + seedStep)
  s1 := mix (seed + 2 * seedStep)
  s2 := mix (seed + 3 * seedStep)
  s3 := mix (seed + 4 * seedStep)

/-- The word that a state gives. -/
def output (r : Random) : UInt64 := rotateLeft (r.s0 + r.s3) 23 + r.s0

/-- The next state. -/
def advance (r : Random) : Random where
  s0 := r.s0 ^^^ r.s3 ^^^ r.s1
  s1 := r.s1 ^^^ r.s2 ^^^ r.s0
  s2 := r.s2 ^^^ r.s0 ^^^ (r.s1 <<< 17)
  s3 := rotateLeft (r.s3 ^^^ r.s1) 45

/-- The next word. -/
def next (r : Random) : UInt64 × Random := (r.output, r.advance)

/-- A double in the unit interval from the upper 53 bits of a word. -/
def unitInterval (word : UInt64) : Float := (word >>> 11).toFloat / 9007199254740992

/-- The next double in the unit interval. -/
def uniform (r : Random) : Float × Random := (unitInterval r.output, r.advance)

/-! ## Draws -/

/-- Whether a weight can be drawn. -/
def usable (w : Float) : Bool := Double.isFinite w && 0 < w

/-- The sum of the weights that can be drawn, from the first on. -/
def total (weights : List Float) : Float := (weights.filter usable).foldl (· + ·) 0

/-- Walks along the weights, of which the first has index `i`, until the roll falls within one that can be drawn. If it
never does, the last of them is taken. -/
def walk (roll : Float) (last : Option Nat) (i : Nat) : List Float → Option Nat
  | [] => last
  | w :: ws =>
    if !usable w then walk roll last (i + 1) ws
    else if roll < w then some i
    else walk (roll - w) (some i) (i + 1) ws

/-- Picks an index in proportion to its weight. No word is taken if there is nothing to pick. -/
def pick (r : Random) (weights : List Float) : Option Nat × Random :=
  let sum := total weights
  if sum ≤ 0 then (none, r) else (walk (sum * r.uniform.1) none 0 weights, r.uniform.2)

/-- The greatest of the finite logits, or minus infinity. -/
def greatest (logits : List Float) : Float := (logits.filter Double.isFinite).foldl Double.max (-1 / 0)

/-- The weight of a logit beside the greatest one. -/
def weight (exp : Float → Float) (greatest l : Float) : Float := if Double.isFinite l then exp (l - greatest) else 0

/-- Picks an index in proportion to the exponential of its logit. The greatest logit is taken from all of them first, so
that no exponential is infinite. -/
def pickLogits (exp : Float → Float) (r : Random) (logits : List Float) : Option Nat × Random :=
  let top := greatest logits
  if !Double.isFinite top then (none, r) else r.pick (logits.map (weight exp top))

/-- What was picked, with the generator to go on with. -/
def drawn? : Option Nat × Random → Option (Nat × Random)
  | (some i, r) => some (i, r)
  | (none, _) => none

/-- Draws an index in proportion to its weight, with the next generator. -/
def draw (r : Random) (weights : List Float) : Option (Nat × Random) := drawn? (r.pick weights)

/-- Draws an index in proportion to the exponential of its logit, with the next generator. -/
def drawLogits (r : Random) (logits : List Float) : Option (Nat × Random) := drawn? (r.pickLogits Float.exp logits)

/-! ## Text -/

/-- The four words of a state. -/
def words (r : Random) : List UInt64 := [r.s0, r.s1, r.s2, r.s3]

/-- The state as a JSON value. -/
def toJson (r : Random) : Json := Json.object [("s", .arr (r.words.map fun w => Json.nat w.toNat))]

/-- Reads a state of four words. -/
def ofJson? (j : Json) : Option Random := do
  let record ← j.record? ["s"]
  match ← record.required "s" (Json.list? Json.uint64?) with
  | [s0, s1, s2, s3] => some ⟨s0, s1, s2, s3⟩
  | _ => none

end Random

end ScoreDecoding
