/-!
# Sources of random numbers

A stochastic rule draws a number from zero up to but not including one. What rewriting needs
of a source is a state and a way to draw from it, and it takes any; here are three. A
seeded source gives the same numbers for the same seed. It steps through the 64-bit words
by a fixed odd distance and scrambles each, so that no word repeats before all have come.
-/

namespace Lindenmayer

inductive RandomSource where
  /-- The same number for ever. -/
  | fixed (x : Float)
  /-- The numbers of `ahead`, and `values` over and over after them. -/
  | cycle (values ahead : List Float)
  | seeded (state : UInt64)
  deriving Repr

namespace RandomSource

/-- The numbers of a list over and over; without numbers zero. -/
def ofList (values : List Float) : RandomSource := cycle values values

/-- A word scrambled beyond recognition. -/
def scramble (w : UInt64) : UInt64 :=
  let w := (w ^^^ (w >>> 30)) * 0xbf58476d1ce4e5b9
  let w := (w ^^^ (w >>> 27)) * 0x94d049bb133111eb
  w ^^^ (w >>> 31)

/-- A number in the unit interval, from the 53 high bits of a word. -/
def unit (w : UInt64) : Float := (w >>> 11).toFloat / 9007199254740992.0

def draw : RandomSource → Float × RandomSource
  | fixed x => (x, fixed x)
  | cycle values (x :: ahead) => (x, cycle values ahead)
  | cycle (x :: values) [] => (x, cycle (x :: values) values)
  | cycle [] [] => (0.0, cycle [] [])
  | seeded state =>
    let next := state + 0x9e3779b97f4a7c15
    (unit (scramble next), seeded next)

def take : Nat → RandomSource → List Float
  | 0, _ => []
  | count + 1, source =>
    let (x, source) := source.draw
    x :: take count source

end RandomSource

end Lindenmayer
