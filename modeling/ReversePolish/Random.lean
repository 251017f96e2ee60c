/-
The random generator: multiplication by 48271 modulo the prime 2^31 - 1. A state of zero would stay zero, so a seed that
is a multiple of the modulus is replaced by the default one.
-/
import ReversePolish.Number.Double

namespace ReversePolish.Random

def modulus : Int := 2147483647

def multiplier : Int64 := 48271

def defaultSeed : Int64 := 999999999

/-- the state that follows -/
def advance (state : Int64) : Int64 := Int64.ofInt ((multiplier * state).toInt % modulus)

/-- the state that a seed sets -/
def reseed (seed : Int64) : Int64 :=
  let state := Int64.ofInt (seed.toInt % modulus)
  if state = 0 then defaultSeed else state

/-- a state as a number between 0 and 1 -/
def unit (state : Int64) : Float := Double.ofInt64 state / Float.ofInt modulus

end ReversePolish.Random
