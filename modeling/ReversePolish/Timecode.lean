/-
Timecodes: hours, minutes, seconds and frames at a frame rate.

A rate is counted at its nominal number of frames a second, the rate rounded up. At a rate that is not whole the count
drops frame labels: a fifteenth of the nominal number is skipped at the start of every minute except each tenth.
`ofFrames` turns a count of frames since midnight, modulo a day, into a label, and `toFrames` is its inverse on the
labels that exist. `ofFields` carries fields into their ranges without regard to dropped labels.
-/
import ReversePolish.Fraction

namespace ReversePolish

structure Timecode where
  hour : Int64
  minute : Int64
  second : Int64
  frame : Int64
  rate : Fraction

namespace Timecode

/-- highest accepted rate, in frames a second -/
def maxRate : Float := 1000000.0

/-- frames in each unit of time at one rate -/
structure Counts where
  nominal : Int
  drop : Int

namespace Counts

def perMinute (c : Counts) : Int := c.nominal * 60 - c.drop

def perTenMinutes (c : Counts) : Int := c.perMinute * 10 + c.drop

def perHour (c : Counts) : Int := c.perTenMinutes * 6

def perDay (c : Counts) : Int := c.perHour * 24

end Counts

/-- does the rate drop frame labels? -/
def drops (rate : Fraction) : Bool := !(Double.floor rate.toDouble == rate.toDouble)

/-- the counts of a rate, which must be positive and at most `maxRate` -/
def counts? (rate : Fraction) : Option Counts :=
  let fps := rate.toDouble
  if !fps.isFinite || decide (fps ≤ 0.0) || decide (maxRate < fps) then none
  else
    let nominal := Double.ceiled fps
    some ⟨nominal, if drops rate then nominal / 15 else 0⟩

/-- carries every field into its range, from frames up to hours, and drops whole days -/
def ofFields (hour minute second frame : Int64) (rate : Fraction) : Option Timecode :=
  (counts? rate).map fun c =>
    let second := second.toInt + frame.toInt / c.nominal
    let minute := minute.toInt + second / 60
    let hour := hour.toInt + minute / 60
    { hour := Int64.ofInt (hour % 24)
      minute := Int64.ofInt (minute % 60)
      second := Int64.ofInt (second % 60)
      frame := Int64.ofInt (frame.toInt % c.nominal)
      rate }

/-- minute within the hour, and the frame number within that minute, of a frame within the hour. Where labels are
dropped, stepping back over them before the division keeps a minute from starting on a label that does not exist. -/
def Counts.splitHour (c : Counts) (frames : Int) : Int × Int :=
  if 0 < c.drop then
    let tens := frames / c.perTenMinutes
    let rest := frames % c.perTenMinutes - c.drop
    (tens * 10 + rest.tdiv c.perMinute, rest.tmod c.perMinute + c.drop)
  else (frames / c.perMinute, frames % c.perMinute)

/-- the label of a frame count, modulo a day -/
def ofFrames (frames : Int64) (rate : Fraction) : Option Timecode :=
  (counts? rate).map fun c =>
    let inDay := frames.toInt % c.perDay
    let (minute, rest) := c.splitHour (inDay % c.perHour)
    { hour := Int64.ofInt (inDay / c.perHour)
      minute := Int64.ofInt minute
      second := Int64.ofInt (rest / c.nominal)
      frame := Int64.ofInt (rest % c.nominal)
      rate }

/-- frames since midnight, modulo 2^64; 0 at a rate that is not accepted -/
def toFrames (t : Timecode) : Int64 :=
  match counts? t.rate with
  | none => 0
  | some c =>
    Int64.ofInt (t.hour.toInt * c.perHour + t.minute.toInt.tdiv 10 * c.perTenMinutes +
      t.minute.toInt.tmod 10 * c.perMinute + t.second.toInt * c.nominal + t.frame.toInt)

/-- moves by a number of frames -/
def offset (t : Timecode) (frames : Int64) : Timecode := (ofFrames (t.toFrames + frames) t.rate).getD t

/-- equal fields at rates that compare equal -/
def same (t u : Timecode) : Bool :=
  t.hour == u.hour && t.minute == u.minute && t.second == u.second && t.frame == u.frame && t.rate.close u.rate

/-- a field with at least two characters -/
def fieldText (n : Int64) : String :=
  if n < 0 then Decimal.integer n.toInt
  else String.ofList (Decimal.zeroFilled 2 (Decimal.digits n.toInt.natAbs))

def text (t : Timecode) : String :=
  let (tag, mark) := if drops t.rate then ("DF", ";") else ("NDF", ":")
  "TC/" ++ tag ++ " " ++ fieldText t.hour ++ ":" ++ fieldText t.minute ++ ":" ++ fieldText t.second ++ mark ++
    fieldText t.frame ++ " @ " ++ Decimal.fixed 2 t.rate.toDouble

end Timecode

end ReversePolish
