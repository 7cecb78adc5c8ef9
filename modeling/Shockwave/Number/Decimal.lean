import Shockwave.Number.Binary64

/-!
Decimal text of double-precision numbers: the fewest digits that read back as the number, nearest to
it, and never with an exponent. Whole numbers are written out in full with one place.
-/
namespace Shockwave

/-- A positive number `num / den` with the gaps `below / den` and `above / den` around it. -/
structure Interval where
  num : Nat
  den : Nat
  below : Nat
  above : Nat
  /-- Whether the ends belong to the interval. -/
  closed : Bool

namespace Interval

/-- The reals that round to a finite positive number, over one denominator. Below a power of two
numbers stand half as far apart. -/
def ofBinary64 (x : Binary64) : Interval :=
  let m := x.significand
  let e := x.scale - 2
  let up := 1 <<< e.toNat
  { num := 4 * m * up
    den := 1 <<< (-e).toNat
    below := (if x.fractionField = 0 ∧ 1 < x.exponentField then 1 else 2) * up
    above := 2 * up
    closed := m % 2 = 0 }

/-- Whether `digits * 10 ^ power` lies in the interval. -/
def contains (i : Interval) (digits : Nat) (power : Int) : Bool :=
  let candidate := digits * Nat.pow 10 power.toNat * i.den
  let unit := Nat.pow 10 (-power).toNat
  if i.closed then
    (i.num - i.below) * unit ≤ candidate && candidate ≤ (i.num + i.above) * unit
  else (i.num - i.below) * unit < candidate && candidate < (i.num + i.above) * unit

/-- The power of ten just above the number. -/
def magnitude (i : Interval) : Int :=
  if i.den ≤ i.num then (Nat.toDigits 10 (i.num / i.den)).length
  else 1 - ((Nat.toDigits 10 ((i.den - 1) / i.num)).length : Int)

/-- The nearest multiple of a power of ten in the interval, the upper one of two equally near. -/
def nearest? (i : Interval) (power : Int) : Option Nat :=
  let num := i.num * Nat.pow 10 (-power).toNat
  let den := i.den * Nat.pow 10 power.toNat
  let lower := num / den
  match i.contains lower power, i.contains (lower + 1) power with
  | true, false => some lower
  | false, true => some (lower + 1)
  | true, true => some (if 2 * (num % den) < den then lower else lower + 1)
  | false, false => none

/-- Shortest digits in the interval and the power of ten of the last one. Seventeen are always
enough. -/
def shortest (i : Interval) : Nat × Int :=
  let power (count : Nat) : Int := i.magnitude - count
  ((List.range' 1 17).findSome? fun count =>
    (i.nearest? (power count)).map fun digits => (digits, power count)).getD (0, 0)

end Interval

/-- Digits with the point put so that the last one counts `10 ^ power`. -/
def positional (digits : Nat) (power : Int) : String :=
  if 0 ≤ power then toString (digits * Nat.pow 10 power.toNat)
  else
    let places := (-power).toNat
    let whole := toString (digits / Nat.pow 10 places)
    let fraction := toString (digits % Nat.pow 10 places)
    let padding := String.ofList (List.replicate (places - fraction.length) '0')
    let kept := (padding ++ fraction).toList.reverse.dropWhile (· == '0') |>.reverse
    if kept.isEmpty then whole else s!"{whole}.{String.ofList kept}"

namespace Binary64

def text (x : Binary64) : String :=
  let sign := if x.negative then "-" else ""
  if x.isNaN then "NaN"
  else if !x.isFinite then s!"{sign}inf"
  else if x.isWhole then s!"{sign}{x.wholePart}.0"
  else
    let (digits, power) := (Interval.ofBinary64 x).shortest
    s!"{sign}{positional digits power}"

end Binary64
end Shockwave
