import LeafStore.Double
/-!
Decimals and doubles: the double that a decimal is read as, and the decimal with the fewest
digits among those nearest to a given double.
-/
namespace LeafStore

structure Decimal where
  digits : Nat
  exponent : Int
  deriving DecidableEq

namespace Decimal

def largestPower : Nat := 308

def powerRank (power : Nat) : Nat := Double.nearestRank (10 ^ power) 1

/-- A magnitude times a power of ten. Past the powers that are doubles all but zero is infinite. -/
def scaleUp (rank power : Nat) : Nat :=
  if power ≤ largestPower then Double.productRank rank (powerRank power)
  else if rank = 0 then 0
  else Double.infinityRank

/-- A magnitude over a power of ten. What one division cannot do is left to a second, and past
two even the largest 64-bit number has become zero. -/
def scaleDown (rank power : Nat) : Nat :=
  if power ≤ largestPower then Double.quotientRank rank (powerRank power)
  else if power ≤ 2 * largestPower then
    Double.quotientRank (Double.quotientRank rank (powerRank largestPower))
      (powerRank (power - largestPower))
  else 0

/-- The rank of the double that a decimal of 64-bit digits is read as: the digits as a double,
then scaled, and each step rounded by itself. Where both the digits and the power of ten are
doubles, this is the nearest double. -/
def scaledRank (d : Decimal) : Nat :=
  let digits := Double.nearestRank d.digits 1
  if 0 ≤ d.exponent then scaleUp digits d.exponent.toNat
  else scaleDown digits (-d.exponent).toNat

def toDouble (negative : Bool) (d : Decimal) : Double :=
  .signed negative d.scaledRank

end Decimal

namespace Double

/-- Which of two neighbours is taken for a magnitude halfway between them. -/
inductive Tie where
  | toEven
  | awayFromZero
  deriving DecidableEq

def Tie.choose : Tie → Nat → Nat
  | toEven, lower => lower + lower % 2
  | awayFromZero, lower => lower + 1

/-- Distance to the lower end of the reals that round to a rank, in quarters of its grid: half a
grid step, but half of that where the grid below is finer. -/
def lowerQuarters (rank : Nat) : Nat :=
  if significand rank = 2 ^ 52 ∧ 2 ^ 53 ≤ rank then 1 else 2

/-- The magnitude of a rank against the multiples of a power of ten: `num / den` multiples. -/
structure Grid where
  /-- Four times the significand, so that both ends of the interval are whole. -/
  quarters : Nat
  low : Nat
  high : Nat
  num : Nat
  den : Nat
  closed : Bool

namespace Grid

def of (rank : Nat) (power : Int) : Grid :=
  let e := exponent rank
  let quarters := 4 * significand rank
  { quarters := quarters
    low := quarters - lowerQuarters rank
    high := quarters + 2
    num := 2 ^ e.toNat * 10 ^ (-power).toNat
    den := 4 * 2 ^ (-e).toNat * 10 ^ power.toNat
    closed := significand rank % 2 = 0 }

def down (g : Grid) : Nat := g.quarters * g.num / g.den

/-- A multiple inside the interval; its ends belong to it when the significand is even. -/
def holds (g : Grid) (multiple : Nat) : Bool :=
  let at_ := multiple * g.den
  if g.closed then g.low * g.num ≤ at_ && at_ ≤ g.high * g.num
  else g.low * g.num < at_ && at_ < g.high * g.num

/-- The multiple inside the interval that is nearest to the magnitude, of two equally near the
one that the tie takes. -/
def nearest? (tie : Tie) (g : Grid) : Option Nat :=
  let value := g.quarters * g.num
  let below := value - g.down * g.den
  let above := (g.down + 1) * g.den - value
  match g.holds g.down, g.holds (g.down + 1) with
  | true, false => some g.down
  | false, true => some (g.down + 1)
  | false, false => none
  | true, true =>
    if below < above then some g.down
    else if above < below then some (g.down + 1)
    else some (tie.choose g.down)

end Grid

/-- The coarsest power of ten, from `power` downward, that has a multiple in the interval of a
rank, with the nearest such multiple. -/
def shortestFrom (tie : Tie) (rank : Nat) : Nat → Int → Decimal
  | 0, power => ⟨(Grid.of rank power).down, power⟩
  | steps + 1, power =>
    match (Grid.of rank power).nearest? tie with
    | some digits => ⟨digits, power⟩
    | none => shortestFrom tie rank steps (power - 1)

/-- A power of ten above every real that rounds to a positive finite rank, by at most two. -/
def topPower (rank : Nat) : Int :=
  (((significand rank).log2 : Int) + 1 + exponent rank) * 30103 / 100000 + 1

/-- The decimal with the fewest digits among those that the positive finite double of this rank
is nearest to, and of those the one nearest to it, two equally near ones decided by the tie.
Seventeen digits always suffice. -/
def shortest (tie : Tie) (rank : Nat) : Decimal :=
  if rank = 0 then ⟨0, 0⟩ else shortestFrom tie rank 24 (topPower rank)

end Double

end LeafStore
