/-!
Binary64 numbers, exact and without rounding hidden in an operation. A number is a sign and a
rank: its place in the sequence of all magnitudes, so that numbers compare as their ranks do.
-/
namespace LeafStore

-- Powers are those of the core library in every module, whatever else a module imports.
@[default_instance 20000]
instance (priority := 20000) corePow : Pow Nat Nat := instPowNat
/-- A binary64 number. Rank 0 is zero, rank 1 the least positive double, and so on up to
`Double.infinityRank`. -/
inductive Double where
  | nan
  | signed (negative : Bool) (rank : Nat)
  deriving DecidableEq

namespace Double

def infinityRank : Nat := 2047 * 2 ^ 52

def zero : Double := .signed false 0

def significand (rank : Nat) : Nat :=
  if rank < 2 ^ 52 then rank else 2 ^ 52 + rank % 2 ^ 52

def exponent (rank : Nat) : Int :=
  if rank < 2 ^ 52 then -1074 else (rank / 2 ^ 52 : Nat) - 1075

def isFinite : Double → Bool
  | nan => false
  | signed _ rank => rank < infinityRank

/-- The quotient rounded to the nearest integer, a half to the even neighbour. -/
def roundQuotient (num den : Nat) : Nat :=
  let down := num / den
  let rest := num % den
  if 2 * rest < den then down
  else if den < 2 * rest then down + 1
  else if down % 2 = 0 then down else down + 1

/-- The exponent of the grid of doubles around a positive quotient: 53 significant bits, but
never finer than the grid of the least doubles. -/
def gridExponent (num den : Nat) : Int :=
  let estimate : Int := (num.log2 : Int) - (den.log2 : Int)
  let log : Int :=
    if den * 2 ^ estimate.toNat ≤ num * 2 ^ (-estimate).toNat then estimate else estimate - 1
  max (log - 52) (-1074)

/-- The rank of the double nearest to a quotient, a half going to the even neighbour. Ranks grow
by one from each grid point to the next, so a significand rounded up to the next power of two
carries into the exponent by itself. -/
def nearestRank (num den : Nat) : Nat :=
  if num = 0 then 0
  else
    let e := gridExponent num den
    let rounded := roundQuotient (num * 2 ^ (-e).toNat) (den * 2 ^ e.toNat)
    min infinityRank ((e + 1074).toNat * 2 ^ 52 + rounded)

def productRank (a b : Nat) : Nat :=
  let e := exponent a + exponent b
  nearestRank (significand a * significand b * 2 ^ e.toNat) (2 ^ (-e).toNat)

def quotientRank (a b : Nat) : Nat :=
  let e := exponent a - exponent b
  nearestRank (significand a * 2 ^ e.toNat) (significand b * 2 ^ (-e).toNat)

def ofInt (n : Int) : Double :=
  .signed (n < 0) (nearestRank n.natAbs 1)

def wholeMagnitude? (rank : Nat) : Option Nat :=
  let e := exponent rank
  if 0 ≤ e then some (significand rank * 2 ^ e.toNat)
  else if significand rank % 2 ^ (-e).toNat = 0 then
    some (significand rank / 2 ^ (-e).toNat)
  else none

/-- The largest magnitude up to which every integer is a double. -/
def exactIntegerBound : Nat := 2 ^ 53

def toInt? : Double → Option Int
  | nan => none
  | signed negative rank =>
    if infinityRank ≤ rank then none
    else
      match wholeMagnitude? rank with
      | some n =>
        if n ≤ exactIntegerBound then some (if negative then -(n : Int) else (n : Int)) else none
      | none => none

/-- The place of a signed rank on the number line; both zeros are at the origin. -/
def place (negative : Bool) (rank : Nat) : Int :=
  if negative then -(rank : Int) else (rank : Int)

/-- How one double compares with another; nothing compares with an undefined number. -/
def compare? : Double → Double → Option Ordering
  | signed na ra, signed nb rb => some (compare (place na ra) (place nb rb))
  | _, _ => none

end Double

end LeafStore
