import LeafStore.Double.Decimal
/-!
Doubles as text: the shortest digits, laid out positionally or with an exponent.
-/
namespace LeafStore.Double

structure Layout where
  /-- Which of two equally near decimals of the same length is written. -/
  tie : Tie
  /-- The exponents of the first digit for which no power of ten is written. -/
  positional : Int → Bool
  wholeSuffix : List Char

/-- JSON numbers: positional from 0.00001 up to 10^16, always with a point or an exponent; a last
digit halfway between two goes to the even one. -/
def Layout.json : Layout where
  tie := .toEven
  positional := fun e => -5 ≤ e && e < 16
  wholeSuffix := ['.', '0']

/-- Plain numbers: positional at every size, and no fraction that is not there; a last digit
halfway between two goes away from zero. -/
def Layout.plain : Layout where
  tie := .awayFromZero
  positional := fun _ => true
  wholeSuffix := []

/-- Digits placed around the decimal point. `point` counts the digits before it, which may be
none, negative or more than there are. -/
def placed (layout : Layout) (digits : List Char) (point : Int) : List Char :=
  if point ≤ 0 then
    ['0', '.'] ++ List.replicate (-point).toNat '0' ++ digits
  else if digits.length ≤ point.toNat then
    digits ++ List.replicate (point.toNat - digits.length) '0' ++ layout.wholeSuffix
  else digits.take point.toNat ++ '.' :: digits.drop point.toNat

def scientific (digits : List Char) (power : Int) : List Char :=
  let fraction := digits.drop 1
  digits.take 1 ++ (if fraction.isEmpty then [] else '.' :: fraction) ++
    ['e', if power < 0 then '-' else '+'] ++ Nat.toDigits 10 power.natAbs

def magnitudeText (layout : Layout) (rank : Nat) : List Char :=
  let d := shortest layout.tie rank
  let digits := Nat.toDigits 10 d.digits
  if rank = 0 then '0' :: layout.wholeSuffix
  else
    let first := (digits.length : Int) + d.exponent - 1
    if layout.positional first then placed layout digits (first + 1)
    else scientific digits first

def text (layout : Layout) : Double → List Char
  | nan => ['N', 'a', 'N']
  | signed negative rank =>
    (if negative then ['-'] else []) ++
      (if rank < infinityRank then magnitudeText layout rank else ['i', 'n', 'f'])

def plain (d : Double) : String := String.ofList (d.text .plain)

end LeafStore.Double
