import LeafStore.Double.Decimal
import LeafStore.Json
import LeafStore.Text.Digits
/-!
Numerals of JSON texts: their grammar and their values.
-/
namespace LeafStore.Json

structure Numeral where
  negative : Bool
  whole : List Char
  fraction : Option (List Char)
  power : Option (Bool × List Char)
  deriving DecidableEq

namespace Numeral

def readWhole (chars : List Char) : Option (List Char × List Char) :=
  match chars.span Char.isDigit with
  | ([], _) => none
  | ('0' :: _ :: _, _) => none
  | (digits, rest) => some (digits, rest)

def readFraction : List Char → Option (Option (List Char) × List Char)
  | '.' :: rest =>
    match rest.span Char.isDigit with
    | ([], _) => none
    | (digits, rest) => some (some digits, rest)
  | rest => some (none, rest)

def readPowerDigits (negative : Bool) (chars : List Char) : Option (Option (Bool × List Char)) :=
  if chars.isEmpty || !chars.all Char.isDigit then none else some (some (negative, chars))

def readPower : List Char → Option (Option (Bool × List Char))
  | [] => some none
  | mark :: rest =>
    if mark = 'e' ∨ mark = 'E' then
      match rest with
      | '-' :: digits => readPowerDigits true digits
      | '+' :: digits => readPowerDigits false digits
      | digits => readPowerDigits false digits
    else none

def readMagnitude (negative : Bool) (chars : List Char) : Option Numeral := do
  let (whole, rest) ← readWhole chars
  let (fraction, rest) ← readFraction rest
  let power ← readPower rest
  pure ⟨negative, whole, fraction, power⟩

def read : List Char → Option Numeral
  | '-' :: rest => readMagnitude true rest
  | chars => readMagnitude false chars

def powerValue (n : Numeral) : Int :=
  match n.power with
  | none => 0
  | some (true, digits) => -(Text.digitsValue digits : Int)
  | some (false, digits) => (Text.digitsValue digits : Int)

/-- Digits put behind a significand as long as it stays a number of 64 bits, and how many of them
are left over. -/
def extend (significand : Nat) : List Char → Nat × Nat
  | [] => (significand, 0)
  | digit :: rest =>
    let next := 10 * significand + Text.digitValue digit
    if next < 2 ^ 64 then extend next rest else (significand, rest.length + 1)

/-- The magnitude as a decimal whose digits are a number of 64 bits. Digits before the point that
are left over count as zeros; of those behind it, the ones left over are dropped. -/
def decimal (n : Numeral) : Decimal :=
  let fraction := n.fraction.getD []
  let (whole, zeros) := extend 0 n.whole
  let (digits, dropped) := extend whole fraction
  ⟨digits, n.powerValue + zeros - (fraction.length - dropped : Nat)⟩

/-- The value of a numeral without point and power, where it is an integer of 64 bits. Minus
zero is none. -/
def integer? (n : Numeral) : Option Int :=
  if n.fraction.isSome ∨ n.power.isSome then none
  else
    let magnitude := Text.digitsValue n.whole
    if n.negative then
      if 0 < magnitude ∧ magnitude ≤ 2 ^ 63 then some (-(magnitude : Int)) else none
    else if magnitude < 2 ^ 64 then some (magnitude : Int) else none

/-- The value of a numeral: an integer, else a double; none where that is infinite. -/
def value? (n : Numeral) : Option Json :=
  match n.integer? with
  | some i => some (.int i)
  | none =>
    let d := n.decimal.toDouble n.negative
    if d.isFinite then some (.float d) else none

end Numeral

end LeafStore.Json
