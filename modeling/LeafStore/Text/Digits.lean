/-!
Decimal digits and the numbers they spell.
-/
namespace LeafStore.Text

def digitValue (c : Char) : Nat := c.toNat - 48

def digitsValue (digits : List Char) : Nat :=
  digits.foldl (fun n c => 10 * n + digitValue c) 0

def sixDigits (n : Nat) : List Char :=
  [n / 100000, n / 10000, n / 1000, n / 100, n / 10, n].map fun k => Char.ofNat (48 + k % 10)

end LeafStore.Text
