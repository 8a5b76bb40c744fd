/-!
Hexadecimal digits in lower case, and their values in either case.
-/
namespace LeafStore.Text

def hexDigit (value : Nat) : Char :=
  if value < 10 then Char.ofNat (48 + value) else Char.ofNat (87 + value)

def hexValue? (c : Char) : Option Nat :=
  if '0' ≤ c ∧ c ≤ '9' then some (c.toNat - 48)
  else if 'a' ≤ c ∧ c ≤ 'f' then some (c.toNat - 87)
  else if 'A' ≤ c ∧ c ≤ 'F' then some (c.toNat - 55)
  else none

@[simp] theorem hexValue?_hexDigit (value : Nat) (h : value < 16) :
    hexValue? (hexDigit value) = some value := by
  have every : ∀ v : Fin 16, hexValue? (hexDigit v) = some v.val := by decide
  exact every ⟨value, h⟩

def hex (n : Nat) : List Char :=
  (Nat.toDigits 16 n)

end LeafStore.Text
