/-!
Bytes written with the URL-safe alphabet of 64 characters, without padding. Each byte sequence
has one text: the bits left over in the last character have to be zero.
-/
namespace LeafStore.Text.Base64

def encodeDigit (value : Nat) : Char :=
  if value < 26 then Char.ofNat (65 + value)
  else if value < 52 then Char.ofNat (71 + value)
  else if value < 62 then Char.ofNat (value - 4)
  else if value = 62 then '-'
  else '_'

def digitValue? (c : Char) : Option Nat :=
  if 'A' ≤ c ∧ c ≤ 'Z' then some (c.toNat - 65)
  else if 'a' ≤ c ∧ c ≤ 'z' then some (c.toNat - 71)
  else if '0' ≤ c ∧ c ≤ '9' then some (c.toNat + 4)
  else if c = '-' then some 62
  else if c = '_' then some 63
  else none

@[simp] theorem digitValue?_encodeDigit (value : Nat) (h : value < 64) :
    digitValue? (encodeDigit value) = some value := by
  have every : ∀ v : Fin 64, digitValue? (encodeDigit v) = some v.val := by decide
  exact every ⟨value, h⟩

/-- Groups of eight bits as groups of six; the last group is filled up with zeros. -/
def sextets : List Nat → List Nat
  | a :: b :: c :: rest =>
    a / 4 :: (a % 4 * 16 + b / 16) :: (b % 16 * 4 + c / 64) :: c % 64 :: sextets rest
  | [a, b] => [a / 4, a % 4 * 16 + b / 16, b % 16 * 4]
  | [a] => [a / 4, a % 4 * 16]
  | [] => []

/-- Groups of six bits as groups of eight; the bits left over have to be zero. -/
def octets : List Nat → Option (List Nat)
  | a :: b :: c :: d :: rest => do
    let others ← octets rest
    pure ((a * 4 + b / 16) :: (b % 16 * 16 + c / 4) :: (c % 4 * 64 + d) :: others)
  | [a, b, c] => if c % 4 = 0 then some [a * 4 + b / 16, b % 16 * 16 + c / 4] else none
  | [a, b] => if b % 16 = 0 then some [a * 4 + b / 16] else none
  | [_] => none
  | [] => some []

def encode (bytes : List UInt8) : List Char :=
  (sextets (bytes.map UInt8.toNat)).map encodeDigit

def decode? (chars : List Char) : Option (List UInt8) := do
  let values ← chars.mapM digitValue?
  let bytes ← octets values
  pure (bytes.map UInt8.ofNat)

end LeafStore.Text.Base64
