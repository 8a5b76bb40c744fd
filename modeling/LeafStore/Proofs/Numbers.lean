import LeafStore.Json
/-!
Doubles that are whole numbers. Integers of up to 53 bits are doubles themselves, and exactly these
doubles become integers again.
-/
namespace LeafStore

namespace Double

def IsInt : Double → Int → Prop
  | nan, _ => False
  | signed negative rank, n =>
    rank < infinityRank ∧
      significand rank * 2 ^ (exponent rank).toNat = n.natAbs * 2 ^ (-exponent rank).toNat ∧
      if negative then n ≤ 0 else 0 ≤ n

theorem wholeMagnitude?_eq_some_iff (rank m : Nat) :
    wholeMagnitude? rank = some m ↔
      significand rank * 2 ^ (exponent rank).toNat = m * 2 ^ (-exponent rank).toNat := by
  unfold wholeMagnitude?
  dsimp only
  split
  · rename_i up
    have none : (-exponent rank).toNat = 0 := by omega
    rw [none, Nat.pow_zero, Nat.mul_one, Option.some.injEq]
  · rename_i down
    have none : (exponent rank).toNat = 0 := by omega
    have positive : 0 < 2 ^ (-exponent rank).toNat := Nat.two_pow_pos _
    rw [none, Nat.pow_zero, Nat.mul_one]
    split
    · rename_i whole
      have divides := Nat.div_mul_cancel (Nat.dvd_of_mod_eq_zero whole)
      rw [Option.some.injEq]
      constructor
      · rintro rfl
        exact divides.symm
      · intro same
        rw [same, Nat.mul_div_cancel _ positive]
    · rename_i broken
      constructor
      · intro h
        cases h
      · intro same
        exact absurd (by rw [same, Nat.mul_mod_left]) broken

theorem toInt?_eq_some_iff (d : Double) (n : Int) :
    d.toInt? = some n ↔ d.IsInt n ∧ n.natAbs ≤ exactIntegerBound := by
  cases d with
  | nan => simp [toInt?, IsInt]
  | signed negative rank =>
    simp only [toInt?, IsInt]
    split
    · rename_i infinite
      simp [Nat.not_lt.mpr infinite]
    · rename_i finite
      rw [← wholeMagnitude?_eq_some_iff]
      cases wholeMagnitude? rank with
      | none => simp
      | some m =>
        cases negative <;> simp only [Option.some.injEq] <;> split <;> simp <;> omega

theorem gridExponent_one {m : Nat} (positive : m ≠ 0) :
    gridExponent m 1 = (m.log2 : Int) - 52 := by
  have reached : 1 * 2 ^ m.log2 ≤ m * 1 := by
    simpa using Nat.log2_self_le positive
  have one : ((1 : Nat).log2 : Int) = 0 := rfl
  have up : ((m.log2 : Int) - 0).toNat = m.log2 := by omega
  have down : (-((m.log2 : Int) - 0)).toNat = 0 := by omega
  simp only [gridExponent, one, up, down, Nat.pow_zero, if_pos reached]
  omega

theorem significand_grid {e s : Nat} (low : 2 ^ 52 ≤ s) (high : s < 2 ^ 53) :
    significand (e * 2 ^ 52 + s) = s ∧ exponent (e * 2 ^ 52 + s) = (e : Int) - 1074 := by
  have large : ¬ e * 2 ^ 52 + s < 2 ^ 52 := by omega
  have rest : (e * 2 ^ 52 + s) % 2 ^ 52 = s - 2 ^ 52 := by omega
  have whole : (e * 2 ^ 52 + s) / 2 ^ 52 = e + 1 := by omega
  unfold significand exponent
  rw [if_neg large, if_neg large, rest, whole]
  omega

@[simp] theorem roundQuotient_one (n : Nat) : roundQuotient n 1 = n := by
  simp [roundQuotient, Nat.mod_one]

theorem shifted_bounds {m : Nat} (positive : m ≠ 0) (small : m < 2 ^ 53) :
    2 ^ 52 ≤ m * 2 ^ (52 - m.log2) ∧ m * 2 ^ (52 - m.log2) < 2 ^ 53 := by
  have log : m.log2 < 53 := (Nat.log2_lt positive).mpr small
  constructor
  · calc 2 ^ 52 = 2 ^ m.log2 * 2 ^ (52 - m.log2) := by rw [← Nat.pow_add]; congr 1; omega
      _ ≤ m * 2 ^ (52 - m.log2) := Nat.mul_le_mul_right _ (Nat.log2_self_le positive)
  · calc m * 2 ^ (52 - m.log2) < 2 ^ (m.log2 + 1) * 2 ^ (52 - m.log2) :=
          Nat.mul_lt_mul_of_pos_right Nat.lt_log2_self (Nat.two_pow_pos _)
      _ = 2 ^ 53 := by rw [← Nat.pow_add]; congr 1; omega

theorem nearestRank_small {m : Nat} (positive : m ≠ 0) (small : m < 2 ^ 53) :
    nearestRank m 1 = (1022 + m.log2) * 2 ^ 52 + m * 2 ^ (52 - m.log2) := by
  have log : m.log2 < 53 := (Nat.log2_lt positive).mpr small
  have up : ((m.log2 : Int) - 52).toNat = 0 := by omega
  have down : (-((m.log2 : Int) - 52)).toNat = 52 - m.log2 := by omega
  have step : ((m.log2 : Int) - 52 + 1074).toNat = 1022 + m.log2 := by omega
  have bounds := shifted_bounds positive small
  simp only [nearestRank, if_neg positive, gridExponent_one positive, up, down, step,
    Nat.pow_zero, Nat.one_mul, roundQuotient_one]
  refine Nat.min_eq_right ?_
  unfold infinityRank
  omega

theorem isInt_ofInt {n : Int} (small : n.natAbs ≤ exactIntegerBound) : (ofInt n).IsInt n := by
  have sign : if decide (n < 0) then n ≤ 0 else 0 ≤ n := by
    by_cases negative : n < 0
    · simp [negative]
      omega
    · simp [negative]
      omega
  refine (?_ : nearestRank n.natAbs 1 < infinityRank ∧ _ ∧ _)
  rcases Nat.eq_zero_or_pos n.natAbs with zero | positive
  · rw [zero]
    have none : significand (nearestRank 0 1) = 0 := rfl
    exact ⟨by decide, by rw [none, Nat.zero_mul, Nat.zero_mul], sign⟩
  · rcases Nat.lt_or_eq_of_le small with less | top
    · have positive := Nat.ne_of_gt positive
      have log : n.natAbs.log2 < 53 := (Nat.log2_lt positive).mpr less
      obtain ⟨low, high⟩ := shifted_bounds positive less
      obtain ⟨significand, exponent⟩ := significand_grid (e := 1022 + n.natAbs.log2) low high
      rw [nearestRank_small positive less, significand, exponent]
      have up : (((1022 + n.natAbs.log2 : Nat) : Int) - 1074).toNat = 0 := by omega
      have down : (-(((1022 + n.natAbs.log2 : Nat) : Int) - 1074)).toNat = 52 - n.natAbs.log2 := by
        omega
      refine ⟨?_, ?_, sign⟩
      · unfold infinityRank
        omega
      · rw [up, down, Nat.pow_zero, Nat.mul_one]
    · rw [top]
      exact ⟨by decide +kernel, by decide +kernel, sign⟩

theorem toInt?_ofInt {n : Int} (small : n.natAbs ≤ exactIntegerBound) :
    (ofInt n).toInt? = some n :=
  (toInt?_eq_some_iff _ n).mpr ⟨isInt_ofInt small, small⟩

end Double

namespace Json

/-- A double is rendered as an integer exactly if it is one of up to 53 bits. -/
theorem ofDouble_eq_int_iff (d : Double) (n : Int) :
    ofDouble d = .int n ↔ d.IsInt n ∧ n.natAbs ≤ Double.exactIntegerBound := by
  rw [← Double.toInt?_eq_some_iff]
  unfold ofDouble
  split
  · rename_i m value
    simp [value]
  · rename_i value
    split <;> simp [value]

end Json

end LeafStore
