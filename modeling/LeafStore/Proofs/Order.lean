import LeafStore.Path
/-!
Segments are in a strict total order, and so are paths. Fields are ordered by their names; all
positions sort between the fields before the bracket and the fields from the bracket on.
-/
namespace LeafStore

namespace Segment

@[simp] theorem lt_irrefl (a : Segment) : ¬ a < a := by
  cases a with
  | field name => exact String.lt_irrefl name
  | index position => exact Fin.lt_irrefl position

theorem lt_asymm {a b : Segment} (h : a < b) : ¬ b < a := by
  cases a with
  | field x =>
    cases b with
    | field y => exact String.lt_asymm h
    | index j => exact fun back => back h
  | index i =>
    cases b with
    | field y => exact fun back => h back
    | index j => exact Fin.lt_asymm h

theorem lt_trans {a b c : Segment} (hab : a < b) (hbc : b < c) : a < c := by
  cases a with
  | field x =>
    cases b with
    | field y =>
      cases c with
      | field z => exact String.lt_trans hab hbc
      | index k => exact String.lt_trans hab hbc
    | index j =>
      cases c with
      | field z =>
        have below : x < "[" := hab
        have above : "[" ≤ z := hbc
        have names : x < z := Std.lt_of_lt_of_le below above
        exact names
      | index k => exact hab
  | index i =>
    cases b with
    | field y =>
      cases c with
      | field z => exact fun back => hab (String.lt_trans hbc back)
      | index k => exact absurd hbc hab
    | index j =>
      cases c with
      | field z => exact hbc
      | index k => exact Fin.lt_trans hab hbc

theorem lt_trichotomy (a b : Segment) (hab : ¬ a < b) (hba : ¬ b < a) : a = b := by
  cases a with
  | field x =>
    cases b with
    | field y => exact congrArg field (String.le_antisymm hba hab)
    | index j => exact absurd hab hba
  | index i =>
    cases b with
    | field y => exact absurd hba hab
    | index j => exact congrArg index (Fin.le_antisymm (Fin.not_lt.mp hba) (Fin.not_lt.mp hab))

instance : Std.Irrefl (α := Segment) (· < ·) := ⟨lt_irrefl⟩

instance : Std.Asymm (α := Segment) (· < ·) := ⟨fun _ _ => lt_asymm⟩

instance : Trans (α := Segment) (· < ·) (· < ·) (· < ·) := ⟨lt_trans⟩

instance : Std.Trichotomous (α := Segment) (· < ·) := ⟨lt_trichotomy⟩

end Segment

theorem Path.not_lt_trans {p q r : Path} (hpq : ¬ q < p) (hqr : ¬ r < q) : ¬ r < p := by
  intro less
  rcases List.le_iff_lt_or_eq.mp hpq with before | same
  · exact hqr (List.lt_trans less before)
  · exact hqr (same ▸ less)

end LeafStore
