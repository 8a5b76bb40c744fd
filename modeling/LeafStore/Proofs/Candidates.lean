import LeafStore.Plan
import LeafStore.Proofs.Reshaping
import LeafStore.Proofs.Rows
/-!
Selects for candidates. The row of every leaf that meets a condition passes the select that narrows
down the candidates of the condition.
-/
namespace LeafStore

namespace Operator

theorem order?_marker (s : Scalar) {leaf : Leaf} (marker : leaf.isMarker = true) :
    s.order? leaf = none := by
  cases leaf with
  | emptyObject | emptyArray => cases s <;> rfl
  | _ => cases marker

theorem pushdown?_ordered {o : Operator} {p : Predicate} (pushed : o.pushdown? = some p)
    {comparison : Comparison} {s : Scalar} (compares : o.comparison? = some (comparison, s)) :
    comparison = .eq ∨ s.isOrdered = true := by
  unfold pushdown? at pushed
  rw [compares] at pushed
  cases s with
  | text | number => exact .inr rfl
  | bool b =>
    cases comparison with
    | eq => exact .inl rfl
    | _ => cases pushed
  | null => cases comparison <;> cases pushed

theorem comparison?_accepts {o : Operator} {comparison : Comparison} {s : Scalar}
    (compares : o.comparison? = some (comparison, s))
    (ordered : comparison = .eq ∨ s.isOrdered = true) (leaf : Leaf) :
    o.acceptsScalar leaf = (s.order? leaf).any comparison.holds := by
  cases o with
  | eq operand =>
    cases compares
    show decide (s.order? leaf = some .eq) = _
    cases s.order? leaf <;> simp [Comparison.holds]
  | gt operand | gte operand | lt operand | lte operand =>
    cases compares
    show (s.isOrdered && _) = _
    rw [ordered.resolve_left (fun other => by cases other), Bool.true_and]
  | ne operand | isIn operands | notIn operands => cases compares

theorem pushdown?_order {o : Operator} {p : Predicate} (pushed : o.pushdown? = some p) :
    ∃ s, o.comparison? = some (p.comparison, s) ∧
      ∀ (cell : Cell) (width : Nat), p.order? (cell.row width) = s.order? cell.leaf := by
  have columns : ∀ (cell : Cell) (width : Nat) (comparison : Comparison),
      (∀ t, Predicate.order? ⟨comparison, .text t⟩ (cell.row width) =
        (Scalar.text t).order? cell.leaf) ∧
      (∀ d, Predicate.order? ⟨comparison, .number d⟩ (cell.row width) =
        (Scalar.number d).order? cell.leaf) ∧
      ∀ b, Predicate.order? ⟨comparison, .bool b⟩ (cell.row width) =
        (Scalar.bool b).order? cell.leaf := by
    intro cell width comparison
    obtain ⟨document, path, leaf, writeTime⟩ := cell
    cases leaf <;> exact ⟨fun _ => rfl, fun _ => rfl, fun _ => rfl⟩
  unfold pushdown? at pushed
  split at pushed
  · rename_i comparison t compares
    cases pushed
    exact ⟨.text t, compares, fun cell width => (columns cell width comparison).1 t⟩
  · rename_i comparison d compares
    cases pushed
    exact ⟨.number d, compares, fun cell width => (columns cell width comparison).2.1 d⟩
  · rename_i b compares
    cases pushed
    exact ⟨.bool b, compares, fun cell width => (columns cell width .eq).2.2 b⟩
  · cases pushed

/-- The store evaluates a predicate exactly as the operator that it was pushed down for. -/
theorem pushdown?_accepts {o : Operator} {p : Predicate} (pushed : o.pushdown? = some p)
    (cell : Cell) (width : Nat) : p.accepts (cell.row width) = o.accepts cell.leaf := by
  obtain ⟨s, compares, order⟩ := pushdown?_order pushed
  rw [Predicate.accepts, order, accepts,
    comparison?_accepts compares (pushdown?_ordered pushed compares)]
  cases marker : cell.leaf.isMarker with
  | false => rfl
  | true =>
    rw [order?_marker s marker]
    rfl

end Operator

namespace Pattern

@[simp] theorem accepts_cons_iff (step : PatternStep) (p : Pattern) (s : Segment) (path : Path) :
    accepts (step :: p) (s :: path) = true ↔ step.accepts s = true ∧ p.accepts path = true := by
  rw [accepts, Bool.and_eq_true]

theorem accepts_length {p : Pattern} {path : Path} (h : p.accepts path = true) :
    p.length = path.length := by
  induction p generalizing path with
  | nil =>
    cases path with
    | nil => rfl
    | cons s path => cases h
  | cons step p ih =>
    cases path with
    | nil => cases h
    | cons s path =>
      rw [accepts_cons_iff] at h
      rw [List.length_cons, List.length_cons, ih h.2]

theorem accepts_getElem? {p : Pattern} {path : Path} (h : p.accepts path = true) {i : Nat}
    {step : PatternStep} (there : p[i]? = some step) :
    ∃ s, path[i]? = some s ∧ step.accepts s = true := by
  induction p generalizing path i with
  | nil => cases there
  | cons first p ih =>
    cases path with
    | nil => cases h
    | cons s path =>
      rw [accepts_cons_iff] at h
      cases i with
      | zero =>
        cases there
        exact ⟨s, rfl, h.1⟩
      | succ i => exact ih h.2 there

theorem columnTest_accepts {step : PatternStep} {s : Segment} (valid : s.Valid)
    (h : step.accepts s = true) : step.columnTest.accepts s.column = true := by
  cases step with
  | exact expected =>
    have same : expected = s := of_decide_eq_true h
    simp [PatternStep.columnTest, ColumnTest.accepts, same]
  | wildcard =>
    refine decide_eq_true (?_ : "" < s.column)
    show "".toList < s.column.toList
    cases chars : s.column.toList with
    | nil => exact absurd (String.toList_eq_nil_iff.mp chars) (Segment.column_ne_empty valid)
    | cons c rest => exact List.Lex.nil

theorem columnTests_accept {p : Pattern} {path : Path} (h : p.accepts path = true)
    (valid : path.Valid) (width : Nat) :
    ((p.columnTests width).all fun test => test.accepts (path.padded width)) = true := by
  have length := accepts_length h
  refine List.all_eq_true.mpr fun test there => ?_
  obtain ⟨⟨column, position⟩, found, rfl⟩ := List.mem_map.mp there
  have found : (p.map PatternStep.columnTest ++
      List.replicate (width - p.length) (ColumnTest.equals ""))[position]? = some column :=
    List.mem_zipIdx_iff_getElem?.mp found
  unfold SegmentTest.accepts Path.padded
  by_cases inside : position < p.length
  · rw [List.getElem?_append_left (by simpa using inside), List.getElem?_map,
      Option.map_eq_some_iff] at found
    obtain ⟨step, stepAt, rfl⟩ := found
    obtain ⟨s, here, fitting⟩ := accepts_getElem? h stepAt
    have member : s ∈ path := List.mem_of_getElem? here
    rw [List.getElem?_append_left (by simp [Path.columns, ← length, inside]), Path.columns,
      List.getElem?_map, here]
    exact columnTest_accepts (valid s member) fitting
  · rw [List.getElem?_append_right (by simpa using inside), List.length_map,
      List.getElem?_replicate] at found
    split at found
    · rename_i past
      cases found
      rw [List.getElem?_append_right (by simp [Path.columns, ← length]; omega), Path.columns,
        List.length_map, ← length, List.getElem?_replicate, if_pos past]
      rfl
    · cases found

end Pattern

namespace Condition

theorem lastColumn?_eq {p : Pattern} {column : String} (last : p.lastColumn? = some column)
    {path : Path} (h : p.accepts path = true) : path.getLast?.map Segment.column = some column := by
  unfold Pattern.lastColumn? at last
  obtain ⟨s, found, rfl⟩ := Option.map_eq_some_iff.mp last
  obtain ⟨step, there, exact⟩ := Option.bind_eq_some_iff.mp found
  rw [List.getLast?_eq_getElem?, Pattern.accepts_length h] at there
  obtain ⟨t, here, fitting⟩ := Pattern.accepts_getElem? h there
  rw [List.getLast?_eq_getElem?, here]
  cases step with
  | wildcard => cases exact
  | exact expected =>
    cases exact
    have same : s = t := of_decide_eq_true fitting
    rw [same]
    rfl

theorem value_accepts {c : Condition} {p : Predicate} (pushed : c.pushdown? = some p) {cell : Cell}
    (meets : c.accepts cell = true) (width : Nat) : p.accepts (cell.row width) = true := by
  obtain ⟨o, member, pushes⟩ := List.exists_of_findSome?_eq_some pushed
  have operators := (Bool.and_eq_true_iff.mp meets).2
  rw [Operator.pushdown?_accepts pushes]
  exact List.all_eq_true.mp operators o member

theorem isMarker_of_passes {o : Operator} {leaf : Leaf} (passes : o.accepts leaf = true) :
    leaf.isMarker = false := by
  unfold Operator.accepts at passes
  simpa using (Bool.and_eq_true_iff.mp passes).1

theorem isMarker_of_accepts {c : Condition} (filled : c.operators ≠ []) {cell : Cell}
    (meets : c.accepts cell = true) : cell.leaf.isMarker = false := by
  obtain ⟨o, member⟩ := List.exists_mem_of_ne_nil _ filled
  exact isMarker_of_passes (List.all_eq_true.mp (Bool.and_eq_true_iff.mp meets).2 o member)

theorem leaf_accepts {p : Pattern} {cell : Cell} (scalar : cell.leaf.isMarker = false)
    (fits : p.accepts cell.path = true) (width : Nat) :
    p.lastColumn?.all (· = (cell.row width).leaf) = true := by
  cases last : p.lastColumn? with
  | none => rfl
  | some column =>
    have same : (cell.row width).leaf = column := by
      have found := lastColumn?_eq last fits
      obtain ⟨document, path, leaf, writeTime⟩ := cell
      cases leaf with
      | emptyObject => cases scalar
      | emptyArray => cases scalar
      | _ => exact congrArg (Option.getD · "") found
    simp [same]

theorem candidateSelect_finds {c : Condition} {o : Operator} {p : Predicate}
    (pushed : o.pushdown? = some p) {cell : Cell} (valid : cell.path.Valid) (width : Nat)
    (fits : c.pattern.accepts cell.path = true) (passes : o.accepts cell.leaf = true) :
    (c.candidateSelect width p).accepts (cell.row width) = true := by
  have columns := Pattern.columnTests_accept fits valid width
  have leaf := leaf_accepts (isMarker_of_passes passes) fits width
  simp only [Select.accepts, candidateSelect, Option.all_none, Option.all_some, Bool.true_and,
    Bool.and_eq_true, Operator.pushdown?_accepts pushed]
  exact ⟨⟨leaf, columns⟩, passes⟩

/-- The select for the candidates of a condition finds the row of every leaf that meets it. -/
theorem candidateSelect_accepts {c : Condition} {p : Predicate} (pushed : c.pushdown? = some p)
    {cell : Cell} (valid : cell.path.Valid) (width : Nat) (meets : c.accepts cell = true) :
    (c.candidateSelect width p).accepts (cell.row width) = true := by
  obtain ⟨o, member, pushes⟩ := List.exists_of_findSome?_eq_some pushed
  obtain ⟨fits, operators⟩ := Bool.and_eq_true_iff.mp meets
  exact candidateSelect_finds pushes valid width fits (List.all_eq_true.mp operators o member)

end Condition

end LeafStore
