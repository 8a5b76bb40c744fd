import LeafStore.Proofs.Patterns
/-!
What a select for candidates says about one row. Its tests of padded columns, of the leaf column and
of a typed column pass exactly if the path of the row fits the pattern and its leaf passes the
operator that was pushed down.
-/
namespace LeafStore

namespace Pattern

theorem accepts_of_getElem? {p : Pattern} {path : Path} (length : p.length = path.length)
    (each : ∀ (i : Nat) step, p[i]? = some step →
      ∃ s, path[i]? = some s ∧ step.accepts s = true) : p.accepts path = true := by
  induction p generalizing path with
  | nil =>
    cases path with
    | nil => rfl
    | cons s path => cases length
  | cons step p ih =>
    cases path with
    | nil => cases length
    | cons s path =>
      obtain ⟨_, here, first⟩ := each 0 step rfl
      cases here
      exact (accepts_cons_iff ..).mpr ⟨first, ih (Nat.succ.inj length) fun i => each (i + 1)⟩

def Named (p : Pattern) : Prop := ∀ s, .exact s ∈ p → s.Valid

theorem read_named {raw : String} {p : Pattern} (ok : read raw = .ok p) : p.Named := by
  intro s hs
  unfold read at ok
  split at ok
  · cases ok
  · obtain ⟨piece, _, step⟩ := mem_of_mapM_eq_ok ok hs
    unfold readStep at step
    split at step
    · cases step
    · obtain ⟨_, found, same⟩ := map_eq_ok (mapError_eq_ok step)
      cases same
      exact Segment.read_valid found

theorem columnTest_empty {step : PatternStep} (named : ∀ s, step = .exact s → s.Valid) :
    step.columnTest.accepts "" = false := by
  cases step with
  | exact s => exact decide_eq_false fun same => Segment.column_ne_empty (named s rfl) same.symm
  | wildcard => exact decide_eq_false (String.lt_irrefl "")

theorem accepts_of_columnTest {step : PatternStep} (named : ∀ s, step = .exact s → s.Valid)
    {segment : Segment} (valid : segment.Valid)
    (passes : step.columnTest.accepts segment.column = true) : step.accepts segment = true := by
  cases step with
  | exact s =>
    have same : segment.column = s.column := of_decide_eq_true passes
    exact decide_eq_true ((Segment.column_inj valid (named s rfl)).mp same).symm
  | wildcard => rfl

theorem getElem?_padded (path : Path) (width i : Nat) : (path.padded width)[i]? =
    if i < path.length then path[i]?.map Segment.column
    else if i < width then some "" else none := by
  rw [Path.padded, List.getElem?_append, Path.columns, List.length_map, List.getElem?_map,
    List.getElem?_replicate]
  grind

/-- The column at each step passes the test of the step, and those after the last step are empty. -/
theorem columnTests_each {p : Pattern} {width : Nat} {columns : List String}
    (passes : ((p.columnTests width).all fun test => test.accepts columns) = true) :
    (∀ (i : Nat) step, p[i]? = some step →
      ∃ column, columns[i]? = some column ∧ step.columnTest.accepts column = true) ∧
    ∀ i, p.length ≤ i → i < width → columns[i]? = some "" := by
  have each : ∀ (i : Nat) test, (p.map PatternStep.columnTest ++
      List.replicate (width - p.length) (ColumnTest.equals ""))[i]? = some test →
        ∃ column, columns[i]? = some column ∧ test.accepts column = true := by
    intro i test there
    have listed : (⟨i, test⟩ : SegmentTest) ∈ p.columnTests width :=
      List.mem_map.mpr ⟨(test, i), List.mem_zipIdx_iff_getElem?.mpr there, rfl⟩
    exact (Option.any_eq_true ..).mp (List.all_eq_true.mp passes _ listed)
  constructor
  · intro i step there
    have inside := (List.getElem?_eq_some_iff.mp there).1
    refine each i _ ?_
    rw [List.getElem?_append_left (by rwa [List.length_map]), List.getElem?_map, there]
    rfl
  · intro i past inside
    obtain ⟨column, here, empty⟩ := each i (.equals "") (by
      rw [List.getElem?_append_right (by rwa [List.length_map]), List.length_map,
        List.getElem?_replicate, if_pos (by omega)])
    rw [here, of_decide_eq_true empty]

theorem accepts_of_columnTests {p : Pattern} (named : p.Named) {path : Path} (valid : path.Valid)
    {width : Nat} (room : p.length ≤ width) (fits : path.length ≤ width)
    (passes : ((p.columnTests width).all fun test => test.accepts (path.padded width)) = true) :
    p.accepts path = true := by
  obtain ⟨steps, rest⟩ := columnTests_each passes
  have each : ∀ (i : Nat) step, p[i]? = some step →
      ∃ s, path[i]? = some s ∧ step.accepts s = true := by
    intro i step there
    have inside := (List.getElem?_eq_some_iff.mp there).1
    have known : ∀ s, step = .exact s → s.Valid := fun s same =>
      named s (same ▸ List.mem_of_getElem? there)
    obtain ⟨column, here, accepted⟩ := steps i step there
    rw [getElem?_padded] at here
    split at here
    · obtain ⟨s, at_, rfl⟩ := Option.map_eq_some_iff.mp here
      exact ⟨s, at_, accepts_of_columnTest known (valid s (List.mem_of_getElem? at_)) accepted⟩
    · rw [if_pos (Nat.lt_of_lt_of_le inside room)] at here
      cases here
      rw [columnTest_empty known] at accepted
      cases accepted
  refine accepts_of_getElem? (Nat.le_antisymm ?_ ?_) each
  · apply Nat.le_of_not_lt
    intro longer
    obtain ⟨_, beyond, _⟩ := each path.length _ (List.getElem?_eq_getElem longer)
    rw [List.getElem?_eq_none (Nat.le_refl _)] at beyond
    cases beyond
  · apply Nat.le_of_not_lt
    intro longer
    have empty := rest p.length (Nat.le_refl _) (Nat.lt_of_lt_of_le longer fits)
    rw [getElem?_padded, if_pos longer, List.getElem?_eq_getElem longer] at empty
    exact Segment.column_ne_empty (valid _ (List.getElem_mem longer)) (Option.some.inj empty)

end Pattern

namespace Condition

/-- The select for candidates accepts the row of a leaf exactly if the path of the leaf fits the
pattern and the leaf passes the operator that was pushed down. -/
theorem candidateSelect_accepts_iff {c : Condition} (named : c.pattern.Named) {width : Nat}
    (room : c.pattern.length ≤ width) {o : Operator} {p : Predicate}
    (pushed : o.pushdown? = some p) {cell : Cell} (valid : cell.path.Valid)
    (fits : cell.path.length ≤ width) :
    (c.candidateSelect width p).accepts (cell.row width) = true ↔
      c.pattern.accepts cell.path = true ∧ o.accepts cell.leaf = true := by
  constructor
  · intro accepted
    simp only [Select.accepts, candidateSelect, Option.all_none, Option.all_some, Bool.true_and,
      Bool.and_eq_true, Operator.pushdown?_accepts pushed] at accepted
    exact ⟨Pattern.accepts_of_columnTests named valid room fits accepted.1.2, accepted.2⟩
  · rintro ⟨path, leaf⟩
    exact candidateSelect_finds pushed valid width path leaf

/-- A condition of a filter with an operator for the store has a select for its candidates. For each
row of a leaf the select decides, without decoding it, whether the path fits the pattern and the
leaf passes the first such operator; so the rows of a document that meets the condition are never
all passed over. -/
theorem candidates_exact (maxDepth : Nat) (raw : String) (filter : Filter)
    (read : Filter.ofText maxDepth raw = .ok filter) (c : Condition) (member : c ∈ filter)
    (pushes : ∃ o ∈ c.operators, o.pushdown?.isSome = true) :
    ∃ select before o after, c.candidates? maxDepth = some select ∧
      c.operators = before ++ o :: after ∧ (∀ other ∈ before, other.pushdown? = none) ∧
      o.pushdown?.isSome = true ∧
      (∀ document path leaf time row, path.Valid →
        Row.encode document path leaf maxDepth time = .ok row →
        ∃ cell, row.decode = .ok cell ∧
          (select.accepts row = true ↔
            c.pattern.accepts cell.path = true ∧ o.accepts cell.leaf = true)) ∧
      ∀ cells rows, (∀ cell ∈ cells, cell.path.Valid) →
        cells.mapM (fun cell => Row.encode cell.document cell.path cell.leaf maxDepth
          cell.writeTime) = .ok rows →
        c.holds cells = true → ∃ row ∈ rows, select.accepts row = true := by
  obtain ⟨_, _, pattern, room, _⟩ := Filter.ofText_reads read c member
  have named := Pattern.read_named pattern
  obtain ⟨p, pushed⟩ : ∃ p, c.pushdown? = some p := by
    rw [← Option.isSome_iff_exists, pushdown?, List.findSome?_isSome_iff]
    exact pushes
  obtain ⟨before, o, after, split, here, none⟩ := List.findSome?_eq_some_iff.mp pushed
  refine ⟨c.candidateSelect maxDepth p, before, o, after, ?_, split, none, ?_, ?_, ?_⟩
  · rw [candidates?, pushed]
    rfl
  · rw [here]
    rfl
  · intro document path leaf time row valid encoded
    obtain ⟨fits, rfl⟩ := (Row.encode_eq_ok_iff ..).mp encoded
    exact ⟨_, Row.decode_row valid maxDepth,
      candidateSelect_accepts_iff named room here valid fits⟩
  · intro cells rows valid encoded holds
    obtain ⟨cell, hc, meets⟩ := List.any_eq_true.mp holds
    obtain ⟨row, hr, here⟩ := exists_mem_of_mapM_eq_ok encoded hc
    obtain ⟨_, rfl⟩ := (Row.encode_eq_ok_iff ..).mp here
    exact ⟨_, hr, candidateSelect_accepts pushed (valid cell hc) maxDepth meets⟩

def Sample.lateTexts : Condition :=
  ⟨[.exact (.field "a"), .wildcard], [.gte (.text "m"), .ne (.text "o")]⟩

theorem candidates_exact_lateTexts :
    Filter.ofText 2 "\x7b\"a.*\":\x7b\"$gte\":\"m\",\"$ne\":\"o\"\x7d\x7d" =
        .ok [Sample.lateTexts] ∧
      ∃ select row, Sample.lateTexts.candidates? 2 = some select ∧
        Row.encode "d" [.field "a", .field "b"] (.text "x") 2 1 = .ok row ∧
        select.accepts row = true := by
  have read : Filter.ofText 2 "\x7b\"a.*\":\x7b\"$gte\":\"m\",\"$ne\":\"o\"\x7d\x7d" =
      .ok [Sample.lateTexts] := eq_ok_of_toOption (by decide +kernel)
  have pushes : ∃ o ∈ Sample.lateTexts.operators, o.pushdown?.isSome = true :=
    ⟨_, List.mem_cons_self .., rfl⟩
  obtain ⟨select, _, _, _, selects, _, _, _, _, candidates⟩ :=
    candidates_exact 2 _ _ read Sample.lateTexts (List.mem_cons_self ..) pushes
  have valid : Path.Valid [.field "a", .field "b"] :=
    Path.ofDotted_valid "a.b" rfl
  obtain ⟨row, there, accepted⟩ :=
    candidates [⟨"d", [.field "a", .field "b"], .text "x", 1⟩] _
      (List.forall_mem_singleton.mpr valid) rfl (by decide)
  exact ⟨read, select, row, selects, by rw [List.mem_singleton.mp there]; rfl, accepted⟩

end Condition

end LeafStore
