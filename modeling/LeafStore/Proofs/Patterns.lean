import LeafStore.Matches
import LeafStore.Proofs.Candidates
import LeafStore.Proofs.Results
/-!
Patterns of conditions. A pattern that was read has a step, and the paths that fit it all begin with
its steps before the first open one. A filter is read member by member, each as a condition about a
pattern of its own.
-/
namespace LeafStore

theorem Path.splitPoints_ne_nil (chars : List Char) : splitPoints chars ≠ [] := by
  cases chars with
  | nil => exact List.cons_ne_nil _ _
  | cons c rest =>
    unfold splitPoints
    split
    · exact List.cons_ne_nil _ _
    · split <;> exact List.cons_ne_nil _ _

namespace Pattern

theorem read_ne_nil {raw : String} {p : Pattern} (ok : read raw = .ok p) : p ≠ [] := by
  unfold read at ok
  split at ok
  · cases ok
  · rintro rfl
    cases pieces : Path.pieces raw with
    | nil => exact Path.splitPoints_ne_nil _ (List.map_eq_nil_iff.mp pieces)
    | cons piece rest =>
      rw [pieces, List.mapM_cons] at ok
      obtain ⟨_, _, ok⟩ := bind_eq_ok ok
      obtain ⟨_, _, ok⟩ := bind_eq_ok ok
      cases ok

theorem parent_under {p : Pattern} (filled : p ≠ []) (base : Path) :
    (p.under base).parent = p.parent.under base := by
  rw [parent, under, List.dropLast_append_of_ne_nil filled]
  rfl

@[simp] theorem under_cons (s : Segment) (base : Path) (p : Pattern) :
    under (s :: base) p = .exact s :: under base p := rfl

@[simp] theorem fixedPart_under (base : Path) (p : Pattern) :
    (p.under base).fixedPart = base ++ p.fixedPart := by
  induction base with
  | nil => rfl
  | cons s base ih => exact congrArg (List.cons s) ih

theorem accepts_under (base : Path) (p : Pattern) (path : Path) :
    (p.under base).accepts path = true ↔ ∃ rest, path = base ++ rest ∧ p.accepts rest = true := by
  induction base generalizing path with
  | nil => simp [under]
  | cons s base ih =>
    cases path with
    | nil => simp [under, accepts]
    | cons t path =>
      rw [under_cons, accepts_cons_iff, PatternStep.accepts, decide_eq_true_eq, ih]
      constructor
      · rintro ⟨rfl, rest, rfl, fits⟩
        exact ⟨rest, rfl, fits⟩
      · rintro ⟨rest, same, fits⟩
        obtain ⟨rfl, rfl⟩ := List.cons.inj same
        exact ⟨rfl, rest, rfl, fits⟩

theorem accepts_parent {p : Pattern} {path : Path} (fits : p.accepts path = true) :
    p.parent.accepts path.parent = true := by
  induction p generalizing path with
  | nil =>
    cases path with
    | nil => rfl
    | cons s path => cases fits
  | cons step p ih =>
    cases path with
    | nil => cases fits
    | cons s path =>
      rw [accepts_cons_iff] at fits
      obtain ⟨first, rest⟩ := fits
      have length := accepts_length rest
      cases p with
      | nil =>
        cases path with
        | nil => rfl
        | cons t path => cases length
      | cons next p =>
        cases path with
        | nil => cases length
        | cons t path =>
          exact (accepts_cons_iff ..).mpr ⟨first, ih rest⟩

theorem fixedPart_prefix {p : Pattern} {path : Path} (fits : p.accepts path = true) :
    p.fixedPart <+: path := by
  induction p generalizing path with
  | nil => exact List.nil_prefix
  | cons step p ih =>
    cases path with
    | nil => cases fits
    | cons s path =>
      rw [accepts_cons_iff] at fits
      cases step with
      | wildcard => exact List.nil_prefix
      | exact expected =>
        have same : expected = s := of_decide_eq_true fits.1
        show expected :: fixedPart p <+: s :: path
        exact List.cons_prefix_cons.mpr ⟨same, ih fits.2⟩

end Pattern

namespace Filter

theorem readOperators_ne_nil {raw : String} {json : Json} {operators : List Operator}
    (ok : readOperators raw json = .ok operators) : operators ≠ [] := by
  rintro rfl
  unfold readOperators at ok
  split at ok
  · cases ok
  · rename_i members filled
    obtain ⟨member, rest, rfl⟩ := List.exists_cons_of_ne_nil filled
    rw [List.mapM_cons] at ok
    obtain ⟨_, _, ok⟩ := bind_eq_ok ok
    obtain ⟨_, _, ok⟩ := bind_eq_ok ok
    cases ok
  · cases ok

structure ReadFrom (maxDepth : Nat) (member : String × Json) (c : Condition) : Prop where
  pattern : Pattern.read member.1 = .ok c.pattern
  shallow : c.pattern.length ≤ maxDepth
  operators : readOperators member.1 member.2 = .ok c.operators

/-- A condition that was read: from a path that is not too deep and from an object of operators. -/
def Reads (maxDepth : Nat) (c : Condition) : Prop :=
  ∃ raw operators, Pattern.read raw = .ok c.pattern ∧ c.pattern.length ≤ maxDepth ∧
    readOperators raw operators = .ok c.operators

theorem ReadFrom.reads {maxDepth : Nat} {member : String × Json} {c : Condition}
    (h : ReadFrom maxDepth member c) : Reads maxDepth c :=
  ⟨member.1, member.2, h.pattern, h.shallow, h.operators⟩

theorem admitPattern_eq_ok_iff {maxDepth : Nat} {seen : Filter} {raw : String} {p : Pattern} :
    admitPattern maxDepth seen raw p = .ok () ↔
      p.length ≤ maxDepth ∧ p ∉ seen.map (·.pattern) := by
  have known : seen.any (·.pattern = p) = true ↔ p ∈ seen.map (·.pattern) := by simp
  unfold admitPattern
  split
  · rename_i deep
    exact ⟨fun refused => (by cases refused), fun h => absurd h.1 (Nat.not_le.mpr deep)⟩
  · rename_i shallow
    split
    · rename_i repeated
      exact ⟨fun refused => (by cases refused), fun h => absurd (known.mp repeated) h.2⟩
    · rename_i fresh
      exact ⟨fun _ => ⟨Nat.not_lt.mp shallow, mt known.mpr fresh⟩, fun _ => rfl⟩

theorem readCondition_eq_ok_iff {maxDepth : Nat} {seen f : Filter} {raw : String}
    {operators : Json} :
    readCondition maxDepth seen raw operators = .ok f ↔
      ∃ c, ReadFrom maxDepth (raw, operators) c ∧ c.pattern ∉ seen.map (·.pattern) ∧
        f = seen ++ [c] := by
  constructor
  · intro ok
    obtain ⟨pattern, read, ok⟩ := bind_eq_ok ok
    obtain ⟨_, admitted, ok⟩ := bind_eq_ok ok
    obtain ⟨found, operands, ok⟩ := bind_eq_ok ok
    obtain ⟨shallow, fresh⟩ := admitPattern_eq_ok_iff.mp admitted
    exact ⟨⟨pattern, found⟩, ⟨read, shallow, operands⟩, fresh, (Except.ok.inj ok).symm⟩
  · rintro ⟨c, ⟨read, shallow, operands⟩, fresh, rfl⟩
    have admitted : admitPattern maxDepth seen raw c.pattern = .ok () :=
      admitPattern_eq_ok_iff.mpr ⟨shallow, fresh⟩
    simp only [readCondition, read, operands, ok_bind, admitted]
    rfl

theorem foldlM_readCondition_eq_ok_iff {maxDepth : Nat} {members : List (String × Json)}
    {seen f : Filter} (distinct : (seen.map (·.pattern)).Nodup) :
    members.foldlM (fun seen member => readCondition maxDepth seen member.1 member.2) seen = .ok f ↔
      ∃ added, List.Forall₂ (ReadFrom maxDepth) members added ∧
        ((seen ++ added).map (·.pattern)).Nodup ∧ f = seen ++ added := by
  -- What was read before grows, and its patterns stay distinct.
  induction members generalizing seen with
  | nil =>
    constructor
    · intro ok
      cases ok
      exact ⟨[], .nil, by rwa [List.append_nil], (List.append_nil _).symm⟩
    · rintro ⟨added, none, -, rfl⟩
      cases none
      rw [List.append_nil]
      rfl
  | cons member rest ih =>
    have extend : ∀ c : Condition, c.pattern ∉ seen.map (·.pattern) →
        ((seen ++ [c]).map (·.pattern)).Nodup := by
      intro c fresh
      rw [List.map_append]
      refine List.nodup_append.mpr ⟨distinct, List.pairwise_singleton _ _, fun p old q new => ?_⟩
      rw [List.mem_singleton.mp new]
      rintro rfl
      exact fresh old
    rw [List.foldlM_cons]
    constructor
    · intro ok
      obtain ⟨middle, here, ok⟩ := bind_eq_ok ok
      obtain ⟨c, read, fresh, rfl⟩ := readCondition_eq_ok_iff.mp here
      obtain ⟨added, others, apart, rfl⟩ := (ih (extend c fresh)).mp ok
      rw [List.append_assoc, List.singleton_append] at apart ⊢
      exact ⟨c :: added, .cons read others, apart, rfl⟩
    · rintro ⟨added, all, apart, rfl⟩
      obtain ⟨c, others, read, there, rfl⟩ := List.forall₂_cons_left_iff.mp all
      have fresh : c.pattern ∉ seen.map (·.pattern) := by
        rw [List.map_append] at apart
        exact fun old => (List.nodup_append.mp apart).2.2 _ old _ (List.mem_cons_self ..) rfl
      have here : readCondition maxDepth seen member.1 member.2 = .ok (seen ++ [c]) :=
        readCondition_eq_ok_iff.mpr ⟨c, read, fresh, rfl⟩
      rw [here]
      refine (ih (extend c fresh)).mpr ⟨others, there, ?_⟩
      rw [List.append_assoc, List.singleton_append]
      exact ⟨apart, rfl⟩

/-- A filter is an object, and each of its members is a condition about a pattern of its own. -/
theorem ofJson_eq_ok_iff {maxDepth : Nat} {json : Json} {f : Filter} :
    ofJson maxDepth json = .ok f ↔
      ∃ members, json = .object members ∧ List.Forall₂ (ReadFrom maxDepth) members f ∧
        (f.map (·.pattern)).Nodup := by
  cases json with
  | object members =>
    refine (@foldlM_readCondition_eq_ok_iff maxDepth members [] f List.nodup_nil).trans ⟨?_, ?_⟩
    · rintro ⟨added, all, apart, rfl⟩
      exact ⟨members, rfl, all, apart⟩
    · rintro ⟨_, same, all, apart⟩
      cases same
      exact ⟨f, all, apart, rfl⟩
  | _ => exact ⟨fun refused => (by cases refused), fun ⟨_, same, _⟩ => (by cases same)⟩

theorem ofText_reads {maxDepth : Nat} {raw : String} {f : Filter}
    (ok : ofText maxDepth raw = .ok f) : ∀ c ∈ f, Reads maxDepth c := by
  obtain ⟨json, _, ok⟩ := bind_eq_ok ok
  obtain ⟨members, _, all, _⟩ := ofJson_eq_ok_iff.mp ok
  intro c hc
  obtain ⟨member, _, read⟩ := exists_of_forall₂ all hc
  exact read.reads

theorem ofText_ne_nil {maxDepth : Nat} {raw : String} {f : Filter}
    (ok : ofText maxDepth raw = .ok f) : ∀ c ∈ f, c.pattern ≠ [] ∧ c.operators ≠ [] := by
  intro c hc
  obtain ⟨_, _, read, _, operands⟩ := ofText_reads ok c hc
  exact ⟨Pattern.read_ne_nil read, readOperators_ne_nil operands⟩

end Filter

namespace Select

theorem below_accepts_iff (document : String) (path : Path) (row : Row) :
    ((ofDocument document).below path).accepts row = true ↔
      document = row.document ∧ path.columns <+: row.segments := by
  have tests : (pathTests path).all (·.accepts row.segments) = true ↔
      path.columns <+: row.segments := by
    rw [List.all_eq_true, List.prefix_iff_getElem?]
    constructor
    · intro each i inside
      have there := each ⟨i, .equals path.columns[i]⟩ (List.mem_map.mpr ⟨(path.columns[i], i),
        List.mem_zipIdx_iff_getElem?.mpr (List.getElem?_eq_getElem inside), rfl⟩)
      simp only [SegmentTest.accepts, ColumnTest.accepts, Option.any_eq_true_iff_get] at there
      obtain ⟨some, same⟩ := there
      rw [← of_decide_eq_true same, Option.some_get]
    · intro each test there
      obtain ⟨⟨column, i⟩, found, rfl⟩ := List.mem_map.mp there
      have here : path.columns[i]? = some column := List.mem_zipIdx_iff_getElem?.mp found
      obtain ⟨inside, same⟩ := List.getElem?_eq_some_iff.mp here
      simp [SegmentTest.accepts, ColumnTest.accepts, each i inside, same]
  simp only [accepts, below, ofDocument, Option.all_some, Option.all_none, Bool.and_true,
    List.nil_append, Bool.and_eq_true, decide_eq_true_eq, tests]

end Select

namespace MatchQuery

theorem narrow_accepts (c : Condition) {s : Select} (leaf : s.leaf = none) (value : s.value = none)
    (row : Row) : (narrow c s).accepts row =
      (s.accepts row && c.pattern.lastColumn?.all (· = row.leaf) &&
        c.pushdown?.all (·.accepts row)) := by
  unfold narrow
  cases c.pattern.lastColumn? <;> cases c.pushdown? <;>
    simp [Select.accepts, Select.withLeaf, Select.withValue, leaf, value, Bool.and_comm,
      Bool.and_assoc, Bool.and_left_comm]

theorem below_of_select {q : MatchQuery} {document : String} {row : Row}
    (found : (q.select document).accepts row = true) :
    ((Select.ofDocument document).below q.parent.fixedPart).accepts row = true := by
  unfold select at found
  split at found
  · rw [narrow_accepts _ rfl rfl] at found
    simp only [Bool.and_eq_true] at found
    exact found.1.1
  · exact found

theorem resuming_eq_ok {base : Path} {filter : Filter} {fields : Option Projection} {pageSize : Nat}
    {token : Option String} {q : MatchQuery}
    (ok : resuming base filter fields pageSize token = .ok q) :
    filter ≠ [] ∧ token.mapM readToken = .ok q.after ∧
      q = ⟨base, filter.under base, q.parent, fields, pageSize, q.after⟩ ∧
      ∀ c ∈ filter.under base, c.pattern.parent = q.parent := by
  obtain ⟨after, read, ok⟩ := bind_eq_ok ok
  obtain ⟨parent, shared, ok⟩ := bind_eq_ok ok
  cases ok
  cases filter with
  | nil => cases shared
  | cons first others =>
    refine ⟨List.cons_ne_nil _ _, read, rfl, ?_⟩
    unfold Filter.under List.map sharedParent at shared
    dsimp only at shared
    split at shared
    · rename_i same
      cases shared
      exact List.forall_mem_cons.mpr ⟨rfl, fun c hc => of_decide_eq_true (List.all_eq_true.mp same c hc)⟩
    · cases shared

/-- A search for a filter that was read reads only what lies below its base. -/
theorem below_base {base : Path} {filter : Filter} {fields : Option Projection} {pageSize : Nat}
    {token : Option String} {q : MatchQuery} {document : String} {row : Row}
    (ok : resuming base filter fields pageSize token = .ok q)
    (steps : ∀ c ∈ filter, c.pattern ≠ []) (found : (q.select document).accepts row = true) :
    ((Select.ofDocument document).below base).accepts row = true := by
  obtain ⟨filled, _, _, parents⟩ := resuming_eq_ok ok
  obtain ⟨c, hc⟩ := List.exists_mem_of_ne_nil _ filled
  have parent := parents (c.under base) (List.mem_map.mpr ⟨c, hc, rfl⟩)
  obtain ⟨owner, leads⟩ := (Select.below_accepts_iff ..).mp (below_of_select found)
  refine (Select.below_accepts_iff ..).mpr ⟨owner, ?_⟩
  rw [← parent, Condition.under, Pattern.parent_under (steps c hc), Pattern.fixedPart_under,
    Path.columns, List.map_append] at leads
  exact (List.prefix_append _ _).trans leads

end MatchQuery

end LeafStore
