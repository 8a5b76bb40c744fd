import LeafStore.Proofs.ArrayLengths
import LeafStore.Proofs.RowSets
import Mathlib.Data.List.Induction
/-!
Subtrees. The value of the rows below a path is the one that the path leads to in the value of all
rows. Where no row is at a path or below it the path leads nowhere, unless it ends at a position that
was filled up because a later one has rows.
-/
namespace LeafStore

def Row.Below (row : Row) (path : Path) : Prop :=
  ∃ cell, row.decode = .ok cell ∧ path <+: cell.path

namespace Assembly

/-! Where the items of an array are. -/

theorem placeItems_length_le {parts : List (Segment × Json)} {bound : Fin positionCount}
    (before : ∀ part ∈ parts, ∃ position, part.1 = .index position ∧ position < bound) :
    (placeItems parts).length ≤ bound := by
  induction parts using List.reverseRecOn with
  | nil => exact Nat.zero_le _
  | append_singleton parts part _ =>
    obtain ⟨segment, item⟩ := part
    obtain ⟨position, rfl, less⟩ := before _ (List.mem_append_right _ (List.mem_singleton_self _))
    rw [placeItems_length]
    exact less

theorem getElem?_placeItems {parts : List (Segment × Json)} (ascending : Sorted.Ascending parts)
    (indexes : ∀ part ∈ parts, part.1.isIndex = true) {position : Fin positionCount} {item : Json}
    (there : (.index position, item) ∈ parts) : (placeItems parts)[position.val]? = some item := by
  induction parts using List.reverseRecOn with
  | nil => cases there
  | append_singleton parts part ih =>
    obtain ⟨segment, last⟩ := part
    obtain ⟨sorted, _, less⟩ := List.pairwise_append.mp ascending
    cases segment with
    | field name =>
      cases indexes _ (List.mem_append_right _ (List.mem_singleton_self _))
    | index bound =>
      have before : ∀ part ∈ parts, ∃ position, part.1 = .index position ∧ position < bound := by
        rintro ⟨segment, other⟩ hp
        have earlier := less _ hp _ (List.mem_singleton_self _)
        cases segment with
        | field name => cases indexes _ (List.mem_append_left _ hp)
        | index position => exact ⟨position, rfl, earlier⟩
      have short := placeItems_length_le before
      rw [placeItems_append, List.take_of_length_le short]
      rcases List.mem_append.mp there with there | there
      · have here := ih sorted (fun part hp => indexes part (List.mem_append_left _ hp)) there
        have bounded := (List.getElem?_eq_some_iff.mp here).1
        rw [List.append_assoc, List.getElem?_append_left bounded, here]
      · obtain ⟨same, rfl⟩ := Prod.mk.inj (List.mem_singleton.mp there)
        obtain rfl := Segment.index.inj same
        have length : (placeItems parts ++
            List.replicate (position.val - (placeItems parts).length) Json.null).length =
              position.val := by
          simp
          omega
        rw [← length]
        simp

/-- What stands at a position: its item, or null before a later item, or nothing. -/
theorem getElem?_placeItems_of_absent {parts : List (Segment × Json)}
    (indexes : ∀ part ∈ parts, part.1.isIndex = true) {position : Fin positionCount}
    (absent : ∀ item, (.index position, item) ∉ parts) :
    ((∃ later item, (.index later, item) ∈ parts ∧ position < later) →
      Sorted.Ascending parts → (placeItems parts)[position.val]? = some .null) ∧
    ((∀ later item, (.index later, item) ∈ parts → ¬ position < later) →
      (placeItems parts)[position.val]? = none) := by
  constructor
  · rintro ⟨later, item, there, less⟩ ascending
    have bounded := (List.getElem?_eq_some_iff.mp (getElem?_placeItems ascending indexes there)).1
    have short : position.val < (placeItems parts).length := Nat.lt_trans less bounded
    have here := List.getElem?_eq_getElem short
    rcases mem_of_placeItems indexes _ _ here with null | ⟨_, listed⟩
    · rw [here, null]
    · exact absurd listed (absent _)
  · intro last
    rw [List.getElem?_eq_none_iff]
    apply placeItems_length_le
    rintro ⟨segment, item⟩ hp
    cases segment with
    | field name => cases indexes _ hp
    | index other =>
      have notLater := last other item hp
      have differ : other.val ≠ position.val := fun same => absent item (Fin.ext same ▸ hp)
      exact ⟨other, rfl, Nat.lt_of_le_of_ne (Fin.not_lt.mp notLater) differ⟩

/-! One step into an assembled value. -/

theorem toJson_step? (leaf : Leaf) (s : Segment) : leaf.toJson.step? s = none := by
  cases value : leaf.toJson with
  | array items =>
    rw [toJson_eq_array value]
    cases s <;> rfl
  | object members =>
    rw [toJson_eq_object value]
    cases s <;> rfl
  | _ => cases s <;> rfl

/-- A segment is a position without leaves, and a later position has some. -/
def Skipped (branch : Branch) (s : Segment) : Prop :=
  ∃ position later : Fin positionCount, s = .index position ∧ position < later ∧
    pick (.index later) branch ≠ [] ∧ pick s branch = []

theorem Values.step_array {branch : Branch} {found : List (Segment × Json)}
    (values : Values branch found) (all : (found.map (·.1)).all Segment.isIndex = true)
    (s : Segment) :
    (∀ w, (s, w) ∈ found → (Json.array (placeItems found)).step? s = some w) ∧
    (Skipped branch s → (Json.array (placeItems found)).step? s = some .null) ∧
    (pick s branch = [] → ¬ Skipped branch s →
      (Json.array (placeItems found)).step? s = none) := by
  have indexes : ∀ part ∈ found, part.1.isIndex = true := fun part hp =>
    List.all_eq_true.mp all _ (List.mem_map_of_mem hp)
  have absent : pick s branch = [] → ∀ w, (s, w) ∉ found := fun none w there =>
    (values.segments s).mpr ⟨w, there⟩ none
  cases s with
  | field name =>
    refine ⟨fun w there => ?_, ?_, fun _ _ => rfl⟩
    · cases indexes _ there
    · rintro ⟨_, _, same, _⟩
      cases same
  | index position =>
    refine ⟨fun w there => getElem?_placeItems values.ascending indexes there, ?_, ?_⟩
    · rintro ⟨_, later, same, less, picked, none⟩
      obtain rfl := Segment.index.inj same
      obtain ⟨item, there⟩ := (values.segments _).mp picked
      exact (getElem?_placeItems_of_absent indexes (absent none)).1 ⟨later, item, there, less⟩
        values.ascending
    · intro none kept
      refine (getElem?_placeItems_of_absent indexes (absent none)).2 fun later item there less => ?_
      exact kept ⟨position, later, rfl, less, (values.segments _).mpr ⟨item, there⟩, none⟩

theorem Values.step_object {branch : Branch} {found : List (Segment × Json)}
    (values : Values branch found) (none : (found.map (·.1)).any Segment.isIndex = false)
    (s : Segment) :
    (∀ w, (s, w) ∈ found → (Json.object (placeMembers found)).step? s = some w) ∧
    ¬ Skipped branch s ∧
    (pick s branch = [] → (Json.object (placeMembers found)).step? s = Option.none) := by
  have fields : ∀ part ∈ found, part.1.isIndex = false := fun part hp => by
    simpa using List.any_eq_false.mp none part.1 (List.mem_map_of_mem hp)
  have unskipped : ¬ Skipped branch s := by
    rintro ⟨_, later, _, _, picked, _⟩
    obtain ⟨item, there⟩ := (values.segments _).mp picked
    cases fields _ there
  obtain ⟨_, lookup⟩ := lookup_placeMembers values.ascending fields
  cases s with
  | index position =>
    refine ⟨fun w there => ?_, unskipped, fun _ => rfl⟩
    cases fields _ there
  | field name =>
    refine ⟨fun w there => ?_, unskipped, fun empty => ?_⟩
    · exact (lookup name).trans ((values.ascending.lookup_eq_some_iff ..).mpr there)
    · refine (lookup name).trans (Option.eq_none_iff_forall_not_mem.mpr fun w there => ?_)
      exact (values.segments _).mpr ⟨w, (values.ascending.lookup_eq_some_iff ..).mp there⟩ empty

/-- A step into a built value leads to what the leaves below its segment build. -/
theorem buildAll_step {branch : Branch} (distinct : Distinct branch) (filled : branch ≠ [])
    {v : Json} (built : buildAll branch = .ok v) (s : Segment) :
    (pick s branch ≠ [] → ∃ w, buildAll (pick s branch) = .ok w ∧ v.step? s = some w) ∧
    (Skipped branch s → v.step? s = some .null) ∧
    (pick s branch = [] → ¬ Skipped branch s → v.step? s = none) := by
  rcases buildAll_eq_ok distinct built with ⟨empty, _⟩ | ⟨leaf, rfl, rfl⟩ | ⟨_, found, values, kind⟩
  · exact absurd empty filled
  · have whole : ∀ t : Segment, pick t [([], leaf)] = [] := fun _ => rfl
    refine ⟨fun picked => absurd (whole s) picked, ?_, fun _ _ => toJson_step? leaf s⟩
    rintro ⟨_, later, _, _, picked, _⟩
    exact absurd (whole _) picked
  · have listed : pick s branch ≠ [] → ∃ w, buildAll (pick s branch) = .ok w ∧ (s, w) ∈ found := by
      intro picked
      obtain ⟨w, there⟩ := (values.segments s).mp picked
      exact ⟨w, values.built s w there, there⟩
    rcases kind with ⟨all, rfl⟩ | ⟨none, rfl⟩
    · obtain ⟨item, null, nothing⟩ := values.step_array all s
      refine ⟨fun picked => ?_, null, nothing⟩
      obtain ⟨w, below, there⟩ := listed picked
      exact ⟨w, below, item w there⟩
    · obtain ⟨member, unskipped, nothing⟩ := values.step_object none s
      refine ⟨fun picked => ?_, fun skipped => absurd skipped unskipped, fun empty _ => nothing empty⟩
      obtain ⟨w, below, there⟩ := listed picked
      exact ⟨w, below, member w there⟩

/-! Along a path into the value of a document. -/

variable {cells : List Cell} {whole : Json}

theorem below_ne_nil_iff {base : Path} :
    below base cells ≠ [] ↔ ∃ cell ∈ cells, base <+: cell.path := by
  constructor
  · intro filled
    obtain ⟨entry, he⟩ := List.exists_mem_of_ne_nil _ filled
    obtain ⟨cell, hc, place, _⟩ := mem_below.mp he
    exact ⟨cell, hc, entry.1, place.symm⟩
  · rintro ⟨cell, hc, rest, place⟩
    exact List.ne_nil_of_mem (mem_below.mpr ⟨cell, hc, place.symm, rfl⟩ :
      (rest, cell.leaf) ∈ below base cells)

def Gap (cells : List Cell) (base : Path) : Prop :=
  ∃ (place : Path) (s : Segment), base = place.child s ∧ Skipped (below place cells) s

theorem gap_child_iff {base : Path} {s : Segment} :
    Gap cells (base.child s) ↔ Skipped (below base cells) s := by
  constructor
  · rintro ⟨place, t, same, skipped⟩
    obtain ⟨rfl, last⟩ := List.append_inj' same rfl
    rwa [List.singleton_inj.mp last]
  · exact fun skipped => ⟨base, s, rfl, skipped⟩

theorem not_gap_root : ¬ Gap cells [] := by
  rintro ⟨place, s, same, _⟩
  simp [Path.child] at same

/-- A path into an assembled value leads to what the leaves below it build. -/
theorem at?_built (distinct : ∀ base, Distinct (below base cells))
    (filled : below [] cells ≠ []) (built : buildAll (below [] cells) = .ok whole) (base : Path) :
    (below base cells ≠ [] →
      ∃ v, buildAll (below base cells) = .ok v ∧ whole.at? base = some v) ∧
    (Gap cells base → whole.at? base = some .null) ∧
    (below base cells = [] → ¬ Gap cells base → whole.at? base = none) := by
  induction base using List.reverseRecOn with
  | nil =>
    refine ⟨fun _ => ⟨whole, built, rfl⟩, fun gap => ?_, fun empty => absurd empty filled⟩
    exact absurd gap not_gap_root
  | append_singleton base s ih =>
    have child : below (base ++ [s]) cells = pick s (below base cells) := below_child base s cells
    have gap : Gap cells (base ++ [s]) ↔ Skipped (below base cells) s := gap_child_iff
    obtain ⟨inside, null, nothing⟩ := ih
    rw [child, gap, Json.at?_append]
    by_cases empty : below base cells = []
    · have none : ∀ t, pick t (below base cells) = [] := fun t => by rw [empty]; rfl
      -- At most null is there, and no step leads on from null.
      have nowhere : (whole.at? base).bind (·.at? [s]) = Option.none := by
        by_cases before : Gap cells base
        · rw [null before]
          cases s <;> rfl
        · rw [nothing empty before]
          rfl
      refine ⟨fun picked => absurd (none s) picked, ?_, fun _ _ => nowhere⟩
      rintro ⟨_, later, _, _, picked, _⟩
      exact absurd (none _) picked
    · obtain ⟨v, here, leads⟩ := inside empty
      have one : (whole.at? base).bind (·.at? [s]) = v.step? s := by
        rw [leads, Option.bind_some, Json.at?_cons]
        cases v.step? s <;> rfl
      rw [one]
      exact buildAll_step (distinct base) empty here s

/-- A path ends at a position without rows, and a later position has some. -/
def FilledUp (rows : List Row) (base : Path) : Prop :=
  ∃ (place : Path) (position later : Fin positionCount),
    base = place.child (.index position) ∧ position < later ∧
    (∃ row ∈ rows, row.Below (place.child (.index later))) ∧ ¬ ∃ row ∈ rows, row.Below base

theorem below_iff {rows : List Row} (read : rows.mapM Row.decode = .ok cells) {base : Path} :
    (∃ row ∈ rows, row.Below base) ↔ below base cells ≠ [] := by
  rw [below_ne_nil_iff]
  constructor
  · rintro ⟨row, hr, cell, decoded, leads⟩
    obtain ⟨other, hc, same⟩ := exists_mem_of_mapM_eq_ok read hr
    rw [decoded] at same
    obtain rfl := Except.ok.inj same
    exact ⟨cell, hc, leads⟩
  · rintro ⟨cell, hc, leads⟩
    obtain ⟨row, hr, decoded⟩ := mem_of_mapM_eq_ok read hc
    exact ⟨row, hr, cell, decoded, leads⟩

theorem filledUp_iff {rows : List Row} (read : rows.mapM Row.decode = .ok cells) {base : Path} :
    FilledUp rows base ↔ Gap cells base := by
  simp only [FilledUp, below_iff read, not_not]
  constructor
  · rintro ⟨place, position, later, rfl, less, filled, empty⟩
    rw [below_child] at filled empty
    exact ⟨place, _, rfl, position, later, rfl, less, filled, empty⟩
  · rintro ⟨place, s, rfl, position, later, rfl, less, filled, empty⟩
    rw [← below_child] at filled empty
    exact ⟨place, position, later, rfl, less, filled, empty⟩

/-- Where the rows of a document have a value, those below a path have the one that the path leads to
in it, if there are any. If there are none, the path leads to null if it ends at a position that was
filled up, and nowhere otherwise. -/
theorem ofRows_subtree (rows : List Row) (whole : Json)
    (assembled : ofRows [] none rows = .ok (some whole)) (base : Path) :
    (∃ found, ofRows base none rows = .ok found) ∧
    (∀ v, ofRows base none rows = .ok (some v) → whole.at? base = some v) ∧
    (ofRows base none rows = .ok none →
      (FilledUp rows base → whole.at? base = some .null) ∧
      (¬ FilledUp rows base → whole.at? base = none)) := by
  obtain ⟨cells, read, ok⟩ := bind_eq_ok assembled
  have consistent : Path.Consistent (cells.map (·.path)) := by
    have kept := exists_assemble_eq_ok_iff.mp ⟨_, ok⟩
    have all : ∀ path ∈ cells.map (·.path), asked [] none path = true := fun _ _ => rfl
    rwa [List.filter_eq_self.mpr all] at kept
  have distinct : ∀ base, Distinct (below base cells) := fun base =>
    (below_parted base consistent).distinct
  obtain ⟨filled, built⟩ := assemble_eq_some ok
  obtain ⟨inside, null, nothing⟩ := at?_built distinct filled built base
  have value : ofRows base none rows = assemble base none cells := by
    rw [ofRows, read]
    rfl
  rw [value, filledUp_iff read]
  refine ⟨assemble_ok base none consistent, fun v found => ?_, fun found => ⟨null, ?_⟩⟩
  · obtain ⟨some, here⟩ := assemble_eq_some found
    obtain ⟨w, there, leads⟩ := inside some
    rw [here] at there
    rw [leads, Except.ok.inj there]
  · apply nothing
    have off := assemble_eq_none_iff.mp found
    exact not_not.mp fun some => by
      obtain ⟨cell, hc, leads⟩ := below_ne_nil_iff.mp some
      exact off cell hc leads

def Sample.sparseRows : List Row :=
  [⟨"d", ["a", "[000001]", ""], "[000001]", some "x", none, none, 1⟩,
    ⟨"d", ["a", "[000003]", "b"], "b", none, none, some true, 2⟩]

def Sample.sparseCells : List Cell :=
  [⟨"d", [.field "a", Json.itemSegment 1], .text "x", 1⟩,
    ⟨"d", [.field "a", Json.itemSegment 3, .field "b"], .bool true, 2⟩]

theorem Sample.sparseRows_read : Sample.sparseRows.mapM Row.decode = .ok Sample.sparseCells :=
  eq_ok_of_toOption (by decide +kernel)

theorem Sample.sparseRows_assembled : ofRows [] none Sample.sparseRows = .ok (some (.object
    [("a", .array [.null, .text "x", .null, .object [("b", .bool true)]])])) := by
  have sorted : inOrder (below [] Sample.sparseCells) = below [] Sample.sparseCells :=
    List.mergeSort_of_pairwise (by decide)
  have built : buildAll (below [] Sample.sparseCells) = .ok (.object
      [("a", .array [.null, .text "x", .null, .object [("b", .bool true)]])]) := by
    rw [buildAll, sorted]
    rfl
  rw [ofRows, Sample.sparseRows_read]
  exact congrArg (Except.map some) built

theorem ofRows_subtree_sparse :
    ∃ whole, ofRows [] none Sample.sparseRows = .ok (some whole) ∧
      ofRows [.field "a", .index 2] none Sample.sparseRows = .ok none ∧
      FilledUp Sample.sparseRows [.field "a", .index 2] ∧
      whole.at? [.field "a", .index 2] = some .null := by
  have none : ofRows [.field "a", .index 2] none Sample.sparseRows = .ok none := by
    rw [ofRows, Sample.sparseRows_read]
    rfl
  have filledUp : FilledUp Sample.sparseRows [.field "a", .index 2] := by
    rw [filledUp_iff Sample.sparseRows_read]
    exact ⟨[.field "a"], .index 2, rfl, 2, 3, rfl, by decide, by decide, rfl⟩
  obtain ⟨_, _, absent⟩ := ofRows_subtree Sample.sparseRows _ Sample.sparseRows_assembled
    [.field "a", .index 2]
  exact ⟨_, Sample.sparseRows_assembled, none, filledUp, (absent none).1 filledUp⟩

end Assembly

end LeafStore
