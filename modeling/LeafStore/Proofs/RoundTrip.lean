import LeafStore.Proofs.Assembly
import LeafStore.Proofs.Decomposition
import LeafStore.Proofs.Numbers
/-!
Round trip of values. The rows of a written value, in any order, assemble to the value again, with
its numbers as doubles render them.
-/
namespace LeafStore

namespace Json

mutual

/-- A value with each number replaced by its double: a whole one of up to 53 bits is an integer. -/
def normal : Json → Json
  | .int n => ofDouble (Double.ofInt n)
  | .float d => ofDouble d
  | .array items => .array (normalItems items)
  | .object members => .object (normalMembers members)
  | .null => .null
  | .bool b => .bool b
  | .text s => .text s

def normalItems : List Json → List Json
  | [] => []
  | item :: rest => item.normal :: normalItems rest

def normalMembers : List (String × Json) → List (String × Json)
  | [] => []
  | (name, value) :: rest => (name, value.normal) :: normalMembers rest

end

@[simp] theorem normalItems_eq (items : List Json) : normalItems items = items.map normal := by
  induction items with
  | nil => rfl
  | cons item rest ih => rw [normalItems, ih, List.map_cons]

@[simp] theorem normalMembers_eq (members : List (String × Json)) :
    normalMembers members = members.map fun member => (member.1, member.2.normal) := by
  induction members with
  | nil => rfl
  | cons member rest ih => rw [normalMembers, ih, List.map_cons]

theorem normal_ofDouble (d : Double) : (ofDouble d).normal = ofDouble d := by
  cases value : d.toInt? with
  | some n =>
    have small := ((Double.toInt?_eq_some_iff d n).mp value).2
    have int : ofDouble d = .int n := by simp only [ofDouble, value]
    rw [int, normal]
    simp only [ofDouble, Double.toInt?_ofInt small]
  | none =>
    cases finite : d.isFinite with
    | true =>
      have float : ofDouble d = .float d := by simp only [ofDouble, value, finite, if_true]
      rw [float, normal, float]
    | false =>
      have null : ofDouble d = .null := by simp [ofDouble, value, finite]
      rw [null, normal]

theorem normal_idem (v : Json) : v.normal.normal = v.normal := by
  induction v using induct with
  | whole v ih =>
    cases v with
    | int n => exact normal_ofDouble _
    | float d => exact normal_ofDouble d
    | array items =>
      simp only [normal, normalItems_eq, List.map_map]
      refine congrArg Json.array (List.map_congr_left fun item there => ?_)
      obtain ⟨p, hp, rfl⟩ := exists_part there
      exact ih p hp
    | object members =>
      simp only [normal, normalMembers_eq, List.map_map]
      refine congrArg Json.object (List.map_congr_left fun member there => ?_)
      have inner := ih (.field member.1, member.2) (List.mem_map.mpr ⟨member, there, rfl⟩)
      exact congrArg (Prod.mk member.1) inner
    | _ => rfl

theorem normal_of_leaf {v : Json} {leaf : Leaf} (h : Leaf.ofJson? v = some leaf) :
    v.normal = leaf.toJson := by
  cases v with
  | array items =>
    cases items with
    | nil => cases h; rfl
    | cons item rest => cases h
  | object members =>
    cases members with
    | nil => cases h; rfl
    | cons member rest => cases h
  | _ => cases h; rfl

end Json

namespace Assembly

theorem groups_under_append {segment : Segment} {branch rest : Branch} (nonempty : branch ≠ [])
    (apart : ∀ part ∈ groups rest, part.1 ≠ segment) :
    groups (under segment branch ++ rest) = (segment, branch) :: groups rest := by
  induction branch with
  | nil => exact absurd rfl nonempty
  | cons entry more ih =>
    obtain ⟨path, leaf⟩ := entry
    cases more with
    | nil =>
      show groups ((segment :: path, leaf) :: rest) = _
      cases found : groups rest with
      | nil => simp only [groups, found]
      | cons first others =>
        obtain ⟨other, branch⟩ := first
        have differ : segment ≠ other := fun same =>
          apart (other, branch) (found ▸ List.mem_cons_self ..) same.symm
        simp only [groups, found, if_neg differ]
    | cons next more =>
      have joined := ih (List.cons_ne_nil _ _)
      show groups ((segment :: path, leaf) :: (under segment (next :: more) ++ rest)) = _
      simp only [groups, joined, if_true]

theorem groups_spread {parts : List (Segment × Branch)} (nonempty : ∀ part ∈ parts, part.2 ≠ [])
    (apart : parts.Pairwise fun a b => a.1 ≠ b.1) : groups (spread parts) = parts := by
  induction apart with
  | nil => rfl
  | @cons part rest differ _ ih =>
    have tail := ih fun other ho => nonempty other (List.mem_cons_of_mem _ ho)
    have split : spread (part :: rest) = under part.1 part.2 ++ spread rest := rfl
    have first := nonempty part (List.mem_cons_self ..)
    rw [split, groups_under_append first (tail.symm ▸ fun other ho => (differ other ho).symm), tail]

theorem build_parts (height : Nat) (place : Path) {branch : Branch} (nonempty : branch ≠ [])
    (deep : ∀ entry ∈ branch, entry.1 ≠ []) :
    build (height + 1) place branch =
      container place ((groups branch).map (·.1)) ((groups branch).mapM fun part =>
        (build height (place.child part.1) part.2).map fun json => (part.1, json)) := by
  cases branch with
  | nil => exact absurd rfl nonempty
  | cons entry rest =>
    obtain ⟨path, leaf⟩ := entry
    cases path with
    | nil => exact absurd rfl (deep _ (List.mem_cons_self ..))
    | cons segment path => rw [build]

theorem foldl_itemParts {step : List Json → Segment × Json → List Json}
    (steps : ∀ (placed : List Json) (h : placed.length < positionCount) (item : Json),
      step placed (.index ⟨placed.length, h⟩, item) = placed ++ [item])
    (items placed : List Json) (fits : placed.length + items.length ≤ positionCount) :
    (Json.itemParts placed.length items).foldl step placed = placed ++ items := by
  induction items generalizing placed with
  | nil => exact (List.append_nil placed).symm
  | cons item rest ih =>
    rw [List.length_cons] at fits
    have here : placed.length < positionCount := by omega
    have position : Fin.ofNat positionCount placed.length = ⟨placed.length, here⟩ :=
      Fin.ext (Nat.mod_eq_of_lt here)
    have next := ih (placed ++ [item]) (by rw [List.length_append, List.length_singleton]; omega)
    rw [List.length_append, List.length_singleton, List.append_assoc] at next
    rw [Json.itemParts, List.foldl_cons, position, steps placed here item]
    exact next

theorem placeItems_itemParts {items : List Json} (fits : items.length ≤ positionCount) :
    placeItems (Json.itemParts 0 items) = items := by
  refine foldl_itemParts (fun placed h item => ?_) items [] (by simpa using fits)
  simp

theorem below_cells (t : Limits.Target) (path : Path) (branch : Branch) :
    below path (t.cells path branch) = branch := by
  simp only [below, Limits.Target.cells, List.filterMap_map, Function.comp_def, below?_append,
    Option.map_some]
  exact List.filterMap_some

theorem itemParts_map (position : Nat) (items : List Json) (f : Json → Json) :
    (Json.itemParts position items).map (fun p => (p.1, f p.2)) =
      Json.itemParts position (items.map f) := by
  induction items generalizing position with
  | nil => rfl
  | cons item rest ih => rw [Json.itemParts, List.map_cons, ih, List.map_cons, Json.itemParts]

theorem container_parts {v : Json} (h : v.Addressable) (nonempty : v.parts ≠ []) (place : Path) :
    container place (v.parts.map (·.1)) (.ok (v.parts.map fun p => (p.1, p.2.normal))) =
      .ok v.normal := by
  obtain ⟨_, items, members, _⟩ := h
  cases v with
  | array elements =>
    have kinds : ((Json.itemParts 0 elements).map (·.1)).all Segment.isIndex = true := by
      rw [List.all_map, List.all_eq_true]
      exact fun p hp => Json.isIndex_itemParts hp
    have fits : (elements.map Json.normal).length ≤ positionCount := by
      rw [List.length_map]
      exact items _ rfl
    simp only [Json.parts, container, kinds, if_true, itemParts_map, Json.normal,
      Json.normalItems_eq, map_ok, placeItems_itemParts fits]
  | object entries =>
    have names : (Json.memberParts entries).any (·.1.isIndex) = false := by
      rw [Json.memberParts, List.any_map, List.any_eq_false]
      exact fun _ _ => Bool.false_ne_true
    have notAll : (Json.memberParts entries).all (·.1.isIndex) = false := by
      obtain ⟨p, hp⟩ := List.exists_mem_of_ne_nil _ nonempty
      rw [List.all_eq_false]
      exact ⟨p, hp, by simpa using List.any_eq_false.mp names p hp⟩
    have ascending : Sorted.Ascending (entries.map fun m => (m.1, m.2.normal)) :=
      List.pairwise_map.mpr (members _ rfl)
    have placed : placeMembers ((Json.memberParts entries).map fun p => (p.1, p.2.normal)) =
        entries.map fun m => (m.1, m.2.normal) := by
      rw [placeMembers, Json.memberParts, List.map_map, List.map_map]
      exact Sorted.ofPairs_of_ascending ascending
    simp only [Json.parts, container, List.all_map, List.any_map, Function.comp_def, notAll, names,
      Bool.false_eq_true, if_false, map_ok, placed, Json.normal, Json.normalMembers_eq]
  | _ => exact absurd rfl nonempty

/-- Where every leaf is below a part there is room for the step to it. -/
theorem exists_lower {branch : Branch} {height : Nat} (filled : branch ≠ [])
    (deep : ∀ entry ∈ branch, entry.1 ≠ []) (room : ∀ entry ∈ branch, entry.1.length ≤ height) :
    ∃ lower, height = lower + 1 := by
  obtain ⟨entry, he⟩ := List.exists_mem_of_ne_nil _ filled
  have long := List.length_pos_iff.mpr (deep entry he)
  exact Nat.exists_eq_add_one.mpr (Nat.lt_of_lt_of_le long (room entry he))

/-- The leaves of a value build the value with its numbers as doubles. -/
theorem build_leaves {v : Json} (h : v.Addressable) {height : Nat} (place : Path)
    (room : ∀ entry ∈ v.leaves, entry.1.length ≤ height) :
    build height place v.leaves = .ok v.normal := by
  induction v using Json.induct generalizing height place with
  | whole v ih =>
    rcases v.leaf_or_parts with ⟨leaf, isLeaf, leaves, _⟩ | ⟨_, nonempty, leaves⟩
    · rw [leaves, Json.normal_of_leaf isLeaf]
      cases height <;> rfl
    · have grouped : groups v.leaves = v.parts.map fun p => (p.1, p.2.leaves) := by
        rw [leaves]
        refine groups_spread (fun part there => ?_) ?_
        · obtain ⟨p, _, rfl⟩ := List.mem_map.mp there
          exact p.2.leaves_ne_nil
        · exact List.pairwise_map.mpr (h.segments.imp Sorted.ne_of_lt)
      have deeper : ∀ p ∈ v.parts, ∀ entry ∈ p.2.leaves,
          (p.1 :: entry.1, entry.2) ∈ v.leaves := by
        intro p hp entry he
        rw [leaves]
        exact mem_spread.mpr ⟨_, List.mem_map.mpr ⟨p, hp, rfl⟩, mem_under.mpr ⟨entry, he, rfl⟩⟩
      have deep : ∀ entry ∈ v.leaves, entry.1 ≠ [] := by
        intro entry he
        rw [leaves] at he
        obtain ⟨part, _, he⟩ := mem_spread.mp he
        obtain ⟨rest, _, rfl⟩ := mem_under.mp he
        exact List.cons_ne_nil _ _
      have filled := v.leaves_ne_nil
      obtain ⟨lower, rfl⟩ := exists_lower filled deep room
      have parts : (v.parts.map fun p => (p.1, p.2.leaves)).mapM (fun part =>
          (build lower (place.child part.1) part.2).map fun json => (part.1, json)) =
            .ok (v.parts.map fun p => (p.1, p.2.normal)) := by
        rw [List.mapM_map]
        refine mapM_eq_ok fun p hp => ?_
        have addressable : p.2.Addressable := by
          obtain ⟨_, _, _, parts⟩ := h
          exact parts p hp
        have fits : ∀ entry ∈ p.2.leaves, entry.1.length ≤ lower := fun entry he =>
          Nat.le_of_succ_le_succ (room _ (deeper p hp entry he))
        have built := ih p hp addressable (place.child p.1) fits
        simp only [Function.comp_apply, built, map_ok]
      rw [build_parts lower place filled deep, grouped, parts, List.map_map]
      exact container_parts h nonempty place

theorem length_le_height {branch : Branch} {entry : Path × Leaf} (h : entry ∈ branch) :
    entry.1.length ≤ height branch := by
  have run : ∀ (lengths : List Nat) (start : Nat),
      start ≤ lengths.foldl max start ∧ ∀ n ∈ lengths, n ≤ lengths.foldl max start := by
    intro lengths
    induction lengths with
    | nil => simp
    | cons first rest ih =>
      intro start
      obtain ⟨above, each⟩ := ih (max start first)
      refine ⟨by simp only [List.foldl_cons]; omega, fun n hn => ?_⟩
      rcases List.mem_cons.mp hn with rfl | hn
      · simp only [List.foldl_cons]
        omega
      · exact each n hn
  exact (run _ 0).2 _ (List.mem_map.mpr ⟨entry, h, rfl⟩)

def Ordered (branch : Branch) : Prop := branch.Pairwise fun a b => ¬ b.1 < a.1

theorem inOrder_sorted (branch : Branch) : Ordered (inOrder branch) := by
  have total : ∀ a b : Path × Leaf, (!decide (b.1 < a.1) || !decide (a.1 < b.1)) = true := by
    intro a b
    by_cases less : a.1 < b.1
    · simp [List.lt_asymm less]
    · simp [less]
  have trans : ∀ a b c : Path × Leaf, (!decide (b.1 < a.1)) = true →
      (!decide (c.1 < b.1)) = true → (!decide (c.1 < a.1)) = true := by
    intro a b c hab hbc
    simp only [Bool.not_eq_true', decide_eq_false_iff_not] at hab hbc ⊢
    exact Path.not_lt_trans hab hbc
  refine (List.pairwise_mergeSort trans total branch).imp fun {a b} notAfter => ?_
  simpa using notAfter

/-- Leaves in any order are brought into the one order of their paths. -/
theorem inOrder_eq {branch ordered : Branch} (perm : branch.Perm ordered)
    (ascending : ordered.Pairwise fun a b => a.1 < b.1) : inOrder branch = ordered := by
  have notAfter : ordered.Pairwise fun a b => ¬ b.1 < a.1 :=
    ascending.imp fun less => List.lt_asymm less
  refine ((inOrder_perm branch).trans perm).eq_of_pairwise ?_ (inOrder_sorted branch) notAfter
  intro a b ha hb hab hba
  have same : a.1 = b.1 := List.le_antisymm hab hba
  have there := perm.subset ((inOrder_perm branch).subset ha)
  exact Prod.ext same (Sorted.Ascending.value_unique ascending there (same ▸ hb))

end Assembly

theorem assemble_leaves {v : Json} (h : v.Addressable) (base : Path) {cells : List Cell}
    (leaves : (Assembly.below base cells).Perm v.leaves) :
    Assembly.assemble base none cells = .ok (some v.normal) := by
  have filled : (Assembly.below base cells).isEmpty = false := by
    rw [List.isEmpty_eq_false_iff]
    intro none
    exact v.leaves_ne_nil (List.nil_perm.mp (none ▸ leaves))
  have built : Assembly.buildAll (Assembly.below base cells) = .ok v.normal := by
    rw [Assembly.buildAll, Assembly.inOrder_eq leaves h.leaves_ascending]
    exact Assembly.build_leaves h _ fun entry he =>
      Assembly.length_le_height (leaves.mem_iff.mpr he)
  simp only [Assembly.assemble, Assembly.projected, filled, built, Bool.false_eq_true, if_false,
    map_ok]

/-- The rows that a write inserts, in whatever order they are read, hold the leaves of the value that was
written. -/
theorem exists_leaves_of_put {limits : Limits} {document : String} {target : Path} {value : Json}
    {time : Int} {batch : Batch} {rows : List Row} (valid : target.Valid)
    (canonical : value.Canonical)
    (written : limits.put document target value false time = .ok batch)
    (same : rows.Perm batch.rows) :
    value.Addressable ∧ ∃ cells, rows.mapM Row.decode = .ok cells ∧
      (Assembly.below target cells).Perm value.leaves := by
  obtain ⟨inserted, deletions, walked, _, rfl⟩ := Limits.put_eq_ok written
  obtain ⟨encodes, addressable⟩ := Limits.rows_writes walked
  have decoded := Row.mapM_decode_rows (encodes.cell_valid valid) limits.maxDepth
  rw [← encodes.rows] at decoded
  obtain ⟨cells, read, perm⟩ := mapM_perm same decoded
  refine ⟨addressable canonical, cells, read, ?_⟩
  rw [← Assembly.below_cells ⟨document, time⟩ target value.leaves]
  exact perm.filterMap _

/-- What a write at a path inserts assembles there to the value that was written, in whatever order
the rows are read. -/
theorem ofRows_put (limits : Limits) (document : String) (target : Path) (value : Json)
    (time : Int) (batch : Batch) (rows : List Row) (valid : target.Valid)
    (canonical : value.Canonical)
    (written : limits.put document target value false time = .ok batch)
    (same : rows.Perm batch.rows) :
    Assembly.ofRows target none rows = .ok (some value.normal) ∧
      (∀ d n, Json.ofDouble d = .int n ↔ d.IsInt n ∧ n.natAbs ≤ 2 ^ 53) ∧
      ∀ v : Json, v.normal.normal = v.normal := by
  refine ⟨?_, Json.ofDouble_eq_int_iff, Json.normal_idem⟩
  obtain ⟨addressable, cells, read, leaves⟩ := exists_leaves_of_put valid canonical written same
  simp only [Assembly.ofRows, read]
  exact assemble_leaves addressable target leaves

theorem ofRows_put_reversed :
    ∃ batch, Limits.put ⟨3, 10⟩ "d" [.field "a"]
        (.array [.float (.signed false (1023 * 2 ^ 52)), .object [("b", .null)], .array []])
        false 7 = .ok batch ∧
      Assembly.ofRows [.field "a"] none batch.rows.reverse =
        .ok (some (.array [.int 1, .object [("b", .null)], .array []])) := by
  have valid : Path.Valid [.field "a"] := by
    intro s hs
    rw [List.mem_singleton.mp hs]
    rfl
  have member : Json.Canonical (.object [("b", .null)]) :=
    Json.canonical_of_members (List.pairwise_singleton _ _)
      (List.forall_mem_singleton.mpr (Json.canonical_of_leaf rfl))
  have canonical : Json.Canonical
      (.array [.float (.signed false (1023 * 2 ^ 52)), .object [("b", .null)], .array []]) :=
    Json.canonical_of_items (List.forall_mem_cons.mpr ⟨Json.canonical_of_leaf rfl,
      List.forall_mem_cons.mpr ⟨member, List.forall_mem_singleton.mpr (Json.canonical_of_leaf rfl)⟩⟩)
  refine ⟨_, rfl, ?_⟩
  exact (ofRows_put ⟨3, 10⟩ "d" _ _ 7 _ _ valid canonical rfl
    (List.reverse_perm _)).1

end LeafStore
