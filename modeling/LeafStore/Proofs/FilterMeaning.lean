import LeafStore.Proofs.Decomposition
import LeafStore.Proofs.Patterns
import LeafStore.Proofs.Positions
/-!
Meaning of filters. A filter is about positions of a value: a pattern leads to some of them, one
container at a time, and a scalar there satisfies operators. Written as rows, the value passes the
filter when its positions do.
-/
namespace LeafStore

open Assembly (Branch)

namespace Scalar

def leaf : Scalar → Leaf
  | text s => .text s
  | number d => .number d
  | bool b => .bool b
  | null => .null

/-- How a value compares with an operand; values of different kinds do not. -/
def compare? : Scalar → Scalar → Option Ordering
  | text a, .text b => some (textOrder a b)
  | number a, .number b => a.compare? b
  | bool a, .bool b => some (boolOrder a b)
  | null, .null => some .eq
  | _, _ => none

@[simp] theorem order?_leaf (operand value : Scalar) :
    operand.order? value.leaf = value.compare? operand := by
  cases operand <;> cases value <;> rfl

@[simp] theorem kind_leaf (value : Scalar) : value.leaf.kind = value.kind := by
  cases value <;> rfl

theorem leaf_iff (v : Json) (leaf : Leaf) :
    Leaf.ofJson? v = some leaf ∧ leaf.isMarker = false ↔
      ∃ value, ofJson v = .ok value ∧ leaf = value.leaf := by
  cases v with
  | array items =>
    cases items <;> simp only [Leaf.ofJson?, ofJson, reduceCtorEq, false_and, exists_false, iff_false]
    rintro ⟨same, notMarker⟩
    obtain rfl := Option.some.inj same
    cases notMarker
  | object members =>
    cases members <;> simp only [Leaf.ofJson?, ofJson, reduceCtorEq, false_and, exists_false, iff_false]
    rintro ⟨same, notMarker⟩
    obtain rfl := Option.some.inj same
    cases notMarker
  | _ =>
    constructor
    · rintro ⟨same, _⟩
      obtain rfl := Option.some.inj same
      exact ⟨_, rfl, rfl⟩
    · rintro ⟨value, same, rfl⟩
      obtain rfl := Except.ok.inj same
      exact ⟨rfl, rfl⟩

end Scalar

namespace Operator

/-- What an operator says of a scalar. Only texts and numbers are above or below an operand, and
`$nin` is for scalars of the kind of all its operands. -/
def Holds : Operator → Scalar → Prop
  | eq operand, value => value.compare? operand = some .eq
  | ne operand, value => ∃ order, value.compare? operand = some order ∧ order ≠ .eq
  | gt operand, value => operand.isOrdered = true ∧ value.compare? operand = some .gt
  | gte operand, value => operand.isOrdered = true ∧
    (value.compare? operand = some .gt ∨ value.compare? operand = some .eq)
  | lt operand, value => operand.isOrdered = true ∧ value.compare? operand = some .lt
  | lte operand, value => operand.isOrdered = true ∧
    (value.compare? operand = some .lt ∨ value.compare? operand = some .eq)
  | isIn operands, value => ∃ operand ∈ operands, value.compare? operand = some .eq
  | notIn operands, value =>
    ∀ operand ∈ operands, operand.kind = value.kind ∧ value.compare? operand ≠ some .eq

@[simp] theorem holdsOrdered_leaf (operand value : Scalar) (comparison : Comparison) :
    holdsOrdered operand value.leaf comparison = true ↔
      operand.isOrdered = true ∧
        ∃ order, value.compare? operand = some order ∧ comparison.holds order = true := by
  rw [holdsOrdered, Scalar.order?_leaf, Bool.and_eq_true, Option.any_eq_true]

@[simp] theorem equals_leaf (operand value : Scalar) :
    operand.equals value.leaf = true ↔ value.compare? operand = some .eq := by
  rw [Scalar.equals, Scalar.order?_leaf, decide_eq_true_eq]

theorem accepts_leaf (o : Operator) (value : Scalar) :
    o.accepts value.leaf = true ↔ o.Holds value := by
  have scalar : value.leaf.isMarker = false := by cases value <;> rfl
  have whole : o.accepts value.leaf = o.acceptsScalar value.leaf := by
    rw [accepts, scalar, Bool.not_false, Bool.true_and]
  rw [whole]
  cases o with
  | eq operand => exact equals_leaf operand value
  | ne operand => simp only [acceptsScalar, Holds, Scalar.order?_leaf, Option.any_eq_true,
      decide_eq_true_eq]
  | gt operand =>
    rw [acceptsScalar, holdsOrdered_leaf]
    simp [Holds, Comparison.holds]
  | gte operand =>
    rw [acceptsScalar, holdsOrdered_leaf, Holds]
    cases value.compare? operand with
    | none => simp
    | some order => cases order <;> simp [Comparison.holds]
  | lt operand =>
    rw [acceptsScalar, holdsOrdered_leaf]
    simp [Holds, Comparison.holds]
  | lte operand =>
    rw [acceptsScalar, holdsOrdered_leaf, Holds]
    cases value.compare? operand with
    | none => simp
    | some order => cases order <;> simp [Comparison.holds]
  | isIn operands => simp only [acceptsScalar, Holds, List.any_eq_true, equals_leaf]
  | notIn operands =>
    simp only [acceptsScalar, Holds, List.all_eq_true, Bool.and_eq_true, decide_eq_true_eq,
      Scalar.kind_leaf, Bool.not_eq_true', ← Bool.not_eq_true, equals_leaf, ne_eq]

instance (o : Operator) (value : Scalar) : Decidable (o.Holds value) :=
  decidable_of_iff _ (o.accepts_leaf value)

end Operator

def Json.Satisfies (v : Json) (o : Operator) : Prop :=
  ∃ value, Scalar.ofJson v = .ok value ∧ o.Holds value

namespace Pattern

/-- A pattern leads from a value to its positions: a name to that member of an object, a number to
that item of an array, and an open step to any member or item. -/
inductive LeadsTo : Pattern → Json → Json → Prop where
  | here (v : Json) : LeadsTo [] v v
  | member {name : String} {members : List (String × Json)} {rest : Pattern} {v w : Json}
      (there : members.lookup name = some v) (further : LeadsTo rest v w) :
      LeadsTo (.exact (.field name) :: rest) (.object members) w
  | item {position : Fin positionCount} {items : List Json} {rest : Pattern} {v w : Json}
      (there : items[position.val]? = some v) (further : LeadsTo rest v w) :
      LeadsTo (.exact (.index position) :: rest) (.array items) w
  | anyMember {members : List (String × Json)} {entry : String × Json} {rest : Pattern} {w : Json}
      (there : entry ∈ members) (further : LeadsTo rest entry.2 w) :
      LeadsTo (.wildcard :: rest) (.object members) w
  | anyItem {items : List Json} {rest : Pattern} {v w : Json}
      (there : v ∈ items) (further : LeadsTo rest v w) :
      LeadsTo (.wildcard :: rest) (.array items) w

theorem leadsTo_cons {v : Json} (h : v.Addressable) {step : PatternStep} {rest : Pattern} {w : Json} :
    LeadsTo (step :: rest) v w ↔
      ∃ segment part, step.accepts segment = true ∧ (segment, part) ∈ v.parts ∧
        LeadsTo rest part w := by
  obtain ⟨_, fits, ascending, _⟩ := h
  constructor
  · intro leads
    cases leads with
    | member there further =>
      have entry := ((ascending _ rfl).lookup_eq_some_iff ..).mp there
      exact ⟨_, _, decide_eq_true rfl, List.mem_map.mpr ⟨_, entry, rfl⟩, further⟩
    | anyMember there further => exact ⟨_, _, rfl, List.mem_map.mpr ⟨_, there, rfl⟩, further⟩
    | @item position items _ v _ there further =>
      have bound : 0 + items.length ≤ positionCount := by simpa using fits items rfl
      have part : (Segment.index position, v) ∈ Json.itemParts 0 items :=
        (Json.mem_itemParts_iff bound).mpr ⟨_, _, rfl, (Nat.zero_add _).symm, there⟩
      exact ⟨_, _, decide_eq_true rfl, part, further⟩
    | @anyItem items _ v _ there further =>
      obtain ⟨part, inside, rfl⟩ := Json.exists_part there
      exact ⟨part.1, part.2, rfl, inside, further⟩
  · rintro ⟨segment, part, accepted, there, further⟩
    cases v with
    | object members =>
      obtain ⟨entry, member, same⟩ := List.mem_map.mp there
      obtain ⟨rfl, rfl⟩ := Prod.mk.inj same
      cases step with
      | exact expected =>
        obtain rfl : expected = .field entry.1 := of_decide_eq_true accepted
        exact .member (((ascending _ rfl).lookup_eq_some_iff ..).mpr member) further
      | wildcard => exact .anyMember member further
    | array items =>
      cases step with
      | exact expected =>
        obtain rfl : expected = segment := of_decide_eq_true accepted
        have bound : 0 + items.length ≤ positionCount := by simpa using fits items rfl
        obtain ⟨position, n, rfl, count, item⟩ := (Json.mem_itemParts_iff bound).mp there
        rw [Nat.zero_add] at count
        exact .item (count ▸ item) further
      | wildcard => exact .anyItem (Json.mem_itemParts there) further
    | _ => cases there

theorem leadsTo_iff {v : Json} (h : v.Addressable) {p : Pattern} {w : Json} :
    LeadsTo p v w ↔ ∃ path, p.accepts path = true ∧ v.at? path = some w := by
  induction p generalizing v with
  | nil =>
    constructor
    · intro leads
      cases leads
      exact ⟨[], rfl, rfl⟩
    · rintro ⟨path, fits, there⟩
      cases path with
      | nil =>
        cases there
        exact .here _
      | cons segment rest => cases fits
  | cons step p ih =>
    rw [leadsTo_cons h]
    constructor
    · rintro ⟨segment, part, accepted, there, further⟩
      obtain ⟨path, fits, below⟩ := (ih (h.part there)).mp further
      refine ⟨segment :: path, (accepts_cons_iff ..).mpr ⟨accepted, fits⟩, ?_⟩
      rw [Json.at?_cons, h.step?_eq_some_iff.mpr there]
      exact below
    · rintro ⟨path, fits, there⟩
      cases path with
      | nil => cases fits
      | cons segment path =>
        rw [accepts_cons_iff] at fits
        rw [Json.at?_cons, Option.bind_eq_some_iff] at there
        obtain ⟨part, first, below⟩ := there
        have there := h.step?_eq_some_iff.mp first
        exact ⟨segment, part, fits.1, there, (ih (h.part there)).mpr ⟨path, fits.2, below⟩⟩

end Pattern

/-- A leaf at a path of a pattern passes operators exactly where the pattern leads to a position
that satisfies them. -/
theorem Condition.accepts_leaf_iff {v : Json} (h : v.Addressable) {c : Condition}
    (asks : c.operators ≠ []) :
    (∃ entry ∈ v.leaves, c.pattern.accepts entry.1 = true ∧
        c.operators.all (·.accepts entry.2) = true) ↔
      ∃ w, c.pattern.LeadsTo v w ∧ ∀ o ∈ c.operators, w.Satisfies o := by
  obtain ⟨first, some⟩ := List.exists_mem_of_ne_nil _ asks
  simp only [List.all_eq_true]
  constructor
  · rintro ⟨⟨path, leaf⟩, there, fits, passes⟩
    obtain ⟨w, position, isLeaf⟩ := h.mem_leaves_iff.mp there
    have notMarker : leaf.isMarker = false := by
      have one := passes first some
      rw [Operator.accepts, Bool.and_eq_true, Bool.not_eq_true'] at one
      exact one.1
    obtain ⟨value, read, rfl⟩ := (Scalar.leaf_iff w leaf).mp ⟨isLeaf, notMarker⟩
    refine ⟨w, (Pattern.leadsTo_iff h).mpr ⟨path, fits, position⟩, fun o ho => ?_⟩
    exact ⟨value, read, (o.accepts_leaf value).mp (passes o ho)⟩
  · rintro ⟨w, leads, satisfied⟩
    obtain ⟨path, fits, position⟩ := (Pattern.leadsTo_iff h).mp leads
    obtain ⟨value, read, _⟩ := satisfied first some
    obtain ⟨isLeaf, _⟩ := (Scalar.leaf_iff w value.leaf).mpr ⟨value, read, rfl⟩
    refine ⟨(path, value.leaf), h.mem_leaves_iff.mpr ⟨w, position, isLeaf⟩, fits, fun o ho => ?_⟩
    obtain ⟨same, again, holds⟩ := satisfied o ho
    obtain rfl : value = same := Except.ok.inj (read.symm.trans again)
    exact (o.accepts_leaf value).mpr holds

/-- The rows of a value pass a filter exactly if each condition leads to a position of the value
that satisfies all its operators together. A container satisfies none. -/
theorem Filter.accepts_written (limits : Limits) (document : String) (value : Json) (time : Int)
    (batch : Batch) (raw : String) (filter : Filter) (canonical : value.Canonical)
    (written : limits.put document Path.root value false time = .ok batch)
    (read : Filter.ofText limits.maxDepth raw = .ok filter) :
    (∃ cells, batch.rows.mapM Row.decode = .ok cells ∧
      (filter.accepts cells = true ↔
        ∀ c ∈ filter, ∃ w, c.pattern.LeadsTo value w ∧ ∀ o ∈ c.operators, w.Satisfies o)) ∧
      ∀ o items members,
        ¬ (Json.array items).Satisfies o ∧ ¬ (Json.object members).Satisfies o := by
  constructor
  · obtain ⟨rows, _, walked, _, rfl⟩ := Limits.put_eq_ok written
    obtain ⟨encodes, addressable⟩ := Limits.rows_writes walked
    have decoded := Row.mapM_decode_rows (encodes.cell_valid (List.forall_mem_nil _)) limits.maxDepth
    rw [← encodes.rows] at decoded
    refine ⟨_, decoded, ?_⟩
    rw [Filter.accepts, List.all_eq_true]
    refine forall₂_congr fun c hc => ?_
    rw [← c.accepts_leaf_iff (addressable canonical) (Filter.ofText_ne_nil read c hc).2,
      Condition.holds, Limits.Target.cells, List.any_map, List.any_eq_true]
    simp only [Function.comp_apply, Condition.accepts, List.nil_append, Path.root, Bool.and_eq_true]
  · intro o items members
    constructor <;>
    · rintro ⟨_, read, _⟩
      cases read

def Sample.listWithObject : Json :=
  .object [("a", .array [.int 1, .object [("x", .int 5)]]), ("e", .object [])]

theorem Sample.listWithObject_canonical : Sample.listWithObject.Canonical := by
  have inner : Json.Canonical (.object [("x", .int 5)]) :=
    Json.canonical_of_members (List.pairwise_singleton _ _)
      (List.forall_mem_singleton.mpr (Json.canonical_of_leaf rfl))
  have list : Json.Canonical (.array [.int 1, .object [("x", .int 5)]]) :=
    Json.canonical_of_items (List.forall_mem_cons.mpr ⟨Json.canonical_of_leaf rfl,
      List.forall_mem_singleton.mpr inner⟩)
  exact Json.canonical_of_members (.cons (List.forall_mem_singleton.mpr (by decide))
    (List.pairwise_singleton _ _)) (List.forall_mem_cons.mpr ⟨list,
    List.forall_mem_singleton.mpr (Json.canonical_of_leaf rfl)⟩)

theorem one_lt_positionCount : 1 < positionCount := by decide

theorem positionCount_pos : 0 < positionCount := by decide

/-- One number is strictly between two bounds, and another is a double that was written as an
integer. -/
def Sample.boundedNumber : Filter :=
  [⟨[.wildcard, .exact (.index ⟨1, one_lt_positionCount⟩), .exact (.field "x")],
      [.gt (.number (Double.ofInt 4)), .lt (.number (Double.ofInt 6))]⟩,
    ⟨[.exact (.field "a"), .exact (.index ⟨0, positionCount_pos⟩)],
      [.eq (.number (Double.ofInt 1))]⟩]

theorem Filter.accepts_written_bounded :
    ∃ batch cells, Limits.put ⟨3, 10⟩ "d" Path.root Sample.listWithObject false 7 = .ok batch ∧
      batch.rows.mapM Row.decode = .ok cells ∧ Sample.boundedNumber.accepts cells = true := by
  obtain ⟨⟨cells, decoded, iff⟩, _⟩ := Filter.accepts_written ⟨3, 10⟩ "d" Sample.listWithObject 7 _
    "\x7b\"*.[1].x\":\x7b\"$gt\":4,\"$lt\":6\x7d,\"a.[0]\":\x7b\"$eq\":1.0\x7d\x7d"
    Sample.boundedNumber Sample.listWithObject_canonical rfl (eq_ok_of_toOption (by decide +kernel))
  refine ⟨_, cells, rfl, decoded, iff.mpr fun c hc => ?_⟩
  rcases List.mem_cons.mp hc with rfl | hc
  · refine ⟨.int 5, .anyMember (List.mem_cons_self ..) (.item rfl (.member rfl (.here _))), ?_⟩
    exact List.forall_mem_cons.mpr ⟨⟨_, rfl, by decide +kernel⟩,
      List.forall_mem_singleton.mpr ⟨_, rfl, by decide +kernel⟩⟩
  · obtain rfl := List.mem_singleton.mp hc
    refine ⟨.int 1, .member rfl (.item rfl (.here _)), ?_⟩
    exact List.forall_mem_singleton.mpr ⟨_, rfl, by decide +kernel⟩

end LeafStore
