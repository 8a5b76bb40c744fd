import LeafStore.Assembly
import LeafStore.Json.Reader
import LeafStore.Proofs.Order
import LeafStore.Proofs.Parting
import LeafStore.Proofs.Results
import LeafStore.Proofs.Sorted
/-!
The leaves of a value. They lie on paths that part, and their order in the value is the order of
their paths.
-/
namespace LeafStore

namespace Assembly

def under (segment : Segment) (branch : Branch) : Branch :=
  branch.map fun entry => (segment :: entry.1, entry.2)

def spread (parts : List (Segment × Branch)) : Branch :=
  parts.flatMap fun part => under part.1 part.2

@[simp] theorem mem_under {segment : Segment} {branch : Branch} {entry : Path × Leaf} :
    entry ∈ under segment branch ↔
      ∃ rest ∈ branch, entry = (segment :: rest.1, rest.2) := by
  simp only [under, List.mem_map, eq_comm]

@[simp] theorem mem_spread {parts : List (Segment × Branch)} {entry : Path × Leaf} :
    entry ∈ spread parts ↔ ∃ part ∈ parts, entry ∈ under part.1 part.2 := List.mem_flatMap

/-- Related paths stay related one step down, and paths of two branches are related as the
segments of the branches are. -/
theorem spread_pairwise {parts : List (Segment × Branch)} {R : Path → Path → Prop}
    (deeper : ∀ s p q, R p q → R (s :: p) (s :: q))
    (within : ∀ part ∈ parts, part.2.Pairwise fun a b => R a.1 b.1)
    (across : parts.Pairwise fun a b => ∀ p q, R (a.1 :: p) (b.1 :: q)) :
    (spread parts).Pairwise fun a b => R a.1 b.1 := by
  refine List.pairwise_flatMap.mpr ⟨fun part there => ?_, across.imp fun related => ?_⟩
  · exact List.pairwise_map.mpr ((within part there).imp fun h => deeper part.1 _ _ h)
  · intro x hx y hy
    obtain ⟨_, _, rfl⟩ := mem_under.mp hx
    obtain ⟨_, _, rfl⟩ := mem_under.mp hy
    exact related _ _

end Assembly

open Assembly (Branch under spread mem_under mem_spread)

namespace Json

mutual

/-- The leaves of a value by their paths, in the order of the value. -/
def leaves : Json → Branch
  | .null => [([], .null)]
  | .bool b => [([], .bool b)]
  | .int n => [([], .number (Double.ofInt n))]
  | .float d => [([], .number d)]
  | .text s => [([], .text s)]
  | .array [] => [([], .emptyArray)]
  | .array (item :: rest) => under (.index (Fin.ofNat _ 0)) item.leaves ++ itemLeaves 1 rest
  | .object [] => [([], .emptyObject)]
  | .object ((name, value) :: rest) => under (.field name) value.leaves ++ memberLeaves rest

def itemLeaves (position : Nat) : List Json → Branch
  | [] => []
  | item :: rest =>
    under (.index (Fin.ofNat _ position)) item.leaves ++ itemLeaves (position + 1) rest

def memberLeaves : List (String × Json) → Branch
  | [] => []
  | (name, value) :: rest => under (.field name) value.leaves ++ memberLeaves rest

end

def itemParts (position : Nat) : List Json → List (Segment × Json)
  | [] => []
  | item :: rest => (.index (Fin.ofNat _ position), item) :: itemParts (position + 1) rest

def memberParts (members : List (String × Json)) : List (Segment × Json) :=
  members.map fun member => (.field member.1, member.2)

abbrev itemSegment (position : Nat) : Segment := .index (Fin.ofNat _ position)

def parts : Json → List (Segment × Json)
  | .array items => itemParts 0 items
  | .object members => memberParts members
  | _ => []

@[simp] theorem itemParts_values (position : Nat) (items : List Json) :
    (itemParts position items).map (·.2) = items := by
  induction items generalizing position with
  | nil => rfl
  | cons item rest ih => rw [itemParts, List.map_cons, ih]

theorem mem_itemParts {items : List Json} {position : Nat} {part : Segment × Json}
    (h : part ∈ itemParts position items) : part.2 ∈ items := by
  rw [← itemParts_values position items]
  exact List.mem_map.mpr ⟨part, h, rfl⟩

theorem exists_part {items : List Json} {item : Json} (there : item ∈ items) :
    ∃ p ∈ (array items).parts, p.2 = item := by
  rw [← itemParts_values 0 items] at there
  exact List.mem_map.mp there

theorem sizeOf_part {v : Json} {p : Segment × Json} (h : p ∈ v.parts) :
    sizeOf p.2 < sizeOf v := by
  cases v with
  | array items =>
    have smaller := List.sizeOf_lt_of_mem (mem_itemParts h)
    simp only [array.sizeOf_spec]
    omega
  | object members =>
    obtain ⟨member, there, rfl⟩ := List.mem_map.mp h
    have smaller := List.sizeOf_lt_of_mem there
    have part : sizeOf member = 1 + sizeOf member.1 + sizeOf member.2 := rfl
    simp only [object.sizeOf_spec]
    omega
  | _ => cases h

/-- A property of all values follows if it passes from the parts of a value to the value. -/
theorem induct {motive : Json → Prop} (whole : ∀ v, (∀ p ∈ v.parts, motive p.2) → motive v)
    (v : Json) : motive v :=
  whole v fun p _ => induct whole p.2
termination_by sizeOf v
decreasing_by exact sizeOf_part ‹_›

theorem itemLeaves_eq (position : Nat) (items : List Json) :
    itemLeaves position items =
      spread ((itemParts position items).map fun p => (p.1, p.2.leaves)) := by
  induction items generalizing position with
  | nil => rfl
  | cons item rest ih =>
    rw [itemLeaves, ih]
    rfl

theorem memberLeaves_eq (members : List (String × Json)) :
    memberLeaves members = spread ((memberParts members).map fun p => (p.1, p.2.leaves)) := by
  induction members with
  | nil => rfl
  | cons member rest ih =>
    rw [memberLeaves, ih]
    rfl

theorem leaf_or_parts (v : Json) :
    (∃ leaf, Leaf.ofJson? v = some leaf ∧ v.leaves = [([], leaf)] ∧ v.parts = []) ∨
      Leaf.ofJson? v = none ∧ v.parts ≠ [] ∧
        v.leaves = spread (v.parts.map fun p => (p.1, p.2.leaves)) := by
  cases v with
  | array items =>
    cases items with
    | nil => exact .inl ⟨_, rfl, rfl, rfl⟩
    | cons item rest => exact .inr ⟨rfl, List.cons_ne_nil _ _, itemLeaves_eq 0 (item :: rest)⟩
  | object members =>
    cases members with
    | nil => exact .inl ⟨_, rfl, rfl, rfl⟩
    | cons member rest => exact .inr ⟨rfl, List.cons_ne_nil _ _, memberLeaves_eq (member :: rest)⟩
  | _ => exact .inl ⟨_, rfl, rfl, rfl⟩

/-- Every array has a position for each of its items, and the members of every object are in
ascending order. -/
inductive Addressable : Json → Prop where
  | intro (v : Json) (items : ∀ items, v = .array items → items.length ≤ positionCount)
      (members : ∀ members, v = .object members → Sorted.Ascending members)
      (parts : ∀ p ∈ v.parts, Addressable p.2) : Addressable v

/-- The members of every object are in ascending order. -/
inductive Canonical : Json → Prop where
  | intro (v : Json) (members : ∀ members, v = .object members → Sorted.Ascending members)
      (parts : ∀ p ∈ v.parts, Canonical p.2) : Canonical v

theorem parts_of_leaf {v : Json} {leaf : Leaf} (isLeaf : Leaf.ofJson? v = some leaf) :
    v.parts = [] := by
  rcases v.leaf_or_parts with ⟨_, _, _, none⟩ | ⟨other, _, _⟩
  · exact none
  · rw [other] at isLeaf
    cases isLeaf

theorem canonical_of_leaf {v : Json} {leaf : Leaf} (isLeaf : Leaf.ofJson? v = some leaf) :
    v.Canonical := by
  have whole := parts_of_leaf isLeaf
  refine .intro v (fun members same => ?_) (whole ▸ List.forall_mem_nil _)
  subst same
  rw [List.map_eq_nil_iff.mp whole]
  exact List.Pairwise.nil

theorem addressable_of_leaf {v : Json} {leaf : Leaf} (isLeaf : Leaf.ofJson? v = some leaf) :
    v.Addressable := by
  have whole := parts_of_leaf isLeaf
  obtain ⟨_, ascending, _⟩ := canonical_of_leaf isLeaf
  refine .intro v (fun items same => ?_) ascending (whole ▸ List.forall_mem_nil _)
  subst same
  have none : items = [] := by
    rw [← itemParts_values 0 items]
    exact List.map_eq_nil_iff.mpr whole
  rw [none]
  exact Nat.zero_le _

theorem canonical_of_items {items : List Json} (each : ∀ item ∈ items, item.Canonical) :
    Canonical (.array items) :=
  .intro _ (fun _ same => by cases same) fun _ hp => each _ (mem_itemParts hp)

theorem canonical_of_members {members : List (String × Json)} (ascending : Sorted.Ascending members)
    (each : ∀ member ∈ members, member.2.Canonical) : Canonical (.object members) := by
  refine .intro _ (fun _ same => by cases same; exact ascending) fun p hp => ?_
  obtain ⟨member, there, rfl⟩ := List.mem_map.mp hp
  exact each member there

mutual

theorem Tree.value_canonical : ∀ t : Tree, t.value.Canonical
  | .null | .bool _ | .text _ => canonical_of_leaf rfl
  | .number numeral => by
    have plain : ∀ v, numeral.value? = some v → v.Canonical := by
      intro v value
      unfold Numeral.value? at value
      split at value
      · cases value
        exact canonical_of_leaf rfl
      · dsimp only at value
        split at value
        · cases value
          exact canonical_of_leaf rfl
        · cases value
    rw [Tree.value]
    cases value : numeral.value? with
    | none => exact canonical_of_leaf rfl
    | some v => exact plain v value
  | .array items => canonical_of_items (Tree.itemValues_canonical items)
  | .object members =>
    canonical_of_members (Sorted.ofPairs_ascending _) fun member there =>
      Tree.memberValues_canonical members member (Sorted.mem_of_mem_ofPairs there)

theorem Tree.itemValues_canonical : ∀ (items : List Tree), ∀ v ∈ Tree.itemValues items, v.Canonical
  | [] => List.forall_mem_nil _
  | item :: rest => List.forall_mem_cons.mpr
    ⟨Tree.value_canonical item, Tree.itemValues_canonical rest⟩

theorem Tree.memberValues_canonical :
    ∀ (members : List (String × Tree)), ∀ m ∈ Tree.memberValues members, m.2.Canonical
  | [] => List.forall_mem_nil _
  | (_, value) :: rest => List.forall_mem_cons.mpr
    ⟨Tree.value_canonical value, Tree.memberValues_canonical rest⟩

end

theorem ofText_canonical {policy : Policy} {text : String} {v : Json}
    (read : ofText policy text = .ok v) : v.Canonical := by
  obtain ⟨tree, _, rfl⟩ := map_eq_ok read
  exact tree.value_canonical

theorem itemParts_segments {items : List Json} {position : Nat}
    (fits : position + items.length ≤ positionCount) :
    (itemParts position items).Pairwise fun a b => a.1 < b.1 := by
  have later : ∀ (items : List Json) (start : Nat), start + items.length ≤ positionCount →
      ∀ p ∈ itemParts start items, ∃ k, start ≤ k ∧ ∃ h : k < positionCount,
        p.1 = .index ⟨k, h⟩ := by
    intro items
    induction items with
    | nil => exact fun _ _ => List.forall_mem_nil _
    | cons item rest ih =>
      intro start fits p hp
      simp only [List.length_cons] at fits
      rcases List.mem_cons.mp hp with rfl | hp
      · have bound : start < positionCount := by omega
        refine ⟨start, Nat.le_refl _, bound, ?_⟩
        simp [Fin.ofNat, Nat.mod_eq_of_lt bound]
      · obtain ⟨k, after, rest⟩ := ih (start + 1) (by omega) p hp
        exact ⟨k, by omega, rest⟩
  induction items generalizing position with
  | nil => exact List.Pairwise.nil
  | cons item rest ih =>
    simp only [List.length_cons] at fits
    refine List.Pairwise.cons (fun p hp => ?_) (ih (by omega))
    obtain ⟨k, after, bound, place⟩ := later rest (position + 1) (by omega) p hp
    have first : position < positionCount := by omega
    rw [place]
    show Fin.ofNat _ position < (⟨k, bound⟩ : Fin positionCount)
    simp [Fin.lt_def, Fin.ofNat, Nat.mod_eq_of_lt first]
    omega

theorem Addressable.segments {v : Json} (h : v.Addressable) :
    v.parts.Pairwise fun a b => a.1 < b.1 := by
  obtain ⟨_, items, members, _⟩ := h
  cases v with
  | array elements => exact itemParts_segments (by simpa using items _ rfl)
  | object entries => exact List.pairwise_map.mpr (members _ rfl)
  | _ => exact List.Pairwise.nil

theorem isIndex_itemParts {items : List Json} {position : Nat} {p : Segment × Json}
    (h : p ∈ itemParts position items) : p.1.isIndex = true := by
  induction items generalizing position with
  | nil => cases h
  | cons item rest ih =>
    rcases List.mem_cons.mp h with rfl | h
    · rfl
    · exact ih h

theorem parts_kinds {v : Json} {a b : Segment × Json} (ha : a ∈ v.parts) (hb : b ∈ v.parts) :
    a.1.isIndex = b.1.isIndex := by
  cases v with
  | array items => exact (isIndex_itemParts ha).trans (isIndex_itemParts hb).symm
  | object members =>
    obtain ⟨_, _, rfl⟩ := List.mem_map.mp ha
    obtain ⟨_, _, rfl⟩ := List.mem_map.mp hb
    rfl
  | _ => cases ha

theorem leaves_ne_nil (v : Json) : v.leaves ≠ [] := by
  induction v using induct with
  | whole v ih =>
    rcases v.leaf_or_parts with ⟨leaf, _, leaves, _⟩ | ⟨_, nonempty, leaves⟩
    · simp [leaves]
    · obtain ⟨p, hp⟩ := List.exists_mem_of_ne_nil _ nonempty
      obtain ⟨entry, he⟩ := List.exists_mem_of_ne_nil _ (ih p hp)
      intro none
      have there : (p.1 :: entry.1, entry.2) ∈ v.leaves := by
        rw [leaves]
        exact mem_spread.mpr ⟨_, List.mem_map.mpr ⟨p, hp, rfl⟩, mem_under.mpr ⟨entry, he, rfl⟩⟩
      simp [none] at there

/-- What passes to longer paths, and holds of paths that go on with ascending segments of one kind, holds
of the paths to the leaves of a value. -/
theorem Addressable.leaves_pairwise {R : Path → Path → Prop}
    (deeper : ∀ s p q, R p q → R (s :: p) (s :: q))
    (across : ∀ s t p q, s < t → s.isIndex = t.isIndex → R (s :: p) (t :: q)) {v : Json}
    (h : v.Addressable) : v.leaves.Pairwise fun a b => R a.1 b.1 := by
  induction v using induct with
  | whole v ih =>
    rcases v.leaf_or_parts with ⟨leaf, _, leaves, _⟩ | ⟨_, _, leaves⟩
    · simp [leaves]
    · have segments := h.segments
      obtain ⟨_, _, _, parts⟩ := h
      rw [leaves]
      refine Assembly.spread_pairwise deeper ?_ ?_
      · intro part there
        obtain ⟨p, hp, rfl⟩ := List.mem_map.mp there
        exact ih p hp (parts p hp)
      · exact List.pairwise_map.mpr (segments.imp_of_mem fun ha hb less p q =>
          across _ _ p q less (parts_kinds ha hb))

theorem Addressable.leaves_ascending {v : Json} (h : v.Addressable) :
    v.leaves.Pairwise fun a b => a.1 < b.1 :=
  h.leaves_pairwise (fun _ _ _ less => List.Lex.cons less) fun _ _ _ _ less _ => List.Lex.rel less

theorem Addressable.leaves_part {v : Json} (h : v.Addressable) :
    v.leaves.Pairwise fun a b => a.1.Parts b.1 :=
  h.leaves_pairwise (fun _ _ _ part => .inl ⟨rfl, part⟩) fun _ _ _ _ less kinds =>
    .inr ⟨Sorted.ne_of_lt less, kinds⟩

end Json

end LeafStore
