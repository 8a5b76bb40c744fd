import LeafStore.Proofs.Leaves
/-!
Positions of a value. A path leads through a value one container at a time, and the leaves of the
value lie where its paths end at a scalar or at an empty container.
-/
namespace LeafStore

open Assembly (mem_spread mem_under)

namespace Json

@[simp] theorem at?_cons (v : Json) (segment : Segment) (path : Path) :
    v.at? (segment :: path) = (v.step? segment).bind (·.at? path) := rfl

theorem mem_itemParts_iff {items : List Json} {start : Nat}
    (fits : start + items.length ≤ positionCount) {segment : Segment} {w : Json} :
    (segment, w) ∈ itemParts start items ↔
      ∃ position : Fin positionCount, ∃ n, segment = .index position ∧ position.val = start + n ∧
        items[n]? = some w := by
  induction items generalizing start with
  | nil =>
    refine ⟨fun there => absurd there List.not_mem_nil, ?_⟩
    rintro ⟨_, _, _, _, there⟩
    cases there
  | cons item rest ih =>
    simp only [List.length_cons] at fits
    have bound : start < positionCount := by omega
    have first : (Fin.ofNat positionCount start).val = start := Nat.mod_eq_of_lt bound
    rw [itemParts, List.mem_cons, ih (by omega)]
    constructor
    · rintro (same | ⟨position, n, place, count, there⟩)
      · obtain ⟨rfl, rfl⟩ := Prod.mk.inj same
        exact ⟨_, 0, rfl, first, rfl⟩
      · exact ⟨position, n + 1, place, by omega, there⟩
    · rintro ⟨position, n, rfl, count, there⟩
      cases n with
      | zero =>
        have same : position = Fin.ofNat _ start := Fin.ext (count.trans first.symm)
        exact .inl (Prod.ext (congrArg Segment.index same) (Option.some.inj there).symm)
      | succ n => exact .inr ⟨position, n, rfl, by omega, there⟩

theorem Addressable.step?_eq_some_iff {v : Json} (h : v.Addressable) {segment : Segment}
    {w : Json} : v.step? segment = some w ↔ (segment, w) ∈ v.parts := by
  obtain ⟨_, fits, ascending, _⟩ := h
  cases v with
  | array items =>
    have bound : 0 + items.length ≤ positionCount := by simpa using fits items rfl
    rw [parts, mem_itemParts_iff bound]
    constructor
    · intro there
      cases segment with
      | index position => exact ⟨position, position.val, rfl, (Nat.zero_add _).symm, there⟩
      | field name => cases there
    · rintro ⟨position, n, rfl, count, there⟩
      rw [Nat.zero_add] at count
      rw [← count] at there
      exact there
  | object members =>
    rw [parts, memberParts, List.mem_map]
    constructor
    · intro there
      cases segment with
      | index position => cases there
      | field name =>
        exact ⟨(name, w), ((ascending members rfl).lookup_eq_some_iff ..).mp there, rfl⟩
    · rintro ⟨member, there, same⟩
      obtain ⟨rfl, rfl⟩ := Prod.mk.inj same
      exact ((ascending members rfl).lookup_eq_some_iff ..).mpr there
  | _ => exact ⟨fun there => (by cases segment <;> cases there), fun there => (by cases there)⟩

theorem Addressable.part {v : Json} (h : v.Addressable) {p : Segment × Json} (there : p ∈ v.parts) :
    p.2.Addressable := by
  obtain ⟨_, _, _, parts⟩ := h
  exact parts p there

/-- The leaves of a value are the scalars and the empty containers that its paths lead to. -/
theorem Addressable.mem_leaves_iff {v : Json} (h : v.Addressable) {path : Path} {leaf : Leaf} :
    (path, leaf) ∈ v.leaves ↔ ∃ w, v.at? path = some w ∧ Leaf.ofJson? w = some leaf := by
  induction v using induct generalizing path with
  | whole v ih =>
    rcases v.leaf_or_parts with ⟨own, isLeaf, leaves, whole⟩ | ⟨container, _, leaves⟩
    · rw [leaves, List.mem_singleton]
      constructor
      · intro same
        obtain ⟨rfl, rfl⟩ := Prod.mk.inj same
        exact ⟨v, rfl, isLeaf⟩
      · rintro ⟨w, there, isLeaf'⟩
        cases path with
        | nil =>
          cases there
          rw [isLeaf] at isLeaf'
          rw [Option.some.inj isLeaf']
        | cons segment rest =>
          rw [at?_cons, Option.bind_eq_some_iff] at there
          obtain ⟨part, step, _⟩ := there
          rw [h.step?_eq_some_iff, whole] at step
          cases step
    · rw [leaves, mem_spread]
      constructor
      · rintro ⟨branch, hb, there⟩
        obtain ⟨part, hp, rfl⟩ := List.mem_map.mp hb
        obtain ⟨entry, he, same⟩ := mem_under.mp there
        obtain ⟨rfl, rfl⟩ := Prod.mk.inj same
        obtain ⟨w, below, isLeaf⟩ := (ih part hp (h.part hp)).mp he
        refine ⟨w, ?_, isLeaf⟩
        rw [at?_cons, h.step?_eq_some_iff.mpr hp]
        exact below
      · rintro ⟨w, there, isLeaf⟩
        cases path with
        | nil =>
          cases there
          rw [container] at isLeaf
          cases isLeaf
        | cons segment rest =>
          rw [at?_cons, Option.bind_eq_some_iff] at there
          obtain ⟨part, step, below⟩ := there
          have hp := h.step?_eq_some_iff.mp step
          have he := (ih _ hp (h.part hp)).mpr ⟨w, below, isLeaf⟩
          exact ⟨_, List.mem_map.mpr ⟨_, hp, rfl⟩, mem_under.mpr ⟨_, he, rfl⟩⟩

end Json

end LeafStore
