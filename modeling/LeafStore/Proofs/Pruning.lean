import LeafStore.Proofs.ArrayLengths
import LeafStore.Proofs.Members
import LeafStore.Proofs.RoundTrip
/-!
Projected reads. What a projection leaves of a value are the leaves at or below its fields with the
containers on the way to them. Items keep their positions: null stands for each item before the last
one kept of which nothing is kept.
-/
namespace LeafStore

namespace Json

mutual

/-- What is left of a value when only some of its leaves are kept, nothing if none is. -/
def pruned? (keep : Path → Bool) : Json → Option Json
  | .array items =>
    if items.isEmpty then if keep [] then some (.array []) else none
    else
      match prunedItems keep 0 items with
      | [] => none
      | kept => some (.array kept)
  | .object members =>
    if members.isEmpty then if keep [] then some (.object []) else none
    else
      match prunedMembers keep members with
      | [] => none
      | kept => some (.object kept)
  | leaf => if keep [] then some leaf else none

def prunedItems (keep : Path → Bool) (position : Nat) : List Json → List Json
  | [] => []
  | item :: rest =>
    match item.pruned? fun path => keep (itemSegment position :: path),
      prunedItems keep (position + 1) rest with
    | some kept, later => kept :: later
    | none, [] => []
    | none, later => .null :: later

def prunedMembers (keep : Path → Bool) : List (String × Json) → List (String × Json)
  | [] => []
  | (name, value) :: rest =>
    match value.pruned? fun path => keep (.field name :: path) with
    | some kept => (name, kept) :: prunedMembers keep rest
    | none => prunedMembers keep rest

end

def prune (keep : Path → Bool) (v : Json) : Json := (v.pruned? keep).getD (.object [])

def prunedParts (keep : Path → Bool) (parts : List (Segment × Json)) : List (Segment × Json) :=
  parts.filterMap fun p => (p.2.pruned? fun path => keep (p.1 :: path)).map (p.1, ·)

theorem pruned?_array (keep : Path → Bool) {items : List Json} (filled : items ≠ []) :
    (array items).pruned? keep =
      if prunedItems keep 0 items = [] then none else some (.array (prunedItems keep 0 items)) := by
  rw [pruned?, if_neg (by simpa using filled)]
  cases prunedItems keep 0 items <;> rfl

theorem pruned?_object (keep : Path → Bool) {members : List (String × Json)}
    (filled : members ≠ []) :
    (object members).pruned? keep =
      if prunedMembers keep members = [] then none
      else some (.object (prunedMembers keep members)) := by
  rw [pruned?, if_neg (by simpa using filled)]
  cases prunedMembers keep members <;> rfl

theorem prunedParts_ascending (keep : Path → Bool) {parts : List (Segment × Json)}
    (ascending : Sorted.Ascending parts) : Sorted.Ascending (prunedParts keep parts) :=
  ascending.filterMap fun made => by
    obtain ⟨_, _, rfl⟩ := Option.map_eq_some_iff.mp made
    rfl

theorem prunedParts_members (keep : Path → Bool) (members : List (String × Json)) :
    prunedParts keep (memberParts members) = memberParts (prunedMembers keep members) := by
  induction members with
  | nil => rfl
  | cons member rest ih =>
    obtain ⟨name, value⟩ := member
    have head : memberParts ((name, value) :: rest) = (.field name, value) :: memberParts rest := rfl
    rw [head, prunedMembers, prunedParts, List.filterMap_cons]
    cases value.pruned? fun path => keep (.field name :: path) with
    | none => exact ih
    | some kept => exact congrArg (List.cons (Segment.field name, kept)) ih

theorem prunedParts_items (keep : Path → Bool) (position : Nat) (items : List Json) :
    prunedParts keep (itemParts position items) = [] ↔ prunedItems keep position items = [] := by
  induction items generalizing position with
  | nil => simp [itemParts, prunedItems, prunedParts]
  | cons item rest ih =>
    rw [itemParts, prunedItems, prunedParts, List.filterMap_cons]
    cases item.pruned? fun path => keep (itemSegment position :: path) with
    | some kept => simp
    | none =>
      refine (ih (position + 1)).trans ?_
      cases prunedItems keep (position + 1) rest <;> simp

theorem isIndex_prunedItems {keep : Path → Bool} {items : List Json} {position : Nat}
    {p : Segment × Json} (there : p ∈ prunedParts keep (itemParts position items)) :
    p.1.isIndex = true := by
  obtain ⟨part, hp, same⟩ := List.mem_filterMap.mp there
  obtain ⟨_, _, rfl⟩ := Option.map_eq_some_iff.mp same
  have kind := isIndex_itemParts hp
  exact kind

theorem isIndex_memberParts {members : List (String × Json)} {p : Segment × Json}
    (there : p ∈ memberParts members) : p.1.isIndex = false := by
  obtain ⟨_, _, rfl⟩ := List.mem_map.mp there
  rfl

end Json

namespace Assembly

/-- What is left of items goes after what was placed before them, past the gap up to it. -/
theorem placeItems_pruned (keep : Path → Bool) (position : Nat) (items : List Json)
    (before : List (Segment × Json)) (room : (placeItems before).length ≤ position)
    (fits : position + items.length ≤ positionCount) :
    placeItems (before ++ Json.prunedParts keep (Json.itemParts position items)) =
      if Json.prunedItems keep position items = [] then placeItems before
      else placeItems before ++ List.replicate (position - (placeItems before).length) .null ++
        Json.prunedItems keep position items := by
  induction items generalizing position before with
  | nil => simp [Json.itemParts, Json.prunedParts, Json.prunedItems]
  | cons item rest ih =>
    rw [List.length_cons] at fits
    have here : position < positionCount := by omega
    have index : Fin.ofNat positionCount position = ⟨position, here⟩ :=
      Fin.ext (Nat.mod_eq_of_lt here)
    rw [Json.itemParts, Json.prunedItems, Json.itemSegment, Json.prunedParts, List.filterMap_cons,
      index]
    cases item.pruned? fun path => keep (.index ⟨position, here⟩ :: path) with
    | some kept =>
      have length := placeItems_length before ⟨position, here⟩ kept
      have placed := placeItems_append before ⟨position, here⟩ kept
      have next := ih (position + 1) (before ++ [(.index ⟨position, here⟩, kept)])
        (Nat.le_of_eq length) (by omega)
      rw [length, Nat.sub_self, placed, List.take_of_length_le room] at next
      rw [Option.map_some, List.append_cons]
      refine next.trans ?_
      cases Json.prunedItems keep (position + 1) rest <;> simp
    | none =>
      refine (ih (position + 1) before (by omega) (by omega)).trans ?_
      have gap : position + 1 - (placeItems before).length =
          position - (placeItems before).length + 1 := by omega
      cases Json.prunedItems keep (position + 1) rest with
      | nil => simp
      | cons kept later => simp [gap, List.replicate_succ']

theorem placeMembers_memberParts {members : List (String × Json)}
    (ascending : Sorted.Ascending members) : placeMembers (Json.memberParts members) = members := by
  rw [placeMembers, Json.memberParts, List.map_map]
  exact (congrArg Sorted.ofPairs (List.map_id members)).trans (Sorted.ofPairs_of_ascending ascending)

/-- What is left of a container is the container of what is left of its parts. -/
theorem pruned?_container (keep : Path → Bool) {v : Json}
    (items : ∀ items, v = .array items → items.length ≤ positionCount)
    (members : ∀ members, v = .object members → Sorted.Ascending members)
    (nonempty : v.parts ≠ []) :
    (Json.prunedParts keep v.parts = [] ↔ v.pruned? keep = none) ∧
      ∀ w, v.pruned? keep = some w → ∀ place,
        container place ((Json.prunedParts keep v.parts).map (·.1))
          (.ok (Json.prunedParts keep v.parts)) = .ok w := by
  cases v with
  | array elements =>
    have filled : elements ≠ [] := by
      rintro rfl
      exact nonempty rfl
    rw [Json.parts, Json.pruned?_array keep filled, Json.prunedParts_items]
    refine ⟨by simp, fun w left place => ?_⟩
    simp only [Option.ite_none_left_eq_some, Option.some.injEq] at left
    obtain ⟨kept, rfl⟩ := left
    have placed := placeItems_pruned keep 0 elements [] (Nat.le_refl _)
      (by simpa using items _ rfl)
    rw [if_neg kept] at placed
    have kinds : ((Json.prunedParts keep (Json.itemParts 0 elements)).map (·.1)).all
        Segment.isIndex = true := by
      rw [List.all_map, List.all_eq_true]
      exact fun p => Json.isIndex_prunedItems
    simp only [container, kinds, if_true, map_ok]
    simpa [placeItems] using placed
  | object entries =>
    have filled : entries ≠ [] := by
      rintro rfl
      exact nonempty rfl
    have parts := Json.prunedParts_members keep entries
    rw [Json.parts, Json.pruned?_object keep filled, parts, Json.memberParts, List.map_eq_nil_iff]
    refine ⟨by simp, fun w left place => ?_⟩
    simp only [Option.ite_none_left_eq_some, Option.some.injEq] at left
    obtain ⟨kept, rfl⟩ := left
    have ascending : Sorted.Ascending (Json.prunedMembers keep entries) := by
      have ordered : Sorted.Ascending (Json.memberParts entries) :=
        List.pairwise_map.mpr (members _ rfl)
      have left := Json.prunedParts_ascending keep ordered
      rw [parts, Json.memberParts, Sorted.Ascending, List.pairwise_map] at left
      exact left
    have fields : ∀ s ∈ (Json.memberParts (Json.prunedMembers keep entries)).map (·.1),
        s.isIndex = false := by
      rw [List.forall_mem_map]
      exact fun p => Json.isIndex_memberParts
    rw [← Json.memberParts, container_fields (by simpa [Json.memberParts] using kept) fields,
      placeMembers_memberParts ascending]
  | _ => exact absurd rfl nonempty

end Assembly

namespace Json

open Assembly (Branch spread under mem_spread mem_under)

@[simp] theorem parts_normal (v : Json) : v.normal.parts = v.parts.map fun p => (p.1, p.2.normal) := by
  rcases v.leaf_or_parts with ⟨leaf, isLeaf, _, none⟩ | ⟨_, nonempty, _⟩
  · rw [normal_of_leaf isLeaf, none]
    cases value : leaf.toJson with
    | array items => rw [Assembly.toJson_eq_array value]; rfl
    | object members => rw [Assembly.toJson_eq_object value]; rfl
    | _ => rfl
  · cases v with
    | array items => simp only [normal, normalItems_eq, parts, Assembly.itemParts_map]
    | object members => simp [normal, parts, memberParts]
    | _ => exact absurd rfl nonempty

@[simp] theorem pruned?_toJson (keep : Path → Bool) (leaf : Leaf) :
    leaf.toJson.pruned? keep = if keep [] then some leaf.toJson else none := by
  cases value : leaf.toJson with
  | array items => rw [Assembly.toJson_eq_array value]; rfl
  | object members => rw [Assembly.toJson_eq_object value]; rfl
  | _ => rfl

def kept (keep : Path → Bool) (v : Json) : Branch := v.leaves.filter fun entry => keep entry.1

def keptParts (keep : Path → Bool) (parts : List (Segment × Json)) : List (Segment × Branch) :=
  parts.filterMap fun p =>
    let leaves := p.2.kept fun path => keep (p.1 :: path)
    if leaves.isEmpty then none else some (p.1, leaves)

theorem kept_eq_spread (keep : Path → Bool) {v : Json} (nonempty : v.parts ≠ []) :
    v.kept keep = spread (keptParts keep v.parts) := by
  obtain ⟨_, _, _, none⟩ | ⟨_, _, leaves⟩ := v.leaf_or_parts
  · exact absurd none nonempty
  · rw [kept, leaves]
    induction v.parts with
    | nil => rfl
    | cons p rest ih =>
      have here : (under p.1 p.2.leaves).filter (fun entry => keep entry.1) =
          under p.1 (p.2.kept fun path => keep (p.1 :: path)) := by
        rw [under, List.filter_map]
        rfl
      have split : spread ((p :: rest).map fun p => (p.1, p.2.leaves)) =
          under p.1 p.2.leaves ++ spread (rest.map fun p => (p.1, p.2.leaves)) := rfl
      rw [split, List.filter_append, here, ih, keptParts, keptParts, List.filterMap_cons]
      cases p.2.kept fun path => keep (p.1 :: path) with
      | nil => rfl
      | cons entry more => rfl

theorem mem_kept_of_part {keep : Path → Bool} {v : Json} {p : Segment × Json} (hp : p ∈ v.parts)
    {entry : Path × Leaf} (there : entry ∈ p.2.kept fun path => keep (p.1 :: path)) :
    (p.1 :: entry.1, entry.2) ∈ v.kept keep := by
  obtain ⟨inside, kept⟩ := List.mem_filter.mp there
  refine List.mem_filter.mpr ⟨?_, kept⟩
  rcases v.leaf_or_parts with ⟨_, _, _, none⟩ | ⟨_, _, leaves⟩
  · rw [none] at hp
    cases hp
  · rw [leaves]
    exact mem_spread.mpr ⟨_, List.mem_map.mpr ⟨p, hp, rfl⟩, mem_under.mpr ⟨entry, inside, rfl⟩⟩

theorem keptParts_nonempty {keep : Path → Bool} {parts : List (Segment × Json)}
    {part : Segment × Branch} (there : part ∈ keptParts keep parts) : part.2 ≠ [] := by
  obtain ⟨p, _, same⟩ := List.mem_filterMap.mp there
  simp only [Option.ite_none_left_eq_some, List.isEmpty_iff, Option.some.injEq] at same
  obtain ⟨filled, rfl⟩ := same
  exact filled

theorem keptParts_ascending (keep : Path → Bool) {parts : List (Segment × Json)}
    (ascending : Sorted.Ascending parts) : Sorted.Ascending (keptParts keep parts) :=
  ascending.filterMap fun made => by
    simp only [Option.ite_none_left_eq_some, Option.some.injEq] at made
    obtain ⟨_, rfl⟩ := made
    rfl

theorem groups_kept {v : Json} (h : v.Addressable) (nonempty : v.parts ≠ []) (keep : Path → Bool) :
    Assembly.groups (v.kept keep) = keptParts keep v.parts := by
  rw [kept_eq_spread keep nonempty]
  exact Assembly.groups_spread (fun _ => keptParts_nonempty)
    ((keptParts_ascending keep h.segments).imp Sorted.ne_of_lt)

theorem ne_nil_of_mem_kept {keep : Path → Bool} {v : Json} (nonempty : v.parts ≠ []) :
    ∀ entry ∈ v.kept keep, entry.1 ≠ [] := by
  intro entry there
  rw [kept_eq_spread keep nonempty] at there
  obtain ⟨part, _, there⟩ := mem_spread.mp there
  obtain ⟨rest, _, rfl⟩ := mem_under.mp there
  exact List.cons_ne_nil _ _

theorem keptParts_cons (keep : Path → Bool) (p : Segment × Json) (rest : List (Segment × Json)) :
    keptParts keep (p :: rest) =
      if (p.2.kept fun path => keep (p.1 :: path)) = [] then keptParts keep rest
      else (p.1, p.2.kept fun path => keep (p.1 :: path)) :: keptParts keep rest := by
  rw [keptParts, List.filterMap_cons]
  cases p.2.kept fun path => keep (p.1 :: path) <;> rfl

theorem prunedParts_cons (keep : Path → Bool) (p : Segment × Json) (rest : List (Segment × Json)) :
    prunedParts keep (p :: rest) =
      match p.2.pruned? fun path => keep (p.1 :: path) with
      | none => prunedParts keep rest
      | some w => (p.1, w) :: prunedParts keep rest := by
  rw [prunedParts, List.filterMap_cons]
  cases p.2.pruned? fun path => keep (p.1 :: path) <;> rfl

variable {keep : Path → Bool} {parts : List (Segment × Json)}

theorem keptParts_segments
    (each : ∀ p ∈ parts, (p.2.kept fun path => keep (p.1 :: path)) = [] ↔
      (p.2.normal.pruned? fun path => keep (p.1 :: path)) = none) :
    (keptParts keep parts).map (·.1) =
      (prunedParts keep (parts.map fun p => (p.1, p.2.normal))).map (·.1) := by
  induction parts with
  | nil => rfl
  | cons p rest ih =>
    have others := ih fun q hq => each q (List.mem_cons_of_mem _ hq)
    have here := each p (List.mem_cons_self ..)
    rw [List.map_cons, keptParts_cons, prunedParts_cons]
    cases left : p.2.normal.pruned? fun path => keep (p.1 :: path) with
    | none => simpa [here.mpr left] using others
    | some w =>
      have filled : ¬ (p.2.kept fun path => keep (p.1 :: path)) = [] := by simp [here, left]
      simpa [filled] using others

theorem mapM_keptParts {f : Segment × Branch → Except RowError (Segment × Json)}
    (each : ∀ p ∈ parts, (p.2.kept fun path => keep (p.1 :: path)) = [] ↔
      (p.2.normal.pruned? fun path => keep (p.1 :: path)) = none)
    (built : ∀ p ∈ parts, ∀ w, (p.2.normal.pruned? fun path => keep (p.1 :: path)) = some w →
      f (p.1, p.2.kept fun path => keep (p.1 :: path)) = .ok (p.1, w)) :
    (keptParts keep parts).mapM f =
      .ok (prunedParts keep (parts.map fun p => (p.1, p.2.normal))) := by
  induction parts with
  | nil => rfl
  | cons p rest ih =>
    have others := ih (fun q hq => each q (List.mem_cons_of_mem _ hq))
      fun q hq => built q (List.mem_cons_of_mem _ hq)
    have here := each p (List.mem_cons_self ..)
    rw [List.map_cons, keptParts_cons, prunedParts_cons]
    cases left : p.2.normal.pruned? fun path => keep (p.1 :: path) with
    | none => simpa [here.mpr left] using others
    | some w =>
      have filled : ¬ (p.2.kept fun path => keep (p.1 :: path)) = [] := by simp [here, left]
      rw [if_neg filled, List.mapM_cons, built p (List.mem_cons_self ..) w left, others]
      rfl

theorem pruned?_normal {v : Json} (h : v.Addressable) (nonempty : v.parts ≠ [])
    (keep : Path → Bool) :
    (prunedParts keep v.normal.parts = [] ↔ v.normal.pruned? keep = none) ∧
      ∀ w, v.normal.pruned? keep = some w → ∀ place,
        Assembly.container place ((prunedParts keep v.normal.parts).map (·.1))
          (.ok (prunedParts keep v.normal.parts)) = .ok w := by
  obtain ⟨_, items, members, _⟩ := h
  have filled : v.normal.parts ≠ [] := by simpa using nonempty
  cases v with
  | array elements =>
    refine Assembly.pruned?_container keep ?_ (fun _ same => by cases same) filled
    rintro _ ⟨⟩
    simpa using items _ rfl
  | object entries =>
    refine Assembly.pruned?_container keep (fun _ same => by cases same) ?_ filled
    rintro _ ⟨⟩
    rw [normalMembers_eq]
    exact List.pairwise_map.mpr (members _ rfl)
  | _ => exact absurd rfl nonempty

theorem spread_eq_nil_iff {branches : List (Segment × Branch)}
    (filled : ∀ part ∈ branches, part.2 ≠ []) : spread branches = [] ↔ branches = [] := by
  refine ⟨fun none => ?_, fun none => none ▸ rfl⟩
  cases branches with
  | nil => rfl
  | cons part rest =>
    obtain ⟨first, _⟩ := List.append_eq_nil_iff.mp none
    exact absurd (List.map_eq_nil_iff.mp first) (filled part (List.mem_cons_self ..))

theorem kept_eq_nil_iff {v : Json} (h : v.Addressable) (keep : Path → Bool) :
    v.kept keep = [] ↔ v.normal.pruned? keep = none := by
  induction v using Json.induct generalizing keep with
  | whole v ih =>
    rcases v.leaf_or_parts with ⟨leaf, isLeaf, leaves, _⟩ | ⟨_, nonempty, _⟩
    · rw [normal_of_leaf isLeaf, pruned?_toJson, kept, leaves]
      by_cases root : keep [] = true <;> simp [root]
    · obtain ⟨none, _⟩ := pruned?_normal h nonempty keep
      obtain ⟨_, _, _, parts⟩ := h
      have segments := keptParts_segments fun p hp =>
        ih p hp (parts p hp) fun path => keep (p.1 :: path)
      rw [← parts_normal] at segments
      rw [kept_eq_spread keep nonempty, spread_eq_nil_iff fun _ => keptParts_nonempty,
        ← List.map_eq_nil_iff, segments, List.map_eq_nil_iff, none]

/-- What is left of a value is built from the leaves that are kept. -/
theorem build_kept {v w : Json} (h : v.Addressable) {keep : Path → Bool}
    (left : v.normal.pruned? keep = some w) {height : Nat} (place : Path)
    (room : ∀ entry ∈ v.kept keep, entry.1.length ≤ height) :
    Assembly.build height place (v.kept keep) = .ok w := by
  induction v using Json.induct generalizing keep w height place with
  | whole v ih =>
    have filled : v.kept keep ≠ [] := by simp [kept_eq_nil_iff h, left]
    rcases v.leaf_or_parts with ⟨leaf, isLeaf, leaves, _⟩ | ⟨_, nonempty, _⟩
    · rw [normal_of_leaf isLeaf, pruned?_toJson] at left
      simp only [Option.ite_none_right_eq_some, Option.some.injEq] at left
      obtain ⟨root, rfl⟩ := left
      have whole : v.kept keep = [([], leaf)] := by simp [kept, leaves, root]
      rw [whole]
      cases height <;> rfl
    · have whole := (pruned?_normal h nonempty keep).2 w left place
      have grouped := groups_kept h nonempty keep
      have deep : ∀ entry ∈ v.kept keep, entry.1 ≠ [] := ne_nil_of_mem_kept nonempty
      obtain ⟨_, _, _, parts⟩ := h
      -- A part is missing from the pruned value exactly if none of its leaves is kept.
      have each : ∀ p ∈ v.parts, (p.2.kept fun path => keep (p.1 :: path)) = [] ↔
          (p.2.normal.pruned? fun path => keep (p.1 :: path)) = none := fun p hp =>
        kept_eq_nil_iff (parts p hp) _
      obtain ⟨lower, rfl⟩ := Assembly.exists_lower filled deep room
      have built : (keptParts keep v.parts).mapM (fun part =>
          (Assembly.build lower (place.child part.1) part.2).map fun json => (part.1, json)) =
            .ok (prunedParts keep v.normal.parts) := by
        rw [parts_normal]
        refine mapM_keptParts each fun p hp w left => ?_
        have fits : ∀ entry ∈ p.2.kept fun path => keep (p.1 :: path),
            entry.1.length ≤ lower := fun entry he =>
          Nat.le_of_succ_le_succ (room _ (mem_kept_of_part hp he))
        rw [ih p hp (parts p hp) left (place.child p.1) fits]
        rfl
      rw [Assembly.build_parts lower place filled deep, grouped, built,
        keptParts_segments each, ← parts_normal]
      exact whole

end Json

theorem assemble_pruned {v : Json} (h : v.Addressable) (base : Path) (fields : Projection)
    {cells : List Cell} (leaves : (Assembly.below base cells).Perm v.leaves) :
    Assembly.assemble base (some fields) cells = .ok (some (v.normal.prune fields.includes)) := by
  have filled : (Assembly.below base cells).isEmpty = false := by
    rw [List.isEmpty_eq_false_iff]
    intro none
    exact v.leaves_ne_nil (List.nil_perm.mp (none ▸ leaves))
  have kept : (Assembly.projected (some fields) (Assembly.below base cells)).Perm
      (v.kept fields.includes) := leaves.filter _
  simp only [Assembly.assemble, filled, Bool.false_eq_true, if_false, Json.prune]
  cases left : v.normal.pruned? fields.includes with
  | none =>
    have none : Assembly.projected (some fields) (Assembly.below base cells) = [] := by
      rw [(Json.kept_eq_nil_iff h _).mpr left] at kept
      exact List.perm_nil.mp kept
    rw [none]
    rfl
  | some w =>
    have some : (Assembly.projected (some fields) (Assembly.below base cells)).isEmpty = false := by
      rw [List.isEmpty_eq_false_iff, Ne, ← List.length_eq_zero_iff, kept.length_eq,
        List.length_eq_zero_iff, Json.kept_eq_nil_iff h, left]
      exact Option.some_ne_none w
    have ascending : (v.kept fields.includes).Pairwise fun a b => a.1 < b.1 :=
      h.leaves_ascending.filter _
    have built := Json.build_kept h left Path.root fun entry he =>
      Assembly.length_le_height (kept.mem_iff.mpr he)
    rw [some, if_neg Bool.false_ne_true, Assembly.buildAll, Assembly.inOrder_eq kept ascending,
      built]
    rfl

/-- Reading the rows of a written value with a projection gives the value pruned by it: a leaf is
kept if a field leads to it or above it, and nothing is left but an empty object if none is. -/
theorem ofRows_put_projected (limits : Limits) (document : String) (target : Path) (value : Json)
    (fields : Projection) (time : Int) (batch : Batch) (rows : List Row) (valid : target.Valid)
    (canonical : value.Canonical)
    (written : limits.put document target value false time = .ok batch)
    (same : rows.Perm batch.rows) :
    Assembly.ofRows target (some fields) rows =
        .ok (some (value.normal.prune fun path => decide (∃ field ∈ fields, field <+: path))) ∧
      (value.normal.pruned? (fun path => decide (∃ field ∈ fields, field <+: path)) = none ↔
        ∀ entry ∈ value.leaves, ∀ field ∈ fields, ¬ field <+: entry.1) := by
  obtain ⟨addressable, cells, read, leaves⟩ := exists_leaves_of_put valid canonical written same
  have includes : fields.includes = fun path => decide (∃ field ∈ fields, field <+: path) := by
    funext path
    rw [Bool.eq_iff_iff]
    simp [Projection.includes]
  simp only [Assembly.ofRows, read]
  refine ⟨(assemble_pruned addressable target fields leaves).trans ?_, ?_⟩
  · rw [includes]
  · rw [← Json.kept_eq_nil_iff addressable, Json.kept, List.filter_eq_nil_iff]
    simp

def Sample.records : Json :=
  .object [("a", .array [.int 1, .object [("b", .int 2), ("c", .int 3)], .int 4]), ("d", .array [])]

theorem Sample.records_canonical : Sample.records.Canonical := by
  have int : ∀ n, Json.Canonical (.int n) := fun _ => Json.canonical_of_leaf rfl
  have empty : Json.Canonical (.array []) := Json.canonical_of_leaf rfl
  have pair : Json.Canonical (.object [("b", .int 2), ("c", .int 3)]) :=
    Json.canonical_of_members (List.pairwise_pair.mpr (by decide)) (by simp [int])
  have list : Json.Canonical (.array [.int 1, .object [("b", .int 2), ("c", .int 3)], .int 4]) :=
    Json.canonical_of_items (by simp [int, pair])
  exact Json.canonical_of_members (List.pairwise_pair.mpr (by decide)) (by simp [list, empty])

/-- Of an array an item before one that is kept is null, and the items after it are gone. -/
theorem ofRows_put_projected_records :
    ∃ batch, Limits.put ⟨4, 10⟩ "d" [] Sample.records false 7 = .ok batch ∧
      Assembly.ofRows [] (some [[.field "a", .index 1, .field "b"]]) batch.rows.reverse =
        .ok (some (.object [("a", .array [.null, .object [("b", .int 2)]])])) ∧
      Assembly.ofRows [] (some [[.field "d", .field "e"]]) batch.rows.reverse =
        .ok (some (.object [])) := by
  refine ⟨_, rfl, ?_, ?_⟩
  · exact (ofRows_put_projected ⟨4, 10⟩ "d" _ Sample.records _ 7 _ _ Path.valid_root
      Sample.records_canonical rfl
      (List.reverse_perm _)).1
  · exact (ofRows_put_projected ⟨4, 10⟩ "d" _ Sample.records _ 7 _ _ Path.valid_root
      Sample.records_canonical rfl
      (List.reverse_perm _)).1

end LeafStore
