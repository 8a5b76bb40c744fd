import LeafStore.Proofs.Batches
import LeafStore.Proofs.Convergence
import LeafStore.Proofs.Positions
/-!
Writes that are accepted. A value fits below a path if the columns are deep enough for it, its
members have permitted names and its arrays are short enough. Exactly then it is accepted, and
the changes are one row for each of its leaves and deletions that spare these rows.
-/
namespace LeafStore

open Assembly (Branch)

namespace Json

/-- A value is another value or lies somewhere inside it. -/
inductive Occurs (w : Json) : Json → Prop where
  | here : Occurs w w
  | item {v : Json} {items : List Json} : v ∈ items → Occurs w v → Occurs w (.array items)
  | member {name : String} {v : Json} {members : List (String × Json)} :
      (name, v) ∈ members → Occurs w v → Occurs w (.object members)

mutual

/-- How deep containers are nested: zero for a scalar and for an empty container, and one more
than the deepest part for any other. -/
def depth : Json → Nat
  | .array items => itemDepth items
  | .object members => memberDepth members
  | _ => 0

def itemDepth : List Json → Nat
  | [] => 0
  | item :: rest => max (1 + item.depth) (itemDepth rest)

def memberDepth : List (String × Json) → Nat
  | [] => 0
  | (_, value) :: rest => max (1 + value.depth) (memberDepth rest)

end

@[simp] theorem forall_items_iff {items : List Json} {P : Json → Prop} :
    (∀ p ∈ (array items).parts, P p.2) ↔ ∀ item ∈ items, P item := by
  refine ⟨fun each item hi => ?_, fun each p hp => each _ (mem_itemParts hp)⟩
  obtain ⟨p, hp, rfl⟩ := exists_part hi
  exact each p hp

@[simp] theorem forall_members_iff {members : List (String × Json)} {P : Json → Prop} :
    (∀ p ∈ (object members).parts, P p.2) ↔ ∀ member ∈ members, P member.2 :=
  List.forall_mem_map

theorem depth_le_iff {v : Json} {limit : Nat} :
    v.depth ≤ limit ↔ ∀ p ∈ v.parts, 1 + p.2.depth ≤ limit := by
  cases v with
  | array items =>
    rw [forall_items_iff (P := fun item => 1 + item.depth ≤ limit), depth]
    induction items with
    | nil => simp [itemDepth]
    | cons item rest ih => rw [itemDepth, Nat.max_le, ih, List.forall_mem_cons]
  | object members =>
    rw [forall_members_iff (P := fun value => 1 + value.depth ≤ limit), depth]
    induction members with
    | nil => simp [memberDepth]
    | cons member rest ih => rw [memberDepth, Nat.max_le, ih, List.forall_mem_cons]
  | _ => exact ⟨fun _ => List.forall_mem_nil _, fun _ => Nat.zero_le _⟩

theorem occurs_iff {w v : Json} : w.Occurs v ↔ v = w ∨ ∃ p ∈ v.parts, w.Occurs p.2 := by
  constructor
  · intro inside
    cases inside with
    | here => exact .inl rfl
    | @item v items there inside =>
      obtain ⟨p, hp, rfl⟩ := exists_part there
      exact .inr ⟨p, hp, inside⟩
    | @member name v members there inside =>
      exact .inr ⟨_, List.mem_map_of_mem there, inside⟩
  · rintro (rfl | ⟨p, hp, inside⟩)
    · exact .here
    · cases v with
      | array items => exact .item (mem_itemParts hp) inside
      | object members =>
        obtain ⟨member, there, rfl⟩ := List.mem_map.mp hp
        exact .member there inside
      | _ => cases hp

end Json

/-- What a member of an object may be called. -/
structure Permitted (name : String) : Prop where
  nonempty : name ≠ ""
  plain : ∀ c ∈ ['[', ']', '.', '*'], c ∉ name.toList
  notMarker : name ≠ emptyObjectMarker ∧ name ≠ emptyArrayMarker

theorem exists_ofName_eq_ok_iff {name : String} :
    (∃ segment, Segment.ofName name = .ok segment) ↔ Permitted name := by
  have free : (∀ c ∈ name.toList, Segment.isReserved c = false) ↔
      ∀ c ∈ ['[', ']', '.', '*'], c ∉ name.toList := by
    simp only [Segment.isReserved, Bool.or_eq_false_iff, decide_eq_false_iff_not,
      List.forall_mem_cons]
    grind
  have valid := Segment.valid_field_iff name
  constructor
  · rintro ⟨segment, ok⟩
    obtain ⟨rfl, checked⟩ := Limits.ofName_eq_ok ok
    obtain ⟨nonempty, plain, notMarker⟩ := valid.mp checked
    exact ⟨nonempty, free.mp plain, notMarker⟩
  · rintro ⟨nonempty, plain, notMarker⟩
    exact ⟨.field name, valid.mpr ⟨nonempty, free.mpr plain, notMarker⟩⟩

@[simp] theorem exists_ofPosition_eq_ok_iff {position : Nat} :
    (∃ segment, Segment.ofPosition position = .ok segment) ↔ position < positionCount := by
  constructor
  · rintro ⟨segment, ok⟩
    exact (Limits.ofPosition_eq_ok ok).1
  · intro bound
    exact ⟨_, dif_pos bound⟩

namespace Limits

variable {limits : Limits}

/-- A value fits at a place with so many segments above it. -/
structure Fits (limits : Limits) (level : Nat) (v : Json) : Prop where
  target : level ≤ limits.maxDepth
  depth : level + v.depth ≤ limits.maxDepth
  names : ∀ members, Json.Occurs (.object members) v → ∀ member ∈ members, Permitted member.1
  arrays : ∀ items, Json.Occurs (.array items) v →
    items.length ≤ min limits.maxArrayLength positionCount

theorem fits_iff {level : Nat} {v : Json} : limits.Fits level v ↔ level ≤ limits.maxDepth ∧
    (∀ members, v = .object members → ∀ member ∈ members, Permitted member.1) ∧
    (∀ items, v = .array items → items.length ≤ min limits.maxArrayLength positionCount) ∧
    ∀ p ∈ v.parts, limits.Fits (level + 1) p.2 := by
  constructor
  · rintro ⟨target, depth, names, arrays⟩
    have deep := Json.depth_le_iff.mp (show v.depth ≤ limits.maxDepth - level by omega)
    refine ⟨target, ?_, ?_, fun p hp => ⟨?_, ?_, ?_, ?_⟩⟩
    · rintro members rfl
      exact names members .here
    · rintro items rfl
      exact arrays items .here
    · have := deep p hp
      omega
    · have := deep p hp
      omega
    · exact fun members inside => names members (Json.occurs_iff.mpr (.inr ⟨p, hp, inside⟩))
    · exact fun items inside => arrays items (Json.occurs_iff.mpr (.inr ⟨p, hp, inside⟩))
  · rintro ⟨target, names, arrays, parts⟩
    refine ⟨target, ?_, fun members inside => ?_, fun items inside => ?_⟩
    · have deep : v.depth ≤ limits.maxDepth - level := Json.depth_le_iff.mpr fun p hp => by
        have := (parts p hp).depth
        omega
      omega
    · rcases Json.occurs_iff.mp inside with here | ⟨p, hp, inside⟩
      · exact names members here
      · exact (parts p hp).names members inside
    · rcases Json.occurs_iff.mp inside with here | ⟨p, hp, inside⟩
      · exact arrays items here
      · exact (parts p hp).arrays items inside

theorem fits_leaf_iff {level : Nat} {v : Json} {leaf : Leaf} (isLeaf : Leaf.ofJson? v = some leaf) :
    limits.Fits level v ↔ level ≤ limits.maxDepth := by
  refine ⟨Fits.target, fun target => fits_iff.mpr ⟨target, ?_, ?_, ?_⟩⟩
  · rintro (_ | _) rfl
    · exact List.forall_mem_nil _
    · cases isLeaf
  · rintro (_ | _) rfl
    · exact Nat.zero_le _
    · cases isLeaf
  · exact Json.parts_of_leaf isLeaf ▸ List.forall_mem_nil _

theorem fits_array_iff {level : Nat} {item : Json} {rest : List Json} :
    limits.Fits level (.array (item :: rest)) ↔ level < limits.maxDepth ∧
      (item :: rest).length ≤ min limits.maxArrayLength positionCount ∧
      ∀ v ∈ item :: rest, limits.Fits (level + 1) v := by
  rw [fits_iff, Json.forall_items_iff (P := limits.Fits (level + 1))]
  constructor
  · rintro ⟨_, _, short, parts⟩
    exact ⟨(parts item (List.mem_cons_self ..)).target, short _ rfl, parts⟩
  · rintro ⟨room, short, parts⟩
    exact ⟨Nat.le_of_lt room, fun _ same => (by cases same), fun _ same => (by cases same; exact short),
      parts⟩

theorem fits_object_iff {level : Nat} {member : String × Json} {rest : List (String × Json)} :
    limits.Fits level (.object (member :: rest)) ↔ level < limits.maxDepth ∧
      ∀ m ∈ member :: rest, Permitted m.1 ∧ limits.Fits (level + 1) m.2 := by
  rw [fits_iff, Json.forall_members_iff (P := limits.Fits (level + 1))]
  constructor
  · rintro ⟨_, names, _, parts⟩
    exact ⟨(parts member (List.mem_cons_self ..)).target,
      fun m hm => ⟨names _ rfl m hm, parts m hm⟩⟩
  · rintro ⟨room, each⟩
    exact ⟨Nat.le_of_lt room, fun _ same => (by cases same; exact fun m hm => (each m hm).1),
      fun _ same => (by cases same), fun m hm => (each m hm).2⟩

variable {t : Target}

theorem exists_leafRow_eq_ok_iff {path : Path} {leaf : Leaf} :
    (∃ rows, limits.leafRow t path leaf = .ok rows) ↔ path.length ≤ limits.maxDepth := by
  constructor
  · rintro ⟨rows, ok⟩
    obtain ⟨row, encoded, _⟩ := map_eq_ok ok
    exact ((Row.encode_eq_ok_iff ..).mp encoded).1
  · intro fits
    have encoded := (Row.encode_eq_ok_iff t.document path leaf limits.maxDepth t.writeTime _).mpr
      ⟨fits, rfl⟩
    exact ⟨_, by rw [leafRow, encoded]; rfl⟩

theorem exists_itemRows_eq_ok_iff {path : Path} {items : List Json}
    (each : ∀ item ∈ items, ∀ place : Path,
      (∃ rows, limits.rows t place item = .ok rows) ↔ limits.Fits place.length item)
    (position : Nat) :
    (∃ rows, limits.itemRows t path position items = .ok rows) ↔
      (items = [] ∨ position + items.length ≤ positionCount) ∧
        ∀ item ∈ items, limits.Fits (path.length + 1) item := by
  induction items generalizing position with
  | nil => exact ⟨fun _ => ⟨.inl rfl, List.forall_mem_nil _⟩, fun _ => ⟨[], rfl⟩⟩
  | cons item rest ih =>
    have here : ∀ segment, (∃ rows, limits.rows t (path.child segment) item = .ok rows) ↔
        limits.Fits (path.length + 1) item := by
      intro segment
      rw [each item (List.mem_cons_self ..), Path.child, List.length_append, List.length_singleton]
    have later := ih (fun v hv => each v (List.mem_cons_of_mem _ hv)) (position + 1)
    constructor
    · intro ok
      obtain ⟨segment, place, ok⟩ := exists_bind_eq_ok_iff.mp ok
      obtain ⟨first, this, ok⟩ := exists_bind_eq_ok_iff.mp ok
      obtain ⟨others, there, _⟩ := exists_bind_eq_ok_iff.mp ok
      obtain ⟨bound, fits⟩ := later.mp ⟨others, there⟩
      refine ⟨.inr ?_, List.forall_mem_cons.mpr ⟨(here segment).mp ⟨first, this⟩, fits⟩⟩
      have first := exists_ofPosition_eq_ok_iff.mp ⟨segment, place⟩
      rcases bound with rfl | bound
      · exact first
      · rw [List.length_cons]
        omega
    · rintro ⟨bound, fits⟩
      have bound := bound.resolve_left (List.cons_ne_nil _ _)
      rw [List.length_cons] at bound
      obtain ⟨segment, place⟩ := exists_ofPosition_eq_ok_iff.mpr (show position < positionCount by omega)
      obtain ⟨fitsHere, fitsLater⟩ := List.forall_mem_cons.mp fits
      obtain ⟨first, this⟩ := (here segment).mpr fitsHere
      obtain ⟨others, there⟩ := later.mpr ⟨.inr (by omega), fitsLater⟩
      exact exists_bind_eq_ok_iff.mpr ⟨segment, place, exists_bind_eq_ok_iff.mpr
        ⟨first, this, exists_bind_eq_ok_iff.mpr ⟨others, there, _, rfl⟩⟩⟩

theorem exists_memberRows_eq_ok_iff {path : Path} {members : List (String × Json)}
    (each : ∀ member ∈ members, ∀ place : Path,
      (∃ rows, limits.rows t place member.2 = .ok rows) ↔ limits.Fits place.length member.2) :
    (∃ rows, limits.memberRows t path members = .ok rows) ↔
      ∀ member ∈ members, Permitted member.1 ∧ limits.Fits (path.length + 1) member.2 := by
  induction members with
  | nil => exact ⟨fun _ => List.forall_mem_nil _, fun _ => ⟨[], rfl⟩⟩
  | cons member rest ih =>
    obtain ⟨name, value⟩ := member
    have here : ∀ segment, (∃ rows, limits.rows t (path.child segment) value = .ok rows) ↔
        limits.Fits (path.length + 1) value := by
      intro segment
      rw [each (name, value) (List.mem_cons_self ..), Path.child, List.length_append,
        List.length_singleton]
    have later := ih fun m hm => each m (List.mem_cons_of_mem _ hm)
    rw [List.forall_mem_cons, ← later]
    constructor
    · intro ok
      obtain ⟨segment, place, ok⟩ := exists_bind_eq_ok_iff.mp ok
      obtain ⟨first, this, ok⟩ := exists_bind_eq_ok_iff.mp ok
      obtain ⟨others, there, _⟩ := exists_bind_eq_ok_iff.mp ok
      exact ⟨⟨exists_ofName_eq_ok_iff.mp ⟨segment, place⟩, (here segment).mp ⟨first, this⟩⟩,
        others, there⟩
    · rintro ⟨⟨permitted, fits⟩, others, there⟩
      obtain ⟨segment, place⟩ := exists_ofName_eq_ok_iff.mpr permitted
      obtain ⟨first, this⟩ := (here segment).mpr fits
      exact exists_bind_eq_ok_iff.mpr ⟨segment, place, exists_bind_eq_ok_iff.mpr
        ⟨first, this, exists_bind_eq_ok_iff.mpr ⟨others, there, _, rfl⟩⟩⟩

@[simp] theorem checkRoom_eq_ok_iff {path : Path} {u : Unit} :
    limits.checkRoom path = .ok u ↔ path.length < limits.maxDepth := by
  unfold checkRoom
  split
  · exact ⟨fun ok => (by cases ok), fun room => by omega⟩
  · exact ⟨fun _ => (by omega), fun _ => rfl⟩

@[simp] theorem checkLength_eq_ok_iff {path : Path} {size : Nat} {u : Unit} :
    limits.checkLength path size = .ok u ↔ size ≤ limits.maxArrayLength := by
  unfold checkLength
  split
  · exact ⟨fun ok => (by cases ok), fun short => by omega⟩
  · exact ⟨fun _ => (by omega), fun _ => rfl⟩

theorem rows_array {path : Path} (item : Json) (rest : List Json) :
    limits.rows t path (.array (item :: rest)) = (do
      limits.checkRoom path
      limits.checkLength path (item :: rest).length
      limits.itemRows t path 0 (item :: rest)) := rfl

theorem rows_object {path : Path} (member : String × Json) (rest : List (String × Json)) :
    limits.rows t path (.object (member :: rest)) = (do
      limits.checkRoom path
      limits.memberRows t path (member :: rest)) := rfl

/-- A value becomes rows exactly if it fits. -/
theorem exists_rows_eq_ok_iff {path : Path} {v : Json} :
    (∃ rows, limits.rows t path v = .ok rows) ↔ limits.Fits path.length v := by
  induction v using Json.induct generalizing path with
  | whole v ih =>
    cases v with
    | array items =>
      cases items with
      | nil => exact exists_leafRow_eq_ok_iff.trans (fits_leaf_iff rfl).symm
      | cons item rest =>
        have each : ∀ v ∈ item :: rest, ∀ place : Path,
            (∃ rows, limits.rows t place v = .ok rows) ↔ limits.Fits place.length v := by
          intro v hv place
          obtain ⟨p, hp, rfl⟩ := Json.exists_part hv
          exact ih p hp
        rw [rows_array, exists_bind_eq_ok_iff, fits_array_iff]
        simp only [exists_bind_eq_ok_iff, checkRoom_eq_ok_iff, checkLength_eq_ok_iff,
          exists_itemRows_eq_ok_iff each, List.cons_ne_nil, false_or, Nat.zero_add, exists_const,
          Nat.le_min, and_assoc]
    | object members =>
      cases members with
      | nil => exact exists_leafRow_eq_ok_iff.trans (fits_leaf_iff rfl).symm
      | cons member rest =>
        have each : ∀ m ∈ member :: rest, ∀ place : Path,
            (∃ rows, limits.rows t place m.2 = .ok rows) ↔ limits.Fits place.length m.2 :=
          fun m hm _ => ih (.field m.1, m.2) (List.mem_map.mpr ⟨m, hm, rfl⟩)
        rw [rows_object, exists_bind_eq_ok_iff, fits_object_iff]
        simp only [checkRoom_eq_ok_iff, exists_memberRows_eq_ok_iff each, exists_const]
    | _ => exact exists_leafRow_eq_ok_iff.trans (fits_leaf_iff rfl).symm

theorem exists_targetDeletions_eq_ok_iff {patching : Bool} (document : String) (time : Int)
    (path : Path) {value : Json} :
    (∃ deletions, targetDeletions patching document time path value = .ok deletions) ↔
      (patching = true → ∃ members, members ≠ [] ∧ value = .object members) := by
  cases patching with
  | false => exact ⟨fun _ merged => (by cases merged), fun _ => ⟨_, rfl⟩⟩
  | true =>
    constructor
    · rintro ⟨_, ok⟩ _
      obtain ⟨names, named, _⟩ := map_eq_ok ok
      obtain ⟨members, object, filled, _⟩ := patchedNames_eq_ok named
      exact ⟨members, filled, object⟩
    · intro merged
      obtain ⟨members, filled, rfl⟩ := merged rfl
      cases members with
      | nil => exact absurd rfl filled
      | cons member rest => exact ⟨_, rfl⟩

/-- What does not become rows has no place, and what does is refused for its shape alone. -/
theorem put_eq_error {document : String} {path : Path} {value : Json} {patching : Bool} {time : Int}
    {e : Error} (failed : limits.put document path value patching time = .error e) :
    (¬ limits.Fits path.length value ∧ ∃ cause, e = .invalidPath cause) ∨
      limits.Fits path.length value ∧ ∃ cause, e = .invalidDocument cause := by
  rcases bind_eq_error failed with refused | ⟨_, _, failed⟩
  · obtain ⟨cause, long, rfl⟩ := mapError_eq_error refused
    refine .inl ⟨fun fits => ?_, cause, rfl⟩
    rw [Path.checkDepth, if_neg (Nat.not_lt.mpr fits.target)] at long
    cases long
  · rcases bind_eq_error failed with refused | ⟨rows, walked, failed⟩
    · obtain ⟨cause, unfit, rfl⟩ := mapError_eq_error refused
      refine .inl ⟨fun fits => ?_, cause, rfl⟩
      obtain ⟨rows, ok⟩ := exists_rows_eq_ok_iff.mpr fits
      rw [unfit] at ok
      cases ok
    · refine .inr ⟨exists_rows_eq_ok_iff.mp ⟨rows, mapError_eq_ok walked⟩, ?_⟩
      rcases bind_eq_error failed with refused | ⟨_, _, done⟩
      · obtain ⟨cause, _, rfl⟩ := mapError_eq_error refused
        exact ⟨cause, rfl⟩
      · cases done

theorem exists_put_eq_ok_iff {document : String} {path : Path} {value : Json} {patching : Bool}
    {time : Int} :
    (∃ batch, limits.put document path value patching time = .ok batch) ↔
      limits.Fits path.length value ∧
        (patching = true → ∃ members, members ≠ [] ∧ value = .object members) := by
  constructor
  · rintro ⟨batch, ok⟩
    obtain ⟨rows, deletions, walked, cleared, _⟩ := put_eq_ok ok
    exact ⟨exists_rows_eq_ok_iff.mp ⟨rows, walked⟩,
      (exists_targetDeletions_eq_ok_iff ..).mp ⟨deletions, cleared⟩⟩
  · rintro ⟨fits, merged⟩
    obtain ⟨rows, walked⟩ := exists_rows_eq_ok_iff (t := ⟨document, time⟩).mpr fits
    obtain ⟨deletions, cleared⟩ :=
      (exists_targetDeletions_eq_ok_iff document (deletionTime time) path).mpr merged
    have target : path.checkDepth limits.maxDepth = .ok () := if_neg (Nat.not_lt.mpr fits.target)
    refine ⟨⟨document, time, deletions ++ ancestorDeletions document (deletionTime time) path,
      rows⟩, ?_⟩
    simp only [put, target, walked, cleared]
    rfl

end Limits

/-- The changes of a write: a row for each scalar and each empty container of the value, at its
place below the path, and deletions just before that spare these rows. -/
structure Batch.Complete (b : Batch) (width : Nat) (document : String) (path : Path) (value : Json)
    (time : Int) : Prop where
  owned : ∀ m ∈ b.mutations, m.document = document
  rows : ∃ leaves : Branch, (leaves.map (·.1)).Nodup ∧
    (∀ place leaf, (place, leaf) ∈ leaves ↔
      ∃ w, value.at? place = some w ∧ Leaf.ofJson? w = some leaf) ∧
    leaves.mapM (fun entry => Row.encode document (path ++ entry.1) entry.2 width time) =
      .ok b.rows
  deletions : ∀ d ∈ b.deletions, d.writeTime = time - 1
  spared : ∀ d ∈ b.deletions, ∀ row ∈ b.rows, d.shadows row = false

namespace Limits

variable {limits : Limits}

theorem put_complete {document : String} {path : Path} {value : Json} (canonical : value.Canonical)
    {patching : Bool} {time : Int} (later : earliestTime < time) {batch : Batch}
    (ok : limits.put document path value patching time = .ok batch) :
    batch.Complete limits.maxDepth document path value time := by
  obtain ⟨rows, deletions, walked, cleared, rfl⟩ := put_eq_ok ok
  obtain ⟨encodes, addressable⟩ := rows_writes walked
  have before : deletionTime time = time - 1 := by
    unfold deletionTime
    omega
  have fields : ∀ d ∈ deletions ++ ancestorDeletions document (deletionTime time) path,
      d.document = document ∧ d.writeTime = time - 1 := fun d hd =>
    before ▸ (List.mem_append.mp hd).elim (targetDeletions_fields cleared d)
      (ancestorDeletions_fields document _ path d)
  have written : ∀ row ∈ rows, row.document = document ∧ row.writeTime = time := by
    intro row hr
    rw [encodes.rows, Target.cells, List.map_map] at hr
    obtain ⟨entry, _, rfl⟩ := List.mem_map.mp hr
    exact ⟨rfl, rfl⟩
  refine ⟨fun m hm => ?_, ⟨value.leaves, ?_, fun place leaf => ?_, ?_⟩, fun d hd => (fields d hd).2,
    fun d hd row hr => ?_⟩
  · rcases List.mem_append.mp hm with hm | hm
    · obtain ⟨d, hd, rfl⟩ := List.mem_map.mp hm
      exact (fields d hd).1
    · obtain ⟨row, hr, rfl⟩ := List.mem_map.mp hm
      exact (written row hr).1
  · exact List.pairwise_map.mpr
      ((addressable canonical).leaves_ascending.imp fun less => Sorted.ne_of_lt less)
  · exact (addressable canonical).mem_leaves_iff
  · have each : ∀ entry ∈ value.leaves,
        Row.encode document (path ++ entry.1) entry.2 limits.maxDepth time =
          .ok (Cell.row limits.maxDepth ⟨document, path ++ entry.1, entry.2, time⟩) := by
      intro entry he
      have fits := encodes.fits entry he
      exact (Row.encode_eq_ok_iff ..).mpr ⟨by rw [List.length_append]; exact fits, rfl⟩
    rw [mapM_eq_ok each, encodes.rows, Target.cells, List.map_map]
    rfl
  · refine (shadows_eq_false_iff d row).mpr fun _ => ?_
    rw [(fields d hd).2, (written row hr).2]
    omega

/-- A write is accepted exactly if the value fits and, for a patch, has members to set; it is
refused for its place before it is refused for its shape, and what is accepted is complete. -/
theorem put_exact (limits : Limits) (document : String) (path : Path) {value : Json}
    (canonical : value.Canonical) (patching : Bool) {time : Int} (later : earliestTime < time) :
    ((∃ batch, limits.put document path value patching time = .ok batch) ↔
      limits.Fits path.length value ∧
        (patching = true → ∃ members, members ≠ [] ∧ value = .object members)) ∧
    (∀ e, limits.put document path value patching time = .error e →
      (¬ limits.Fits path.length value ∧ ∃ cause, e = .invalidPath cause) ∨
        limits.Fits path.length value ∧ ∃ cause, e = .invalidDocument cause) ∧
    ∀ batch, limits.put document path value patching time = .ok batch →
      batch.Complete limits.maxDepth document path value time :=
  ⟨exists_put_eq_ok_iff, fun _ failed => put_eq_error failed,
    fun _ ok => put_complete canonical later ok⟩

/-- A patch that uses the columns and the longest array to the full. -/
theorem put_exact_full :
    earliestTime < 5 ∧ ∃ batch, (⟨3, 2⟩ : Limits).put "d" [.field "x"]
      (.object [("a", .array []), ("b", .array [.null, .bool true])]) true 5 = .ok batch ∧
      batch.Complete 3 "d" [.field "x"]
        (.object [("a", .array []), ("b", .array [.null, .bool true])]) 5 := by
  have items : ∀ item ∈ [Json.null, .bool true], item.Canonical :=
    List.forall_mem_cons.mpr ⟨Json.canonical_of_leaf rfl,
      List.forall_mem_cons.mpr ⟨Json.canonical_of_leaf rfl, List.forall_mem_nil _⟩⟩
  have canonical :
      (Json.object [("a", .array []), ("b", .array [.null, .bool true])]).Canonical := by
    refine Json.canonical_of_members ?_ (List.forall_mem_cons.mpr
      ⟨Json.canonical_of_leaf rfl, List.forall_mem_cons.mpr
        ⟨Json.canonical_of_items items, List.forall_mem_nil _⟩⟩)
    unfold Sorted.Ascending
    decide
  have accepted : ((⟨3, 2⟩ : Limits).put "d" [.field "x"]
      (.object [("a", .array []), ("b", .array [.null, .bool true])]) true 5).toOption.isSome =
      true := by decide +kernel
  obtain ⟨batch, some⟩ := Option.isSome_iff_exists.mp accepted
  have later : earliestTime < 5 := by decide
  have exact := put_exact ⟨3, 2⟩ "d" [.field "x"] canonical true later
  exact ⟨later, batch, eq_ok_of_toOption some, exact.2.2 batch (eq_ok_of_toOption some)⟩

end Limits

end LeafStore
