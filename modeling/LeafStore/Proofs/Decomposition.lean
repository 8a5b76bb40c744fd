import LeafStore.Proofs.Leaves
import LeafStore.Proofs.Rows
import LeafStore.Write
/-!
The rows that a value becomes when it is written: one for each of its leaves.
-/
namespace LeafStore

open Assembly (Branch mem_under)

namespace Limits

variable {limits : Limits} {t : Target}

def Target.cells (t : Target) (path : Path) (branch : Branch) : List Cell :=
  branch.map fun entry => ⟨t.document, path ++ entry.1, entry.2, t.writeTime⟩

/-- Rows are those of leaves below a path, and each leaf has a place in the table. -/
structure Encodes (limits : Limits) (t : Target) (path : Path) (branch : Branch)
    (rows : List Row) : Prop where
  rows : rows = (t.cells path branch).map (Cell.row limits.maxDepth)
  valid : ∀ entry ∈ branch, entry.1.Valid
  fits : ∀ entry ∈ branch, path.length + entry.1.length ≤ limits.maxDepth

theorem encodes_nil (path : Path) : Encodes limits t path [] [] := 
  ⟨rfl, List.forall_mem_nil _, List.forall_mem_nil _⟩

theorem Encodes.append {path : Path} {a b : Branch} {first others : List Row}
    (ha : Encodes limits t path a first) (hb : Encodes limits t path b others) :
    Encodes limits t path (a ++ b) (first ++ others) := by
  refine ⟨by simp [ha.rows, hb.rows, Target.cells], fun entry he => ?_, fun entry he => ?_⟩
  · exact (List.mem_append.mp he).elim (ha.valid entry) (hb.valid entry)
  · exact (List.mem_append.mp he).elim (ha.fits entry) (hb.fits entry)

theorem Encodes.under {path : Path} {segment : Segment} {branch : Branch} {rows : List Row}
    (h : Encodes limits t (path.child segment) branch rows) (valid : segment.Valid) :
    Encodes limits t path (Assembly.under segment branch) rows := by
  refine ⟨?_, fun entry he => ?_, fun entry he => ?_⟩
  · rw [h.rows]
    simp [Target.cells, Assembly.under, Path.child]
  · obtain ⟨rest, there, rfl⟩ := mem_under.mp he
    exact List.forall_mem_cons.mpr ⟨valid, h.valid rest there⟩
  · obtain ⟨rest, there, rfl⟩ := mem_under.mp he
    have fits := h.fits rest there
    simp only [Path.child, List.length_append, List.length_cons, List.length_nil] at fits ⊢
    omega

theorem leafRow_encodes {path : Path} {leaf : Leaf} {rows : List Row}
    (ok : limits.leafRow t path leaf = .ok rows) : Encodes limits t path [([], leaf)] rows := by
  obtain ⟨row, encoded, rfl⟩ := map_eq_ok ok
  obtain ⟨fits, rfl⟩ := (Row.encode_eq_ok_iff ..).mp encoded
  refine ⟨by simp [Target.cells], fun entry he => ?_, fun entry he => ?_⟩
  · rw [List.mem_singleton.mp he]
    exact List.forall_mem_nil _
  · rw [List.mem_singleton.mp he]
    exact fits

/-- Rows are those of the leaves of a value, and the value has a place for each of its parts. -/
structure Writes (limits : Limits) (t : Target) (path : Path) (v : Json) (rows : List Row) :
    Prop where
  encodes : Encodes limits t path v.leaves rows
  addressable : v.Canonical → v.Addressable

theorem ofPosition_eq_ok {position : Nat} {segment : Segment}
    (ok : Segment.ofPosition position = .ok segment) :
    position < positionCount ∧ segment = .index (Fin.ofNat _ position) := by
  unfold Segment.ofPosition at ok
  split at ok
  · rename_i bound
    cases ok
    exact ⟨bound, by simp [Fin.ofNat, Nat.mod_eq_of_lt bound]⟩
  · cases ok

theorem ofName_eq_ok {name : String} {segment : Segment} (ok : Segment.ofName name = .ok segment) :
    segment = .field name ∧ segment.Valid := by
  have same : segment = .field name := by
    unfold Segment.ofName at ok
    split at ok
    · cases ok
    · split at ok
      · cases ok
      · split at ok
        · cases ok
        · cases ok
          rfl
  subst same
  exact ⟨rfl, ok⟩

theorem itemRows_writes {path : Path} {items : List Json}
    (each : ∀ item ∈ items, ∀ path rows, limits.rows t path item = .ok rows →
      Writes limits t path item rows) {position : Nat} {rows : List Row}
    (ok : limits.itemRows t path position items = .ok rows) :
    Encodes limits t path (Json.itemLeaves position items) rows ∧
      (items ≠ [] → position + items.length ≤ positionCount) ∧
      ∀ item ∈ items, item.Canonical → item.Addressable := by
  induction items generalizing position rows with
  | nil =>
    cases ok
    exact ⟨encodes_nil path, fun filled => absurd rfl filled, List.forall_mem_nil _⟩
  | cons item rest ih =>
    obtain ⟨segment, place, ok⟩ := bind_eq_ok ok
    obtain ⟨first, here, ok⟩ := bind_eq_ok ok
    obtain ⟨others, there, ok⟩ := bind_eq_ok ok
    cases ok
    obtain ⟨bound, rfl⟩ := ofPosition_eq_ok place
    obtain ⟨encodes, addressable⟩ := each item (List.mem_cons_self ..) _ _ here
    obtain ⟨restEncodes, restBound, restAddressable⟩ :=
      ih (fun v hv => each v (List.mem_cons_of_mem _ hv)) there
    refine ⟨(encodes.under trivial).append restEncodes, fun _ => ?_,
      List.forall_mem_cons.mpr ⟨addressable, restAddressable⟩⟩
    cases rest with
    | nil => exact bound
    | cons next rest =>
      have fits := restBound (List.cons_ne_nil _ _)
      simp only [List.length_cons] at fits ⊢
      omega

theorem memberRows_writes {path : Path} {members : List (String × Json)}
    (each : ∀ member ∈ members, ∀ path rows, limits.rows t path member.2 = .ok rows →
      Writes limits t path member.2 rows) {rows : List Row}
    (ok : limits.memberRows t path members = .ok rows) :
    Encodes limits t path (Json.memberLeaves members) rows ∧
      ∀ member ∈ members, member.2.Canonical → member.2.Addressable := by
  induction members generalizing rows with
  | nil =>
    cases ok
    exact ⟨encodes_nil path, List.forall_mem_nil _⟩
  | cons member rest ih =>
    obtain ⟨name, value⟩ := member
    obtain ⟨segment, place, ok⟩ := bind_eq_ok ok
    obtain ⟨first, here, ok⟩ := bind_eq_ok ok
    obtain ⟨others, there, ok⟩ := bind_eq_ok ok
    cases ok
    obtain ⟨rfl, valid⟩ := ofName_eq_ok place
    obtain ⟨encodes, addressable⟩ := each (name, value) (List.mem_cons_self ..) _ _ here
    obtain ⟨restEncodes, restAddressable⟩ :=
      ih (fun m hm => each m (List.mem_cons_of_mem _ hm)) there
    exact ⟨(encodes.under valid).append restEncodes,
      List.forall_mem_cons.mpr ⟨addressable, restAddressable⟩⟩

theorem rows_writes {path : Path} {v : Json} {rows : List Row}
    (ok : limits.rows t path v = .ok rows) : Writes limits t path v rows := by
  induction v using Json.induct generalizing path rows with
  | whole v ih =>
    cases v with
    | array items =>
      cases items with
      | nil => exact ⟨leafRow_encodes ok, fun _ => Json.addressable_of_leaf rfl⟩
      | cons item rest =>
        obtain ⟨_, _, ok⟩ := bind_eq_ok ok
        obtain ⟨_, _, ok⟩ := bind_eq_ok ok
        have each : ∀ v ∈ item :: rest, ∀ path rows, limits.rows t path v = .ok rows →
            Writes limits t path v rows := by
          intro v hv path rows ok
          obtain ⟨p, hp, rfl⟩ := Json.exists_part hv
          exact ih p hp ok
        obtain ⟨encodes, bound, addressable⟩ := itemRows_writes each ok
        refine ⟨encodes, fun canonical => .intro _ ?_ (fun _ same => by cases same) ?_⟩
        · intro items same
          cases same
          simpa using bound (List.cons_ne_nil _ _)
        · obtain ⟨_, _, parts⟩ := canonical
          exact fun p hp => addressable _ (Json.mem_itemParts hp) (parts p hp)
    | object members =>
      cases members with
      | nil => exact ⟨leafRow_encodes ok, fun _ => Json.addressable_of_leaf rfl⟩
      | cons member rest =>
        obtain ⟨_, _, ok⟩ := bind_eq_ok ok
        have each : ∀ m ∈ member :: rest, ∀ path rows, limits.rows t path m.2 = .ok rows →
            Writes limits t path m.2 rows := fun m hm _ _ ok =>
          ih (.field m.1, m.2) (List.mem_map.mpr ⟨m, hm, rfl⟩) ok
        obtain ⟨encodes, addressable⟩ := memberRows_writes each ok
        refine ⟨encodes, fun canonical => ?_⟩
        obtain ⟨_, ascending, parts⟩ := canonical
        refine .intro _ (fun _ same => by cases same) ascending fun p hp => ?_
        obtain ⟨m, hm, rfl⟩ := List.mem_map.mp hp
        exact addressable m hm (parts _ hp)
    | _ => exact ⟨leafRow_encodes ok, fun _ => Json.addressable_of_leaf rfl⟩

theorem Encodes.cell_valid {path : Path} {branch : Branch} {rows : List Row}
    (h : Encodes limits t path branch rows) (valid : path.Valid) :
    ∀ cell ∈ t.cells path branch, cell.path.Valid := by
  intro cell hc
  obtain ⟨entry, he, rfl⟩ := List.mem_map.mp hc
  intro s hs
  exact (List.mem_append.mp hs).elim (valid s) (h.valid entry he s)

theorem put_eq_ok {document : String} {path : Path} {value : Json} {patching : Bool} {time : Int}
    {batch : Batch} (ok : limits.put document path value patching time = .ok batch) :
    ∃ rows deletions, limits.rows ⟨document, time⟩ path value = .ok rows ∧
      targetDeletions patching document (deletionTime time) path value = .ok deletions ∧
      batch = ⟨document, time, deletions ++ ancestorDeletions document (deletionTime time) path,
        rows⟩ := by
  obtain ⟨_, _, ok⟩ := bind_eq_ok ok
  obtain ⟨rows, walked, ok⟩ := bind_eq_ok ok
  obtain ⟨deletions, cleared, ok⟩ := bind_eq_ok ok
  cases ok
  exact ⟨rows, deletions, mapError_eq_ok walked, mapError_eq_ok cleared, rfl⟩

end Limits

end LeafStore
