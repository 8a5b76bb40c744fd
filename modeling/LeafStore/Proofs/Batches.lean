import LeafStore.Proofs.Decomposition
import LeafStore.Proofs.Reshaping
/-!
The changes of one write. Their rows are those of leaves that can stand together, and whatever
cannot stand beside these leaves is deleted.
-/
namespace LeafStore

/-- A batch writes leaves of one document that can stand together, and clears the paths of all
leaves that cannot stand beside them. -/
structure Batch.Sound (width : Nat) (b : Batch) (cells : List Cell) : Prop where
  rows : b.rows = cells.map (Cell.row width)
  document : ∀ cell ∈ cells, cell.document = b.document
  writeTime : ∀ cell ∈ cells, cell.writeTime = b.writeTime
  valid : ∀ cell ∈ cells, cell.path.Valid
  fits : ∀ cell ∈ cells, cell.path.length ≤ width
  parted : Path.Consistent (cells.map (·.path))
  owned : ∀ d ∈ b.deletions, d.document = b.document
  /-- Deletions cover at least all that is older than the batch. -/
  clears : ∀ cell ∈ cells, ∀ q : Path, q.Valid → ¬ cell.path.Parts q →
    ∃ d ∈ b.deletions, b.writeTime ≤ d.writeTime + 1 ∧ d.covers (q.padded width) = true

namespace Limits

variable {limits : Limits} {document : String} {path : Path}

theorem deletionTime_late (writeTime : Int) : writeTime ≤ deletionTime writeTime + 1 := by
  unfold deletionTime
  omega

theorem ancestorDeletions_fields (document : String) (time : Int) (path : Path) :
    ∀ d ∈ ancestorDeletions document time path, d.document = document ∧ d.writeTime = time := by
  intro d hd
  obtain ⟨place, next, _, hd⟩ := (mem_ancestorDeletions document time path d).mp hd
  cases next with
  | field name =>
    simp only [reshaping, List.mem_cons, List.not_mem_nil, or_false] at hd
    rcases hd with rfl | rfl <;> exact ⟨rfl, rfl⟩
  | index position =>
    simp only [reshaping, List.mem_cons, List.not_mem_nil, or_false] at hd
    rcases hd with rfl | rfl <;> exact ⟨rfl, rfl⟩

theorem targetDeletions_fields {patching : Bool} {document : String} {time : Int} {path : Path}
    {value : Json} {deletions : List Deletion}
    (ok : targetDeletions patching document time path value = .ok deletions) :
    ∀ d ∈ deletions, d.document = document ∧ d.writeTime = time := by
  intro d hd
  cases patching with
  | false =>
    cases ok
    rw [List.mem_singleton.mp hd]
    exact ⟨rfl, rfl⟩
  | true =>
    obtain ⟨names, _, rfl⟩ := map_eq_ok ok
    simp only [merging, List.mem_cons, List.not_mem_nil, or_false] at hd
    rcases hd with rfl | rfl <;> exact ⟨rfl, rfl⟩

theorem patchedNames_eq_ok {value : Json} {names : List String}
    (ok : patchedNames value = .ok names) :
    ∃ members, value = .object members ∧ members ≠ [] ∧ names = members.map (·.1) := by
  unfold patchedNames at ok
  split at ok
  · cases ok
  · rename_i members filled
    cases ok
    exact ⟨members, rfl, fun none => filled (none ▸ rfl), rfl⟩
  · cases ok

theorem mem_leaves_object {members : List (String × Json)} (filled : members ≠ [])
    {entry : Path × Leaf} (h : entry ∈ (Json.object members).leaves) :
    ∃ name rest, name ∈ members.map (·.1) ∧ entry.1 = .field name :: rest := by
  rcases (Json.object members).leaf_or_parts with ⟨_, _, _, none⟩ | ⟨_, _, leaves⟩
  · exact absurd (List.map_eq_nil_iff.mp none) filled
  · rw [leaves] at h
    obtain ⟨_, there, he⟩ := Assembly.mem_spread.mp h
    obtain ⟨p, hp, rfl⟩ := List.mem_map.mp there
    obtain ⟨member, hm, rfl⟩ : ∃ member ∈ members, (.field member.1, member.2) = p :=
      List.mem_map.mp hp
    obtain ⟨rest, _, rfl⟩ := Assembly.mem_under.mp he
    exact ⟨member.1, rest.1, List.mem_map.mpr ⟨member, hm, rfl⟩, rfl⟩

/-- What cannot stand beside a leaf of a write is deleted by the write. -/
theorem put_covers {patching : Bool} {time : Int} {value : Json} {deletions : List Deletion}
    (ok : targetDeletions patching document time path value = .ok deletions)
    (valid : path.Valid) {entry : Path × Leaf} (he : entry ∈ value.leaves) {q : Path}
    (hq : q.Valid) (joined : ¬ (path ++ entry.1).Parts q) (width : Nat) :
    ∃ d ∈ deletions ++ ancestorDeletions document time path, d.covers (q.padded width) = true := by
  have off : ¬ path.Parts q := fun parts => joined (parts.append entry.1)
  cases patching with
  | false =>
    cases ok
    exact (replacement_covers_iff document time valid hq width).mpr off
  | true =>
    by_cases below : path <+: q
    · obtain ⟨rest, rfl⟩ := below
      obtain ⟨names, named, rfl⟩ := map_eq_ok ok
      obtain ⟨members, rfl, filled, rfl⟩ := patchedNames_eq_ok named
      obtain ⟨name, tail, given, place⟩ := mem_leaves_object filled he
      have replaced : ∀ other more, rest = .field other :: more → other ∈ members.map (·.1) := by
        intro other more same
        rw [Path.parts_append_left_iff, place, same, Path.parts_cons_iff] at joined
        by_cases one : name = other
        · exact one ▸ given
        · exact absurd (.inr ⟨fun h => one (Segment.field.inj h), rfl⟩) joined
      obtain ⟨d, hd, covers⟩ :=
        (merging_covers_iff document time _ valid hq width).mpr ⟨rest, rfl, replaced⟩
      exact ⟨d, List.mem_append_left _ hd, covers⟩
    · obtain ⟨d, hd, covers⟩ :=
        (ancestorDeletions_covers_iff document time valid hq width).mpr ⟨below, off⟩
      exact ⟨d, List.mem_append_right _ hd, covers⟩

theorem put_sound {value : Json} {patching : Bool} {time : Int} {batch : Batch}
    (valid : path.Valid) (canonical : value.Canonical)
    (ok : limits.put document path value patching time = .ok batch) :
    batch.document = document ∧ batch.writeTime = time ∧
      ∃ cells, batch.Sound limits.maxDepth cells := by
  obtain ⟨rows, deletions, walked, cleared, rfl⟩ := put_eq_ok ok
  obtain ⟨encodes, addressable⟩ := rows_writes walked
  have fields : ∀ d ∈ deletions ++ ancestorDeletions document (deletionTime time) path,
      d.document = document ∧ d.writeTime = deletionTime time := fun d hd =>
    (List.mem_append.mp hd).elim (targetDeletions_fields cleared d)
      (ancestorDeletions_fields document _ path d)
  refine ⟨rfl, rfl, Target.cells ⟨document, time⟩ path value.leaves, encodes.rows, ?_, ?_,
    encodes.cell_valid valid, ?_, ?_, fun d hd => (fields d hd).1, ?_⟩
  · intro cell hc
    obtain ⟨entry, _, rfl⟩ := List.mem_map.mp hc
    rfl
  · intro cell hc
    obtain ⟨entry, _, rfl⟩ := List.mem_map.mp hc
    rfl
  · intro cell hc
    obtain ⟨entry, he, rfl⟩ := List.mem_map.mp hc
    simpa using encodes.fits entry he
  · rw [Path.consistent_iff, Target.cells, List.map_map]
    refine List.pairwise_map.mpr ((addressable canonical).leaves_part.imp fun {a b} parts => ?_)
    exact (Path.parts_append_left_iff path a.1 b.1).mpr parts
  · intro cell hc q hq joined
    obtain ⟨entry, he, rfl⟩ := List.mem_map.mp hc
    obtain ⟨d, hd, covers⟩ := put_covers cleared valid he hq joined limits.maxDepth
    exact ⟨d, hd, (fields d hd).2.symm ▸ deletionTime_late time, covers⟩

theorem delete_sound {time : Int} {batch : Batch} (ok : limits.delete document path time = .ok batch) :
    batch.document = document ∧ batch.writeTime = time ∧
      ∃ cells, batch.Sound limits.maxDepth cells := by
  obtain ⟨_, _, ok⟩ := bind_eq_ok ok
  cases ok
  refine ⟨rfl, rfl, [], rfl, List.forall_mem_nil _, List.forall_mem_nil _, List.forall_mem_nil _,
    List.forall_mem_nil _, ?_, ?_, List.forall_mem_nil _⟩
  · exact (Path.consistent_iff _).mpr List.Pairwise.nil
  · intro d hd
    rw [List.mem_singleton.mp hd]

end Limits

end LeafStore
