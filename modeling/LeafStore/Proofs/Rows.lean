import LeafStore.Proofs.Columns
import LeafStore.Proofs.Results
import LeafStore.Row
/-!
Rows and the leaves they hold. The row of a leaf at a valid path is read back as that leaf.
-/
namespace LeafStore

def Cell.row (width : Nat) (cell : Cell) : Row :=
  Row.ofColumns cell.document (cell.path.padded width) cell.path cell.leaf cell.writeTime

namespace Row

theorem encode_eq_ok_iff (document : String) (path : Path) (leaf : Leaf) (width : Nat)
    (writeTime : Int) (row : Row) :
    encode document path leaf width writeTime = .ok row ↔
      path.length ≤ width ∧ row = Cell.row width ⟨document, path, leaf, writeTime⟩ := by
  unfold encode Path.toColumns Path.checkDepth
  split
  · rename_i deep
    constructor
    · intro h
      cases h
    · intro h
      exact absurd h.1 (Nat.not_le.mpr deep)
  · rename_i fits
    constructor
    · intro h
      cases h
      exact ⟨Nat.not_lt.mp fits, rfl⟩
    · rintro ⟨_, rfl⟩
      rfl

@[simp] theorem typedCount_row (width : Nat) (cell : Cell) :
    (cell.row width).typedCount = if cell.leaf = .null ∨ cell.leaf.isMarker = true then 0 else 1 := by
  obtain ⟨document, path, leaf, writeTime⟩ := cell
  cases leaf <;> rfl

theorem scalar_row (width : Nat) (cell : Cell) (scalar : cell.leaf.isMarker = false) :
    (cell.row width).scalar = cell.leaf := by
  obtain ⟨document, path, leaf, writeTime⟩ := cell
  cases leaf with
  | emptyObject => cases scalar
  | emptyArray => cases scalar
  | _ => rfl

/-- The leaf column of a scalar is no marker: valid paths cannot spell one. -/
theorem leafColumn_ne_marker {path : Path} (h : path.Valid) {leaf : Leaf}
    (scalar : leaf.isMarker = false) :
    leafColumn path leaf ≠ emptyObjectMarker ∧ leafColumn path leaf ≠ emptyArrayMarker := by
  have plain : leafColumn path leaf = (path.getLast?.map Segment.column).getD "" := by
    cases leaf with
    | emptyObject => cases scalar
    | emptyArray => cases scalar
    | _ => rfl
  rw [plain]
  cases last : path.getLast? with
  | none =>
    constructor
    · decide
    · decide
  | some s => exact Segment.column_ne_marker (h s (List.mem_of_getLast? last))

@[simp] theorem decode_row {cell : Cell} (h : cell.path.Valid) (width : Nat) :
    (cell.row width).decode = .ok cell := by
  have place : Path.ofColumns (cell.row width).segments = .ok cell.path :=
    Path.ofColumns_padded h width
  have leaf : (cell.row width).decodeLeaf cell.path = .ok cell.leaf := by
    have few : ¬ 1 < (cell.row width).typedCount := by
      rw [typedCount_row]
      split <;> decide
    unfold decodeLeaf
    rw [if_neg few]
    cases kind : cell.leaf.isMarker with
    | false =>
      have plain := leafColumn_ne_marker h kind
      have notMarker : ¬ ((cell.row width).leaf = emptyObjectMarker ∨
          (cell.row width).leaf = emptyArrayMarker) := not_or.mpr plain
      rw [if_neg notMarker, scalar_row width cell kind]
    | true =>
      obtain ⟨document, path, leaf, writeTime⟩ := cell
      cases leaf with
      | emptyObject => rfl
      | emptyArray => rfl
      | _ => cases kind
  unfold decode
  simp only [place, leaf, ok_bind]
  rfl

@[simp] theorem mapM_decode_rows {cells : List Cell} (h : ∀ cell ∈ cells, cell.path.Valid)
    (width : Nat) : (cells.map (Cell.row width)).mapM decode = .ok cells := by
  rw [List.mapM_map]
  have read := mapM_eq_ok (f := decode ∘ Cell.row width) (g := id) fun cell hc =>
    decode_row (h cell hc) width
  simpa using read

end Row

end LeafStore
