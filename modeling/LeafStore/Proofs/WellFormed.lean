import LeafStore.Proofs.Batches
import LeafStore.Proofs.Convergence
/-!
Tables that sound batches have written. If no two batches have one write time, the live rows of each
document are those of leaves that can stand together, in whatever order the batches arrive.
-/
namespace LeafStore

def Row.cells (rows : List Row) : List Cell :=
  match rows.mapM Row.decode with
  | .ok cells => cells
  | .error _ => []

@[simp] theorem Row.cells_map {cells : List Cell} (h : ∀ cell ∈ cells, cell.path.Valid) (width : Nat) :
    Row.cells (cells.map (Cell.row width)) = cells := by
  simp only [Row.cells, Row.mapM_decode_rows h]

theorem Batch.Sound.unique {width : Nat} {b : Batch} {cells others : List Cell}
    (h : b.Sound width cells) (h' : b.Sound width others) : cells = others := by
  rw [← Row.cells_map h.valid width, ← Row.cells_map h'.valid width, ← h.rows, ← h'.rows]

theorem exists_map_eq {α β : Type} {f : β → α} {P : β → Prop} {items : List α}
    (each : ∀ item ∈ items, ∃ b, P b ∧ f b = item) :
    ∃ found : List β, found.map f = items ∧ ∀ b ∈ found, P b := by
  induction items with
  | nil => exact ⟨[], rfl, List.forall_mem_nil _⟩
  | cons item rest ih =>
    obtain ⟨b, here, rfl⟩ := each item (List.mem_cons_self ..)
    obtain ⟨found, rfl, there⟩ := ih fun other ho => each other (List.mem_cons_of_mem _ ho)
    exact ⟨b :: found, rfl, List.forall_mem_cons.mpr ⟨here, there⟩⟩

namespace Table

def cells (t : Table) (document : String) : List Cell := Row.cells (t.live document)

/-- Each live row is that of a leaf at a valid path. -/
structure Legible (width : Nat) (t : Table) : Prop where
  ordered : t.Ordered
  rows : ∀ document, t.live document = (t.cells document).map (Cell.row width)
  about : ∀ document, ∀ cell ∈ t.cells document, cell.document = document
  valid : ∀ document, ∀ cell ∈ t.cells document, cell.path.Valid
  ascending : ∀ document, (t.live document).Pairwise fun a b => a.segments < b.segments

/-- The leaves of a document can stand together as well. -/
structure WellFormed (width : Nat) (t : Table) : Prop extends Legible width t where
  fits : ∀ document, ∀ cell ∈ t.cells document, cell.path.length ≤ width
  consistent : ∀ document, Path.Consistent ((t.cells document).map (·.path))

namespace Legible

variable {width : Nat} {t : Table}

@[simp] theorem decode_live (h : t.Legible width) (document : String) :
    (t.live document).mapM Row.decode = .ok (t.cells document) := by
  rw [h.rows]
  exact Row.mapM_decode_rows (h.valid document) width

theorem live_eq_nil_iff (h : t.Legible width) (document : String) :
    t.live document = [] ↔ t.cells document = [] := by
  rw [h.rows document, List.map_eq_nil_iff]

theorem decode_filter (h : t.Legible width) (document : String) (accepts : Row → Bool) :
    ((t.live document).filter accepts).mapM Row.decode =
      .ok ((t.cells document).filter (accepts ∘ Cell.row width)) := by
  rw [h.rows, List.filter_map]
  exact Row.mapM_decode_rows (fun cell hc => h.valid document cell (List.mem_filter.mp hc).1) width

theorem mem_live (h : t.Legible width) {document : String} {row : Row}
    (live : row ∈ t.live document) :
    ∃ path : Path, path.Valid ∧ row.segments = path.padded width := by
  rw [h.rows document] at live
  obtain ⟨cell, hc, rfl⟩ := List.mem_map.mp live
  exact ⟨cell.path, h.valid document cell hc, rfl⟩

theorem distinct (h : t.Legible width) (document : String) :
    (t.cells document).Pairwise fun a b => a.path ≠ b.path := by
  have apart := h.ascending document
  rw [h.rows] at apart
  refine (List.pairwise_map.mp apart).imp fun {a b} less same => ?_
  have columns : (a.row width).segments = (b.row width).segments :=
    congrArg (Path.padded · width) same
  exact List.lt_irrefl _ (columns ▸ less)

end Legible

/-- Batches of one write time are one batch, which may arrive more than once. -/
def Distinct (batches : List Batch) : Prop :=
  ∀ a ∈ batches, ∀ b ∈ batches, a.writeTime = b.writeTime → a = b

variable {width : Nat} {batches : List Batch}

/-- Of two batches that were written at different times the later one has deleted what cannot
stand beside its leaves. -/
theorem parts_of_survives {first second : Batch} (hs : second ∈ batches)
    {firstCells secondCells : List Cell} (sound : first.Sound width firstCells)
    (sound' : second.Sound width secondCells) (later : first.writeTime < second.writeTime)
    {a b : Cell} (ha : a ∈ firstCells) (hb : b ∈ secondCells) (same : a.document = b.document)
    (survives : Survives (batches.flatMap Batch.mutations) (a.row width)) :
    b.path.Parts a.path := by
  apply Classical.byContradiction
  intro joined
  obtain ⟨d, hd, time, covers⟩ := sound'.clears b hb a.path (sound.valid a ha) joined
  have arrived : Mutation.delete d ∈ batches.flatMap Batch.mutations :=
    List.mem_flatMap.mpr ⟨second, hs, List.mem_append_left _ (List.mem_map.mpr ⟨d, hd, rfl⟩)⟩
  have owner : d.document = (a.row width).document :=
    (sound'.owned d hd).trans ((sound'.document b hb).symm.trans same.symm)
  have older : d.writeTime < a.writeTime := survives.undeleted d arrived owner covers
  rw [sound.writeTime a ha] at older
  omega

theorem written_by (sound : ∀ b ∈ batches, ∃ cells, b.Sound width cells) {row : Row}
    (written : .insert row ∈ batches.flatMap Batch.mutations) :
    ∃ b ∈ batches, ∃ cells, b.Sound width cells ∧ ∃ cell ∈ cells, row = cell.row width := by
  obtain ⟨b, hb, there⟩ := List.mem_flatMap.mp written
  obtain ⟨cells, bs⟩ := sound b hb
  simp only [Batch.mutations, List.mem_append, List.mem_map, reduceCtorEq, and_false,
    exists_false, Mutation.insert.injEq, exists_eq_right, false_or] at there
  rw [bs.rows] at there
  obtain ⟨cell, hc, rfl⟩ := List.mem_map.mp there
  exact ⟨b, hb, cells, bs, cell, hc, rfl⟩

theorem row_inj {a b : Cell} (ha : a.path.Valid) (hb : b.path.Valid)
    (same : a.row width = b.row width) : a = b := by
  have read := Row.decode_row ha width
  rw [same, Row.decode_row hb width] at read
  exact (Except.ok.inj read).symm

theorem survivors_part (sound : ∀ b ∈ batches, ∃ cells, b.Sound width cells)
    (distinct : Distinct batches) {a b : Cell} (ha : a.path.Valid)
    (hb : b.path.Valid) (same : a.document = b.document) (differ : a.path ≠ b.path)
    (sa : Survives (batches.flatMap Batch.mutations) (a.row width))
    (sb : Survives (batches.flatMap Batch.mutations) (b.row width)) : a.path.Parts b.path := by
  obtain ⟨first, hf, cells, fs, a', ha', rowA⟩ := written_by sound sa.written
  obtain ⟨second, hs, others, ss, b', hb', rowB⟩ := written_by sound sb.written
  obtain rfl := row_inj ha (fs.valid a' ha') rowA
  obtain rfl := row_inj hb (ss.valid b' hb') rowB
  rcases Int.lt_trichotomy first.writeTime second.writeTime with less | one | more
  · exact (parts_of_survives hs fs ss less ha' hb' same sa).symm
  · obtain rfl := distinct first hf second hs one
    obtain rfl := fs.unique ss
    exact fs.parted.parts (List.mem_map.mpr ⟨a, ha', rfl⟩) (List.mem_map.mpr ⟨b, hb', rfl⟩) differ
  · exact parts_of_survives hf ss fs more hb' ha' same.symm sb

theorem Reflects.live_cells {t : Table} (h : t.Reflects (batches.flatMap Batch.mutations))
    (sound : ∀ b ∈ batches, ∃ cells, b.Sound width cells) (document : String) :
    t.live document = (t.cells document).map (Cell.row width) ∧
      ∀ cell ∈ t.cells document, cell.document = document ∧ cell.path.Valid ∧
        cell.path.length ≤ width ∧
        Survives (batches.flatMap Batch.mutations) (cell.row width) := by
  have each : ∀ row ∈ t.live document, ∃ cell : Cell, (cell.document = document ∧
      cell.path.Valid ∧ cell.path.length ≤ width ∧
      Survives (batches.flatMap Batch.mutations) (cell.row width)) ∧ cell.row width = row := by
    intro row there
    obtain ⟨entry, he, rfl⟩ := List.mem_map.mp there
    obtain ⟨_, here, survives⟩ := h.mem_rows he
    obtain ⟨b, _, cells, bs, cell, hc, same⟩ := written_by sound survives.written
    rw [same] at here survives
    exact ⟨cell, ⟨here, bs.valid cell hc, bs.fits cell hc, survives⟩, same.symm⟩
  obtain ⟨found, rows, facts⟩ := exists_map_eq each
  have same : t.cells document = found := by
    rw [Table.cells, ← rows, Row.cells_map fun cell hc => (facts cell hc).2.1]
  rw [same]
  exact ⟨rows.symm, facts⟩

theorem Reflects.legible {t : Table} (h : t.Reflects (batches.flatMap Batch.mutations))
    (sound : ∀ b ∈ batches, ∃ cells, b.Sound width cells) : t.Legible width where
  ordered := h.ordered
  rows document := (h.live_cells sound document).1
  about document cell hc := ((h.live_cells sound document).2 cell hc).1
  valid document cell hc := ((h.live_cells sound document).2 cell hc).2.1
  ascending document := by
    have p := h.partition document
    refine List.pairwise_map.mpr (p.ascending.imp_of_mem fun ha hb less => ?_)
    rwa [← p.keyed _ ha, ← p.keyed _ hb]

theorem Reflects.wellFormed {t : Table} (h : t.Reflects (batches.flatMap Batch.mutations))
    (sound : ∀ b ∈ batches, ∃ cells, b.Sound width cells)
    (distinct : Distinct batches) : t.WellFormed width where
  toLegible := h.legible sound
  fits document cell hc := ((h.live_cells sound document).2 cell hc).2.2.1
  consistent document := by
    obtain ⟨_, facts⟩ := h.live_cells sound document
    rw [Path.consistent_iff]
    refine List.pairwise_map.mpr (((h.legible sound).distinct document).imp_of_mem ?_)
    intro a b ha hb differ
    obtain ⟨da, va, _, sa⟩ := facts a ha
    obtain ⟨db, vb, _, sb⟩ := facts b hb
    exact survivors_part sound distinct va vb (da.trans db.symm) differ sa sb

end Table

end LeafStore
