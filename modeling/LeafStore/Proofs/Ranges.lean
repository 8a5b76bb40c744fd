import LeafStore.Proofs.ColumnOrder
import LeafStore.Proofs.Effects
/-!
The intervals of columns that deletions name. Byte by byte, each column of a stored row lies in
exactly one of three: the positions in the middle, the empty column and the names on both sides. So
below a place a deletion takes the rows that go on with a position, or it takes the row at the place
and those that go on with a name.
-/
namespace LeafStore

namespace Text

theorem bytes_lt_bytes_iff {a b : String} : bytes a < bytes b ↔ a < b := by
  constructor
  · intro less
    rcases Std.lt_trichotomy a b with before | same | after
    · exact before
    · exact absurd (same ▸ less) (List.lt_irrefl _)
    · exact absurd less (List.lt_asymm (bytes_lt_bytes after))
  · exact bytes_lt_bytes

end Text

/-- What begins an interval comes, byte by byte, before a text. -/
def Bound.Precedes : Bound → String → Prop
  | included first, text => Text.bytes first ≤ Text.bytes text
  | excluded before, text => Text.bytes before < Text.bytes text
  | unbounded, _ => True

def Bound.Follows : Bound → String → Prop
  | included last, text => Text.bytes text ≤ Text.bytes last
  | excluded after, text => Text.bytes text < Text.bytes after
  | unbounded, _ => True

/-- What a column of a stored row can hold: nothing, or a segment that callers can write. -/
def Segment.IsColumn (text : String) : Prop :=
  text = "" ∨ ∃ s : Segment, s.Valid ∧ s.column = text

namespace SegmentRange

theorem fromLower_iff (range : SegmentRange) (text : String) :
    range.fromLower text = true ↔ range.lower.Precedes text := by
  unfold fromLower
  cases range.lower with
  | included first =>
    simp only [Bool.not_eq_true', decide_eq_false_iff_not, ← Text.bytes_lt_bytes_iff]
    exact List.not_lt
  | excluded before => simp [Bound.Precedes, Text.bytes_lt_bytes_iff]
  | unbounded => simp [Bound.Precedes]

theorem toUpper_iff (range : SegmentRange) (text : String) :
    range.toUpper text = true ↔ range.upper.Follows text := by
  unfold toUpper
  cases range.upper with
  | included last =>
    simp only [Bool.not_eq_true', decide_eq_false_iff_not, ← Text.bytes_lt_bytes_iff]
    exact List.not_lt
  | excluded after => simp [Bound.Follows, Text.bytes_lt_bytes_iff]
  | unbounded => simp [Bound.Follows]

theorem contains_iff (range : SegmentRange) (text : String) :
    range.contains text = true ↔ range.lower.Precedes text ∧ range.upper.Follows text := by
  rw [contains, Bool.and_eq_true, fromLower_iff, toUpper_iff]

theorem not_below_and_above (text : String) :
    (belowIndexes.contains text && aboveIndexes.contains text) = false := by
  rw [Bool.and_eq_false_iff, Bool.eq_false_iff, Bool.eq_false_iff]
  have apart : Segment.firstIndexText < Segment.lastIndexText := by decide
  by_cases below : text < Segment.firstIndexText
  · apply Or.inr
    simp [contains, fromLower, aboveIndexes, String.lt_asymm (String.lt_trans below apart)]
  · apply Or.inl
    simp [contains, toUpper, belowIndexes, below]

theorem countP_contains (text : String) :
    [indexes, belowIndexes, aboveIndexes].countP (fun range => range.contains text) = 1 := by
  have either := below_or_above text
  have notBoth := not_below_and_above text
  cases below : belowIndexes.contains text <;> cases above : aboveIndexes.contains text <;>
    simp_all

theorem indexes_contains_iff {text : String} (held : Segment.IsColumn text) :
    indexes.contains text = true ↔
      ∃ position : Fin positionCount, text = Segment.indexText position := by
  obtain rfl | ⟨s, valid, rfl⟩ := held
  · simp only [indexes_contains_empty, Bool.false_eq_true, false_iff, not_exists]
    intro position same
    exact Segment.column_ne_empty (s := .index position) trivial same.symm
  · rw [indexes_contains valid]
    constructor
    · intro isIndex
      cases s with
      | field name => cases isIndex
      | index position => exact ⟨position, rfl⟩
    · rintro ⟨position, same⟩
      rw [(Segment.column_inj valid (b := .index position) trivial).mp same]
      rfl

end SegmentRange

namespace Deletion

variable (document : String) (time : Int) {place q : Path}

theorem range_covers_iff (range : SegmentRange) (hp : place.Valid) (hq : q.Valid) (width : Nat) :
    covers ⟨document, place, .range range, time⟩ (q.padded width) = true ↔
      ∃ rest, q = place ++ rest ∧ range.contains rest.headColumn = true :=
  covers_padded_iff _ hp hq width

theorem indexes_covers_iff (hp : place.Valid) (hq : q.Valid) (width : Nat) :
    covers ⟨document, place, .range .indexes, time⟩ (q.padded width) = true ↔
      ∃ position, place ++ [.index position] <+: q := by
  rw [range_covers_iff document time .indexes hp hq]
  constructor
  · rintro ⟨rest, rfl, inside⟩
    have kind := (Limits.indexes_headColumn (Limits.valid_of_append hq)).mp inside
    cases rest with
    | nil => simp at kind
    | cons s tail =>
      cases s with
      | field name => simp [Segment.isIndex] at kind
      | index position => exact ⟨position, tail, by simp⟩
  · rintro ⟨position, tail, rfl⟩
    refine ⟨.index position :: tail, by simp, ?_⟩
    have rest : Path.Valid (.index position :: tail) :=
      Limits.valid_of_append (show Path.Valid (place ++ _) by simpa using hq)
    simp [Limits.indexes_headColumn rest, Segment.isIndex]

theorem beside_covers_iff (hp : place.Valid) (hq : q.Valid) (width : Nat) :
    (covers ⟨document, place, .range .belowIndexes, time⟩ (q.padded width) = true ∨
        covers ⟨document, place, .range .aboveIndexes, time⟩ (q.padded width) = true) ↔
      q = place ∨ ∃ name, place ++ [.field name] <+: q := by
  rw [range_covers_iff document time _ hp hq, range_covers_iff document time _ hp hq, ← exists_or]
  simp only [← and_or_left, ← Bool.or_eq_true, SegmentRange.below_or_above, Bool.not_eq_true']
  constructor
  · rintro ⟨rest, rfl, outside⟩
    cases rest with
    | nil => exact .inl (List.append_nil place)
    | cons s tail =>
      cases s with
      | field name => exact .inr ⟨name, tail, by simp⟩
      | index position =>
        have inside := (Limits.indexes_headColumn (Limits.valid_of_append hq)).mpr rfl
        simp [inside] at outside
  · rintro (rfl | ⟨name, tail, rfl⟩)
    · exact ⟨[], (List.append_nil q).symm, SegmentRange.indexes_contains_empty⟩
    · refine ⟨.field name :: tail, by simp, ?_⟩
      have rest : Path.Valid (.field name :: tail) :=
        Limits.valid_of_append (show Path.Valid (place ++ _) by simpa using hq)
      simp [Bool.eq_false_iff, Limits.indexes_headColumn rest, Segment.isIndex]

end Deletion

theorem Path.isColumn_padded {q : Path} (valid : q.Valid) (width : Nat) :
    ∀ column ∈ q.padded width, Segment.IsColumn column := by
  intro column there
  rcases List.mem_append.mp there with segment | empty
  · obtain ⟨s, hs, rfl⟩ := List.mem_map.mp segment
    exact .inr ⟨s, valid s hs, rfl⟩
  · exact .inl (List.eq_of_mem_replicate empty)

/-- Every column of a stored row, read byte by byte, lies in just one of the three intervals: a
position in that of the positions, the empty column below it, and a name below it or above it. So of
the rows at a place and below it, a deletion of the positions takes those that go on with a
position, and the two others together take the row at the place and those that go on with a name.
-/
theorem SegmentRange.columns_divided :
    (∀ (range : SegmentRange) (text : String), range.contains text = true ↔
      range.lower.Precedes text ∧ range.upper.Follows text) ∧
    (∀ text, Segment.IsColumn text →
      [indexes, belowIndexes, aboveIndexes].countP (fun range => range.contains text) = 1 ∧
      (indexes.contains text = true ↔
        ∃ position : Fin positionCount, text = Segment.indexText position)) ∧
    belowIndexes.contains "" = true ∧
    (∀ name, Segment.ofName name = .ok (.field name) → indexes.contains name = false ∧
      (belowIndexes.contains name = true ∨ aboveIndexes.contains name = true)) ∧
    (∀ document (place q : Path) time width, q.Valid → place <+: q →
      (Deletion.covers ⟨document, place, .range indexes, time⟩ (q.padded width) = true ↔
        ∃ position, place ++ [.index position] <+: q) ∧
      (Deletion.covers ⟨document, place, .range belowIndexes, time⟩ (q.padded width) = true ∨
          Deletion.covers ⟨document, place, .range aboveIndexes, time⟩ (q.padded width) = true ↔
        q = place ∨ ∃ name, place ++ [.field name] <+: q)) ∧
    (∀ document (place q : Path) time width range, place.Valid → q.Valid → ¬ place <+: q →
      Deletion.covers ⟨document, place, .range range, time⟩ (q.padded width) = false) ∧
    ∀ s : Service MemoryStore, s.store = MemoryStore.rowStore → ∀ writes name document,
      ∀ row ∈ (s.after writes).live name document,
        (∀ column ∈ row.segments, Segment.IsColumn column) ∧
        ∃ q : Path, q.Valid ∧ row.segments = q.padded s.config.maxDepth := by
  refine ⟨contains_iff, fun text held => ⟨countP_contains text, indexes_contains_iff held⟩,
    by decide, ?_, ?_, ?_, ?_⟩
  · intro name valid
    have outside : indexes.contains name = false := indexes_contains (s := .field name) valid
    exact ⟨outside, by simp [← Bool.or_eq_true, below_or_above, outside]⟩
  · intro document place q time width valid leads
    have above : place.Valid := fun s hs => valid s (leads.subset hs)
    exact ⟨Deletion.indexes_covers_iff document time above valid width,
      Deletion.beside_covers_iff document time above valid width⟩
  · intro document place q time width range hp hq apart
    rw [Bool.eq_false_iff, Ne, Deletion.range_covers_iff document time range hp hq]
    rintro ⟨rest, rfl, _⟩
    exact apart (List.prefix_append place rest)
  · intro s memory writes name document row live
    obtain ⟨q, valid, columns⟩ := (Service.after_legible memory writes name).mem_live live
    exact ⟨columns ▸ Path.isColumn_padded valid _, q, valid, columns⟩

/-- A name that sorts next to the brackets, and rows on both sides of it. -/
theorem SegmentRange.columns_divided_brackets :
    [indexes, belowIndexes, aboveIndexes].countP (fun range => range.contains "[000007]") = 1 ∧
    indexes.contains "Z999999" = false ∧
    Deletion.covers ⟨"d", [.field "a"], .range indexes, 5⟩
      (Path.padded [.field "a", .index 7, .field "Z"] 4) = true ∧
    Deletion.covers ⟨"d", [.field "a"], .range indexes, 5⟩
      (Path.padded [.field "a", .field "Z", .index 7] 4) = false ∧
    Deletion.covers ⟨"d", [.field "a"], .range indexes, 5⟩
      (Path.padded [.field "ab", .index 7] 4) = false := by
  obtain ⟨_, columns, _, names, rows, apart, _⟩ := columns_divided
  refine ⟨(columns _ (.inr ⟨.index 7, trivial, rfl⟩)).1, (names "Z999999" rfl).1, ?_, ?_, ?_⟩
  · have item : Path.Valid [.field "a", .index 7, .field "Z"] :=
      Path.ofDotted_valid "a.[7].Z" rfl
    exact (rows "d" [.field "a"] _ 5 4 item ⟨_, rfl⟩).1.mpr ⟨7, _, rfl⟩
  · have member : Path.Valid [.field "a", .field "Z", .index 7] :=
      Path.ofDotted_valid "a.Z.[7]" rfl
    rw [Bool.eq_false_iff, Ne, (rows "d" [.field "a"] _ 5 4 member ⟨_, rfl⟩).1]
    simp
  · have other : Path.Valid [.field "ab", .index 7] := Path.ofDotted_valid "ab.[7]" rfl
    exact apart "d" [.field "a"] _ 5 4 indexes (Path.ofDotted_valid "a" rfl) other (by decide)

end LeafStore
