import Mathlib.Data.List.Induction
import LeafStore.Proofs.Convergence
import LeafStore.Proofs.Rows
/-!
Columns and rows read in both directions. Whatever text stands in a column, the segment that is read
from it has that column; whatever columns a path is read from, the path fills them again; and a row
gives back the leaf that it was written for.
-/
namespace LeafStore

namespace Text

theorem ofNat_digitValue {c : Char} (digit : c.isDigit = true) :
    Char.ofNat (48 + digitValue c % 10) = c := by
  have small := digitValue_lt digit
  simp only [Char.isDigit, Bool.and_eq_true, decide_eq_true_eq] at digit
  have lower : 48 ≤ c.toNat := digit.1
  have code : 48 + digitValue c % 10 = c.toNat := by
    unfold digitValue at small ⊢
    omega
  rw [code, Char.ofNat_toNat]

theorem sixDigits_digitsValue {digits : List Char} (all : digits.all Char.isDigit = true)
    (six : digits.length = 6) : sixDigits (digitsValue digits) = digits := by
  match digits, six with
  | [a, b, c, d, e, f], _ =>
    simp only [List.all_cons, List.all_nil, Bool.and_eq_true, Bool.and_true] at all
    obtain ⟨ha, hb, hc, hd, he, hf⟩ := all
    have := digitValue_lt ha
    have := digitValue_lt hb
    have := digitValue_lt hc
    have := digitValue_lt hd
    have := digitValue_lt he
    have := digitValue_lt hf
    have value : digitsValue [a, b, c, d, e, f] = 100000 * digitValue a + 10000 * digitValue b +
        1000 * digitValue c + 100 * digitValue d + 10 * digitValue e + digitValue f := by
      simp only [digitsValue, List.foldl_cons, List.foldl_nil]
      omega
    have first : digitsValue [a, b, c, d, e, f] / 100000 % 10 = digitValue a % 10 := by omega
    have second : digitsValue [a, b, c, d, e, f] / 10000 % 10 = digitValue b % 10 := by omega
    have third : digitsValue [a, b, c, d, e, f] / 1000 % 10 = digitValue c % 10 := by omega
    have fourth : digitsValue [a, b, c, d, e, f] / 100 % 10 = digitValue d % 10 := by omega
    have fifth : digitsValue [a, b, c, d, e, f] / 10 % 10 = digitValue e % 10 := by omega
    have sixth : digitsValue [a, b, c, d, e, f] % 10 = digitValue f % 10 := by omega
    simp only [sixDigits, List.map_cons, List.map_nil, first, second, third, fourth, fifth, sixth,
      ofNat_digitValue ha, ofNat_digitValue hb, ofNat_digitValue hc, ofNat_digitValue hd,
      ofNat_digitValue he, ofNat_digitValue hf]

end Text

namespace Segment

theorem columnDigits?_eq_some {chars digits : List Char} (read : columnDigits? chars = some digits) :
    chars = '[' :: (digits ++ [']']) ∧ digits.length = 6 ∧ digits.all Char.isDigit = true := by
  unfold columnDigits? at read
  split at read
  · split at read
    · rename_i all
      cases read
      exact ⟨rfl, rfl, all⟩
    · cases read
  · cases read

theorem column_ofColumn (text : String) : (ofColumn text).column = text := by
  unfold ofColumn
  split
  · rename_i digits read
    obtain ⟨chars, six, all⟩ := columnDigits?_eq_some read
    split
    · show indexText (Text.digitsValue digits) = text
      rw [indexText, Text.sixDigits_digitsValue all six, List.cons_append, ← chars,
        String.ofList_toList]
    · rfl
  · rfl

end Segment

namespace Path

/-- No empty column stands before one that is not empty. -/
def Gapless (columns : List String) : Prop :=
  columns.Pairwise fun before after => before = "" → after = ""

theorem usedColumns_concat (columns : List String) (last : String) :
    usedColumns (columns ++ [last]) = if last = "" then usedColumns columns else columns ++ [last] := by
  by_cases empty : last = "" <;> simp [usedColumns, empty]

theorem usedColumns_filled_iff (columns : List String) :
    (∀ c ∈ usedColumns columns, c ≠ "") ↔ Gapless columns := by
  induction columns using List.reverseRecOn with
  | nil => simp [usedColumns, Gapless]
  | append_singleton columns last ih =>
    rw [usedColumns_concat, Gapless, List.pairwise_append]
    by_cases empty : last = ""
    · simp only [empty, if_true, ih, Gapless, List.pairwise_singleton, List.mem_singleton,
        forall_eq, implies_true, and_true]
    · simp only [empty, if_false, List.pairwise_singleton, List.mem_singleton, forall_eq, true_and]
      constructor
      · intro filled
        have each : ∀ c ∈ columns, c ≠ "" := fun c hc =>
          filled c (List.mem_append_left _ hc)
        exact ⟨List.pairwise_of_forall_mem_list fun c hc _ _ none => absurd none (each c hc), each⟩
      · rintro ⟨_, each⟩ c hc
        rcases List.mem_append.mp hc with before | here
        · exact each c before
        · rw [List.mem_singleton.mp here]
          exact empty

theorem exists_padding (columns : List String) :
    ∃ room, columns = usedColumns columns ++ List.replicate room "" := by
  induction columns using List.reverseRecOn with
  | nil => exact ⟨0, rfl⟩
  | append_singleton columns last ih =>
    obtain ⟨room, split⟩ := ih
    rw [usedColumns_concat]
    split
    · rename_i empty
      refine ⟨room + 1, ?_⟩
      rw [List.replicate_succ', ← List.append_assoc, ← split, empty]
    · exact ⟨0, (List.append_nil _).symm⟩

theorem ofColumns_eq_ok_iff (columns : List String) (path : Path) :
    ofColumns columns = .ok path ↔
      Gapless columns ∧ path = (usedColumns columns).map Segment.ofColumn := by
  rw [← usedColumns_filled_iff]
  cases gap : (usedColumns columns).findIdx? String.isEmpty with
  | some position =>
    have some : ((usedColumns columns).findIdx? String.isEmpty).isSome = true := by rw [gap]; rfl
    obtain ⟨c, hc, empty⟩ := List.any_eq_true.mp (List.findIdx?_isSome.symm.trans some)
    simp only [ofColumns, gap]
    constructor
    · intro ok
      cases ok
    · intro h
      exact absurd (String.isEmpty_iff.mp empty) (h.1 c hc)
  | none =>
    have filled : ∀ c ∈ usedColumns columns, c ≠ "" := by
      intro c hc
      simpa [String.isEmpty_iff] using List.findIdx?_eq_none_iff.mp gap c hc
    simp only [ofColumns, gap]
    constructor
    · intro ok
      cases ok
      exact ⟨filled, rfl⟩
    · intro h
      rw [h.2]

theorem exists_ofColumns_eq_ok_iff (columns : List String) :
    (∃ path, ofColumns columns = .ok path) ↔ Gapless columns := by
  simp only [ofColumns_eq_ok_iff, exists_and_left, exists_eq, and_true]

theorem toColumns_ofColumns {columns : List String} {path : Path}
    (ok : ofColumns columns = .ok path) : path.toColumns columns.length = .ok columns := by
  obtain ⟨-, rfl⟩ := (ofColumns_eq_ok_iff columns path).mp ok
  obtain ⟨room, split⟩ := exists_padding columns
  have size : columns.length = (usedColumns columns).length + room := by
    simpa using congrArg List.length split
  have back : ((usedColumns columns).map Segment.ofColumn).map Segment.column =
      usedColumns columns := by
    rw [List.map_map]
    exact (List.map_congr_left fun c _ => Segment.column_ofColumn c).trans (List.map_id _)
  have fits : ¬ columns.length < ((usedColumns columns).map Segment.ofColumn).length := by
    rw [List.length_map]
    omega
  have rest : columns.length - ((usedColumns columns).map Segment.ofColumn).length = room := by
    rw [List.length_map]
    omega
  rw [toColumns, checkDepth, if_neg fits, padded, Path.columns, back, rest, ← split]
  rfl

end Path

namespace Row

theorem path_of_decode {row : Row} {cell : Cell} (ok : row.decode = .ok cell) :
    Path.ofColumns row.segments = .ok cell.path := by
  obtain ⟨path, place, ok⟩ := bind_eq_ok ok
  obtain ⟨leaf, -, ok⟩ := bind_eq_ok ok
  cases ok
  exact place

theorem segments_of_decode {a b : Row} (width : a.segments.length = b.segments.length) {c d : Cell}
    (first : a.decode = .ok c) (second : b.decode = .ok d) (same : c.path = d.path) :
    a.segments = b.segments := by
  have one := Path.toColumns_ofColumns (path_of_decode first)
  have two := Path.toColumns_ofColumns (path_of_decode second)
  rw [same, width, two] at one
  exact (Except.ok.inj one).symm

/-- The leaf column tells the empty containers from each other and from all scalars. -/
theorem leaf_eq_marker_iff {cell : Cell} (valid : cell.path.Valid) (width : Nat) :
    ((cell.row width).leaf = emptyObjectMarker ↔ cell.leaf = .emptyObject) ∧
      ((cell.row width).leaf = emptyArrayMarker ↔ cell.leaf = .emptyArray) := by
  cases kind : cell.leaf.isMarker with
  | false =>
    obtain ⟨notObject, notArray⟩ := leafColumn_ne_marker valid kind
    constructor
    · refine ⟨fun marker => absurd marker notObject, fun same => ?_⟩
      rw [same] at kind
      cases kind
    · refine ⟨fun marker => absurd marker notArray, fun same => ?_⟩
      rw [same] at kind
      cases kind
  | true =>
    obtain ⟨document, path, leaf, writeTime⟩ := cell
    have apart : emptyObjectMarker ≠ emptyArrayMarker := by decide
    cases leaf with
    | emptyObject => simp [Cell.row, ofColumns, leafColumn, Leaf.marker?, apart]
    | emptyArray => simp [Cell.row, ofColumns, leafColumn, Leaf.marker?, apart.symm]
    | _ => cases kind

end Row

theorem Table.Reflects.live_eq {t : Table} {changes : List Mutation} (h : t.Reflects changes)
    {document : String} {a b : Row} (ha : a ∈ t.live document) (hb : b ∈ t.live document)
    (same : a.segments = b.segments) : a = b := by
  obtain ⟨first, listed, rfl⟩ := List.mem_map.mp ha
  obtain ⟨second, listed', rfl⟩ := List.mem_map.mp hb
  have key : first.1 = second.1 :=
    ((h.mem_rows listed).1.trans same).trans (h.mem_rows listed').1.symm
  exact (h.partition document).ascending.value_unique listed (key ▸ listed')

/-- Encoding and decoding undo each other. A leaf at a valid path that is not too long comes back from
its row as it was, and the leaf column names an empty container and nothing else. Columns are read as
a path where no empty one stands before another, and that path fills them again. So no two rows of a
document with equally many columns hold leaves of one path. -/
theorem Row.codecs_inverse (width : Nat) :
    (∀ document (path : Path) leaf time, path.Valid → path.length ≤ width →
      ∃ row, encode document path leaf width time = .ok row ∧ row.segments.length = width ∧
        (row.leaf = emptyObjectMarker ↔ leaf = .emptyObject) ∧
        (row.leaf = emptyArrayMarker ↔ leaf = .emptyArray) ∧
        row.decode = .ok ⟨document, path, leaf, time⟩) ∧
    (∀ columns : List String, (∃ path, Path.ofColumns columns = .ok path) ↔
      columns.Pairwise fun before after => before = "" → after = "") ∧
    (∀ columns path, Path.ofColumns columns = .ok path →
      path.toColumns columns.length = .ok columns) ∧
    (∀ a b : Row, a.segments.length = b.segments.length → ∀ c d, a.decode = .ok c →
      b.decode = .ok d → c.path = d.path → a.segments = b.segments) ∧
    ∀ name batches document,
      ∀ a ∈ (MemoryStore.applyEach {} name batches).live name document,
      ∀ b ∈ (MemoryStore.applyEach {} name batches).live name document,
        a ≠ b → a.segments.length = b.segments.length →
        ∀ c d, a.decode = .ok c → b.decode = .ok d → c.path ≠ d.path := by
  refine ⟨?_, Path.exists_ofColumns_eq_ok_iff, fun _ _ => Path.toColumns_ofColumns,
    fun _ _ same _ _ => segments_of_decode same, ?_⟩
  · intro document path leaf time valid fits
    have markers := @leaf_eq_marker_iff ⟨document, path, leaf, time⟩ valid width
    exact ⟨Cell.row width ⟨document, path, leaf, time⟩,
      (encode_eq_ok_iff ..).mpr ⟨fits, rfl⟩, Path.padded_length fits, markers.1, markers.2,
      decode_row valid width⟩
  · intro name batches document a ha b hb differ size c d first second same
    obtain ⟨reflects, _⟩ := MemoryStore.applyEach_reflects {} name batches rfl Table.reflects_nil
    exact differ (reflects.live_eq ha hb (segments_of_decode size first second same))

/-- Columns that look like a position: one too short, and one whose digits are of another script. -/
def Sample.positionLookAlikes : List (List Mutation) :=
  [[.insert ⟨"d", ["[7]", ""], "[7]", none, none, none, 1⟩],
    [.insert ⟨"d", ["[٣٣٣]", ""], "[٣٣٣]", none, none, none, 2⟩,
      .insert ⟨"d", ["[000007]", ""], "[000007]", none, none, none, 3⟩]]

theorem Row.codecs_inverse_lookAlikes :
    (∃ row, encode "d" [.field "a", .index 7] .emptyArray 2 5 = .ok row ∧
      row.leaf = emptyArrayMarker ∧ row.decode = .ok ⟨"d", [.field "a", .index 7], .emptyArray, 5⟩) ∧
    Path.ofColumns ["[٣٣٣]", "[000007]", "", ""] = .ok [.field "[٣٣٣]", .index 7] ∧
    Path.toColumns 4 [.field "[٣٣٣]", .index 7] = .ok ["[٣٣٣]", "[000007]", "", ""] ∧
    ((MemoryStore.applyEach {} ⟨"k", "t"⟩ Sample.positionLookAlikes).live ⟨"k", "t"⟩ "d").length = 3 ∧
    ∀ a ∈ (MemoryStore.applyEach {} ⟨"k", "t"⟩ Sample.positionLookAlikes).live ⟨"k", "t"⟩ "d",
    ∀ b ∈ (MemoryStore.applyEach {} ⟨"k", "t"⟩ Sample.positionLookAlikes).live ⟨"k", "t"⟩ "d",
      a ≠ b → a.segments.length = b.segments.length →
      ∀ c d, a.decode = .ok c → b.decode = .ok d → c.path ≠ d.path := by
  obtain ⟨rows, _, columns, _, live⟩ := Row.codecs_inverse 2
  obtain ⟨row, encoded, _, _, marker, decoded⟩ := rows "d" [.field "a", .index 7] .emptyArray 5
    (Path.ofDotted_valid "a.[7]" rfl) (by decide)
  have read : Path.ofColumns ["[٣٣٣]", "[000007]", "", ""] = .ok [.field "[٣٣٣]", .index 7] := rfl
  exact ⟨⟨row, encoded, marker.mpr rfl, decoded⟩, read, columns _ _ read, by decide,
    live _ Sample.positionLookAlikes "d"⟩

end LeafStore
