import LeafStore.Mutation
import LeafStore.Proofs.Results
/-!
The texts of segments in columns. A valid path is read back from its columns; all positions lie in
one interval of column texts, and the names lie below and above it.
-/
namespace LeafStore

namespace Text

theorem sixDigits_digit (k : Nat) : (Char.ofNat (48 + k % 10)).isDigit = true ∧
    digitValue (Char.ofNat (48 + k % 10)) = k % 10 := by
  have every : ∀ v : Fin 10, (Char.ofNat (48 + v)).isDigit = true ∧
      digitValue (Char.ofNat (48 + v)) = v := by decide
  exact every ⟨k % 10, Nat.mod_lt _ (by decide)⟩

@[simp] theorem sixDigits_all_isDigit (n : Nat) : (sixDigits n).all Char.isDigit = true := by
  simp [sixDigits, sixDigits_digit]

@[simp] theorem digitsValue_sixDigits (n : Nat) (h : n < positionCount) :
    digitsValue (sixDigits n) = n := by
  simp only [sixDigits, digitsValue, List.map_cons, List.map_nil, List.foldl_cons, List.foldl_nil,
    sixDigits_digit]
  unfold positionCount at h
  omega

theorem digitsValue_cons (c : Char) (rest : List Char) :
    digitsValue (c :: rest) = digitValue c * 10 ^ rest.length + digitsValue rest := by
  have run : ∀ (digits : List Char) (n : Nat),
      digits.foldl (fun n c => 10 * n + digitValue c) n =
        n * 10 ^ digits.length + digits.foldl (fun n c => 10 * n + digitValue c) 0 := by
    intro digits
    induction digits with
    | nil => simp
    | cons d rest ih =>
      intro n
      rw [List.foldl_cons, List.foldl_cons, ih (10 * n + digitValue d), ih (10 * 0 + digitValue d),
        List.length_cons, Nat.pow_succ]
      grind
  simpa [digitsValue] using run rest (digitValue c)

theorem digitValue_lt {c : Char} (h : c.isDigit = true) : digitValue c < 10 := by
  simp only [Char.isDigit, Bool.and_eq_true, decide_eq_true_eq] at h
  have upper : c.toNat ≤ 57 := h.2
  unfold digitValue
  omega

theorem digitsValue_lt {digits : List Char} (h : digits.all Char.isDigit = true) :
    digitsValue digits < 10 ^ digits.length := by
  induction digits with
  | nil => simp [digitsValue]
  | cons c rest ih =>
    simp only [List.all_cons, Bool.and_eq_true] at h
    have first := digitValue_lt h.1
    have others := ih h.2
    have whole : (digitValue c + 1) * 10 ^ rest.length ≤ 10 * 10 ^ rest.length :=
      Nat.mul_le_mul_right _ first
    rw [digitsValue_cons, List.length_cons, Nat.pow_succ]
    grind

theorem lt_of_digitsValue_lt {a b : List Char} (ha : a.all Char.isDigit = true)
    (hb : b.all Char.isDigit = true) (length : a.length = b.length)
    (value : digitsValue a < digitsValue b) : a < b := by
  induction a generalizing b with
  | nil =>
    rw [List.eq_nil_of_length_eq_zero length.symm] at value
    exact absurd value (Nat.lt_irrefl _)
  | cons c as ih =>
    cases b with
    | nil => cases length
    | cons d bs =>
      simp only [List.all_cons, Bool.and_eq_true] at ha hb
      simp only [List.length_cons, Nat.add_right_cancel_iff] at length
      rw [digitsValue_cons, digitsValue_cons, length] at value
      have restBound := digitsValue_lt hb.2
      rcases Nat.lt_trichotomy (digitValue c) (digitValue d) with less | same | more
      · have before : c.toNat < d.toNat := by
          unfold digitValue at less
          omega
        exact List.Lex.rel before
      · have one : c = d := by
          have code : c.toNat = d.toNat := by
            have hc := ha.1
            have hd := hb.1
            simp only [Char.isDigit, Bool.and_eq_true, decide_eq_true_eq] at hc hd
            have lower : 48 ≤ c.toNat := hc.1
            have lower' : 48 ≤ d.toNat := hd.1
            unfold digitValue at same
            omega
          exact Char.toNat_inj.mp code
        subst one
        exact List.Lex.cons (ih ha.2 hb.2 length (by omega))
      · have jump : (digitValue d + 1) * 10 ^ bs.length ≤ digitValue c * 10 ^ bs.length :=
          Nat.mul_le_mul_right _ more
        rw [Nat.succ_mul] at jump
        omega

theorem append_lt_append {a b : List Char} (h : a < b) (length : a.length = b.length)
    (c d : List Char) : a ++ c < b ++ d := by
  induction h with
  | nil => cases length
  | rel less => exact List.Lex.rel less
  | cons _ ih => exact List.Lex.cons (ih (Nat.add_right_cancel length))

end Text

namespace Segment

@[simp] theorem indexText_toList (n : Nat) :
    (indexText n).toList = '[' :: (Text.sixDigits n ++ [']']) := by
  simp [indexText]

theorem columnDigits?_indexText (n : Nat) :
    columnDigits? (indexText n).toList = some (Text.sixDigits n) := by
  rw [indexText_toList]
  have digits := Text.sixDigits_all_isDigit n
  simp only [Text.sixDigits, List.map_cons, List.map_nil, List.cons_append, List.nil_append,
    columnDigits?] at digits ⊢
  rw [if_pos digits]

theorem indexText_lt {m n : Nat} (h : m < n) (bound : n < positionCount) :
    indexText m < indexText n := by
  have value : Text.digitsValue (Text.sixDigits m) < Text.digitsValue (Text.sixDigits n) := by
    rw [Text.digitsValue_sixDigits m (Nat.lt_trans h bound), Text.digitsValue_sixDigits n bound]
    exact h
  have digits : Text.sixDigits m < Text.sixDigits n :=
    Text.lt_of_digitsValue_lt (Text.sixDigits_all_isDigit m) (Text.sixDigits_all_isDigit n)
      rfl value
  show (indexText m).toList < (indexText n).toList
  rw [indexText_toList, indexText_toList]
  exact List.Lex.cons (Text.append_lt_append digits rfl _ _)

theorem ofColumn_indexText {n : Nat} (h : n < positionCount) :
    ofColumn (indexText n) = index ⟨n, h⟩ := by
  simp only [ofColumn, columnDigits?_indexText, Text.digitsValue_sixDigits n h, dif_pos h]

/-- A segment that callers can write: its name, if it has one, was checked. -/
def Valid : Segment → Prop
  | field name => ofName name = .ok (field name)
  | index _ => True

theorem valid_field_iff (name : String) :
    (field name).Valid ↔ name ≠ "" ∧ (∀ c ∈ name.toList, isReserved c = false) ∧
      name ≠ emptyObjectMarker ∧ name ≠ emptyArrayMarker := by
  unfold Valid ofName
  by_cases empty : name = ""
  · simp [empty]
  · cases reserved : name.toList.find? isReserved with
    | some c =>
      have bad := List.find?_some reserved
      have member := List.mem_of_find?_eq_some reserved
      simp only [String.isEmpty_iff, empty, if_false, reserved]
      constructor
      · intro h
        cases h
      · intro h
        exact absurd bad (by simp [h.2.1 c member])
    | none =>
      have free : ∀ c ∈ name.toList, isReserved c = false := by
        simpa using List.find?_eq_none.mp reserved
      simp only [String.isEmpty_iff, empty, if_false, reserved]
      split
      · rename_i marker
        constructor
        · intro h
          cases h
        · intro h
          exact absurd marker (not_or.mpr h.2.2)
      · rename_i plain
        exact ⟨fun _ => ⟨empty, free, not_or.mp plain⟩, fun _ => rfl⟩

theorem ofName_valid {name : String} {s : Segment} (ok : ofName name = .ok s) : s.Valid := by
  have named : s = field name := by
    unfold ofName at ok
    split at ok
    · cases ok
    · split at ok
      · cases ok
      · split at ok
        · cases ok
        · exact (Except.ok.inj ok).symm
  rw [named] at ok ⊢
  exact ok

theorem readIndex_valid {raw : String} {s : Segment} (ok : readIndex raw = .ok s) : s.Valid := by
  have position : ∃ i, s = index i := by
    unfold readIndex at ok
    split at ok
    · cases ok
    · split at ok
      · cases ok
      · split at ok
        · cases ok
        · split at ok
          · cases ok
          · unfold ofPosition at ok
            split at ok
            · exact ⟨_, (Except.ok.inj ok).symm⟩
            · cases ok
  obtain ⟨i, rfl⟩ := position
  trivial

theorem read_valid {raw : String} {s : Segment} (ok : read raw = .ok s) : s.Valid := by
  unfold read at ok
  split at ok
  · exact readIndex_valid ok
  · exact ofName_valid ok

theorem Valid.head {name : String} (h : (field name).Valid) :
    ∃ c rest, name.toList = c :: rest ∧ c ≠ '[' := by
  obtain ⟨nonempty, free, _⟩ := (valid_field_iff name).mp h
  cases chars : name.toList with
  | nil => exact absurd (String.toList_eq_nil_iff.mp chars) nonempty
  | cons c rest =>
    refine ⟨c, rest, rfl, ?_⟩
    intro bracket
    have bad := free c (by simp [chars])
    simp [bracket, isReserved] at bad

@[simp] theorem ofColumn_column {s : Segment} (h : s.Valid) : ofColumn s.column = s := by
  cases s with
  | field name =>
    obtain ⟨c, rest, chars, other⟩ := h.head
    have none : columnDigits? (c :: rest) = none := by
      unfold columnDigits?
      split
      · rename_i digits
        exact absurd (List.cons.inj digits).1 other
      · rfl
    simp only [column, ofColumn, chars, none]
  | index position => exact ofColumn_indexText position.isLt

theorem column_ne_empty {s : Segment} (h : s.Valid) : s.column ≠ "" := by
  cases s with
  | field name => exact ((valid_field_iff name).mp h).1
  | index position =>
    intro empty
    have chars := congrArg String.toList empty
    rw [column, indexText_toList] at chars
    cases chars

theorem column_ne_marker {s : Segment} (h : s.Valid) :
    s.column ≠ emptyObjectMarker ∧ s.column ≠ emptyArrayMarker := by
  cases s with
  | field name => exact ((valid_field_iff name).mp h).2.2
  | index position =>
    constructor <;>
    · intro marker
      have chars := congrArg String.toList marker
      rw [column, indexText_toList] at chars
      cases chars

@[simp] theorem column_inj {a b : Segment} (ha : a.Valid) (hb : b.Valid) :
    a.column = b.column ↔ a = b := by
  constructor
  · intro same
    rw [← ofColumn_column ha, ← ofColumn_column hb, same]
  · exact congrArg column

end Segment

namespace SegmentRange

theorem below_or_above (text : String) :
    (belowIndexes.contains text || aboveIndexes.contains text) = !indexes.contains text := by
  simp only [contains, fromLower, toUpper, belowIndexes, aboveIndexes, indexes, Bool.true_and,
    Bool.and_true, Bool.not_and, Bool.not_not]

@[simp] theorem indexes_contains_empty : indexes.contains "" = false := by decide

theorem indexes_contains {s : Segment} (h : s.Valid) : indexes.contains s.column = s.isIndex := by
  cases s with
  | field name =>
    obtain ⟨c, rest, chars, other⟩ := h.head
    have codes : c.toNat ≠ '['.toNat := fun same => other (Char.toNat_inj.mp same)
    rcases Nat.lt_or_gt_of_ne codes with below | above
    · have before : name < Segment.firstIndexText := by
        show name.toList < Segment.firstIndexText.toList
        rw [chars]
        exact List.Lex.rel below
      simp only [contains, fromLower, toUpper, indexes, Segment.column, Segment.isIndex, before,
        decide_true, Bool.not_true, Bool.false_and]
    · have after : Segment.lastIndexText < name := by
        show Segment.lastIndexText.toList < name.toList
        rw [chars]
        exact List.Lex.rel above
      simp only [contains, fromLower, toUpper, indexes, Segment.column, Segment.isIndex, after,
        decide_true, Bool.not_true, Bool.and_false]
  | index position =>
    have notBelow : ¬ Segment.indexText position < Segment.firstIndexText := by
      rcases Nat.eq_zero_or_pos position.val with zero | positive
      · rw [zero]
        exact String.lt_irrefl _
      · exact String.lt_asymm (Segment.indexText_lt positive position.isLt)
    have notAbove : ¬ Segment.lastIndexText < Segment.indexText position := by
      rcases Nat.lt_or_eq_of_le (Nat.le_sub_one_of_lt position.isLt) with less | last
      · exact String.lt_asymm (Segment.indexText_lt less (by decide))
      · rw [last]
        exact String.lt_irrefl _
    simp only [contains, fromLower, toUpper, indexes, Segment.column, Segment.isIndex, notBelow,
      notAbove, decide_false, Bool.not_false, Bool.and_self]

end SegmentRange

namespace Path

def Valid (p : Path) : Prop := ∀ s ∈ p, s.Valid

theorem valid_root : root.Valid := List.forall_mem_nil _

theorem ofSegments_valid {raw : List String} {p : Path} (ok : ofSegments raw = .ok p) :
    p.Valid := by
  intro s hs
  obtain ⟨text, _, read⟩ := mem_of_mapM_eq_ok ok hs
  exact Segment.read_valid read

theorem ofDotted_valid (raw : String) {p : Path} (ok : ofDotted raw = .ok p) : p.Valid := by
  unfold ofDotted at ok
  split at ok
  · cases ok
    exact valid_root
  · exact ofSegments_valid ok

theorem Valid.columns_nonempty {p : Path} (h : p.Valid) : ∀ c ∈ p.columns, c.isEmpty = false := by
  intro c hc
  obtain ⟨s, hs, rfl⟩ := List.mem_map.mp hc
  simpa [String.isEmpty_iff] using Segment.column_ne_empty (h s hs)

theorem usedColumns_padded {p : Path} (h : p.Valid) (width : Nat) :
    usedColumns (p.padded width) = p.columns := by
  have nonempty := h.columns_nonempty
  have kept : p.columns.reverse.dropWhile String.isEmpty = p.columns.reverse := by
    cases rev : p.columns.reverse with
    | nil => rfl
    | cons c rest =>
      have member : c ∈ p.columns := List.mem_reverse.mp (by simp [rev])
      simp [nonempty c member]
  have skipped : ∀ (n : Nat) (cs : List String),
      (List.replicate n "" ++ cs).dropWhile String.isEmpty = cs.dropWhile String.isEmpty := by
    intro n cs
    induction n with
    | zero => rfl
    | succ n ih => simp [List.replicate_succ, ih]
  rw [usedColumns, padded, List.reverse_append, List.reverse_replicate, skipped, kept,
    List.reverse_reverse]

@[simp] theorem ofColumns_padded {p : Path} (h : p.Valid) (width : Nat) :
    ofColumns (p.padded width) = .ok p := by
  have full : p.columns.findIdx? String.isEmpty = none := by
    rw [List.findIdx?_eq_none_iff]
    exact h.columns_nonempty
  have back : p.columns.map Segment.ofColumn = p := by
    rw [columns, List.map_map]
    exact (List.map_congr_left fun s hs => Segment.ofColumn_column (h s hs)).trans (List.map_id p)
  simp only [ofColumns, usedColumns_padded h, full, back]

@[simp] theorem padded_length {p : Path} {width : Nat} (fits : p.length ≤ width) :
    (p.padded width).length = width := by
  simp [padded, columns, fits]

theorem padded_inj {p q : Path} (hp : p.Valid) (hq : q.Valid) (width : Nat)
    (same : p.padded width = q.padded width) : p = q := by
  have read : (Except.ok p : Except RowError Path) = .ok q := by
    rw [← ofColumns_padded hp width, ← ofColumns_padded hq width, same]
  exact Except.ok.inj read

end Path

end LeafStore
