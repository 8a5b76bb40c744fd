import LeafStore.Proofs.Columns
/-!
Dotted paths. The text of every path that callers can write is read back as that path.
-/
namespace LeafStore

namespace Path

@[simp] theorem splitPoints_of_free {piece : List Char} (free : '.' ∉ piece) :
    splitPoints piece = [piece] := by
  induction piece with
  | nil => rfl
  | cons c rest ih =>
    obtain ⟨differ, others⟩ := not_or.mp fun there => free (List.mem_cons.mpr there)
    rw [splitPoints, if_neg (Ne.symm differ), ih others]

@[simp] theorem splitPoints_append {piece : List Char} (free : '.' ∉ piece) (rest : List Char) :
    splitPoints (piece ++ '.' :: rest) = piece :: splitPoints rest := by
  induction piece with
  | nil => rfl
  | cons c piece ih =>
    obtain ⟨differ, others⟩ := not_or.mp fun there => free (List.mem_cons.mpr there)
    rw [List.cons_append, splitPoints, if_neg (Ne.symm differ), ih others]

theorem splitPoints_intercalate {pieces : List (List Char)} (filled : pieces ≠ [])
    (free : ∀ piece ∈ pieces, '.' ∉ piece) : splitPoints (['.'].intercalate pieces) = pieces := by
  induction pieces with
  | nil => exact absurd rfl filled
  | cons piece pieces ih =>
    obtain ⟨here, others⟩ := List.forall_mem_cons.mp free
    cases pieces with
    | nil => rw [List.intercalate_singleton, splitPoints_of_free here]
    | cons next pieces =>
      rw [List.intercalate_cons_cons, List.append_assoc, List.singleton_append,
        splitPoints_append here, ih (List.cons_ne_nil _ _) others]

theorem pieces_intercalate {texts : List String} (filled : texts ≠ [])
    (free : ∀ text ∈ texts, '.' ∉ text.toList) : pieces (String.intercalate "." texts) = texts := by
  unfold pieces
  rw [String.toList_intercalate]
  show (splitPoints (['.'].intercalate (texts.map String.toList))).map String.ofList = _
  rw [splitPoints_intercalate (fun none => filled (List.map_eq_nil_iff.mp none)), List.map_map]
  · exact (List.map_congr_left fun _ _ => String.ofList_toList).trans (List.map_id _)
  · intro piece hp
    obtain ⟨text, ht, rfl⟩ := List.mem_map.mp hp
    exact free text ht

end Path

namespace Segment

theorem isDigit_ne_point {c : Char} (digit : c.isDigit = true) : c ≠ '.' := by
  rintro rfl
  cases digit

theorem column_free {s : Segment} (valid : s.Valid) : '.' ∉ s.column.toList := by
  cases s with
  | field name =>
    intro there
    cases ((valid_field_iff name).mp valid).2.1 '.' there
  | index position =>
    rw [column, indexText_toList]
    intro there
    rcases List.mem_cons.mp there with bracket | there
    · cases bracket
    · rcases List.mem_append.mp there with digit | bracket
      · exact isDigit_ne_point (List.all_eq_true.mp (Text.sixDigits_all_isDigit position) _ digit) rfl
      · cases List.mem_singleton.mp bracket

@[simp] theorem byteLength_digits {digits : List Char} (all : digits.all Char.isDigit = true) :
    byteLength digits = digits.length := by
  have run : ∀ (digits : List Char) (start : Nat), digits.all Char.isDigit = true →
      digits.foldl (fun bytes c => bytes + c.utf8Size) start = start + digits.length := by
    intro digits
    induction digits with
    | nil => exact fun _ _ => rfl
    | cons c rest ih =>
      intro start all
      obtain ⟨digit, others⟩ := Bool.and_eq_true_iff.mp all
      have one : c.utf8Size = 1 := by
        simp only [Char.isDigit, Bool.and_eq_true, decide_eq_true_eq] at digit
        have upper : c.toNat ≤ 57 := digit.2
        exact Char.utf8Size_eq_one_iff.mpr (UInt32.le_iff_toNat_le.mpr (Nat.le_trans upper (by decide)))
      rw [List.foldl_cons, ih _ others, one, List.length_cons]
      omega
  simpa [byteLength] using run digits 0 all

theorem read_column {s : Segment} (valid : s.Valid) : read s.column = .ok s := by
  cases s with
  | field name =>
    obtain ⟨c, rest, chars, other⟩ := valid.head
    have first : name.toList.head? ≠ some '[' := by
      rw [chars]
      exact fun same => other (Option.some.inj same)
    rw [column, read, if_neg first]
    exact valid
  | index position =>
    have digits := Text.sixDigits_all_isDigit position
    have chars : bracketed? (indexText position).toList = some (Text.sixDigits position) := by
      rw [indexText_toList]
      simp [bracketed?]
    have decimal : (Text.sixDigits position).all Text.isDecimalDigit = true :=
      List.all_eq_true.mpr fun c hc =>
        Text.isDecimalDigit_of_isDigit c (List.all_eq_true.mp digits c hc)
    have six : (Text.sixDigits position).length = 6 := rfl
    have filled : (Text.sixDigits position).isEmpty = false := rfl
    have first : (indexText position).toList.head? = some '[' := by
      rw [indexText_toList]
      rfl
    have value : ofPosition (Text.digitsValue (Text.sixDigits position)) = .ok (index position) := by
      rw [Text.digitsValue_sixDigits _ position.isLt]
      exact dif_pos position.isLt
    rw [column, read, if_pos first, readIndex, chars]
    simp only [filled, decimal, digits, byteLength_digits digits, six, Bool.not_true, Bool.or_false,
      Bool.false_eq_true, if_false, Nat.lt_irrefl, value]

end Segment

namespace Path

@[simp] theorem ofDotted_dotted {p : Path} (valid : p.Valid) : ofDotted p.dotted = .ok p := by
  by_cases root : p = []
  · rw [root]
    rfl
  · have columns : p.columns ≠ [] := fun none => root (List.map_eq_nil_iff.mp none)
    have pieces : pieces p.dotted = p.columns := by
      refine pieces_intercalate columns fun column hc => ?_
      obtain ⟨s, hs, rfl⟩ := List.mem_map.mp hc
      exact Segment.column_free (valid s hs)
    have filled : p.dotted.isEmpty = false := by
      rw [Bool.eq_false_iff, Ne, String.isEmpty_iff]
      intro empty
      obtain ⟨s, rest, rfl⟩ := List.exists_cons_of_ne_nil root
      rw [empty] at pieces
      have first : "" = s.column := (List.cons.inj (show [""] = _ from pieces)).1
      exact Segment.column_ne_empty (valid s (List.mem_cons_self ..)) first.symm
    rw [ofDotted, filled, pieces]
    have read := mapM_eq_ok (f := Segment.read ∘ Segment.column) (g := id) fun s hs =>
      Segment.read_column (valid s hs)
    rw [List.map_id] at read
    simpa [ofSegments, Path.columns, List.mapM_map] using read

theorem dotted_inj {p q : Path} (hp : p.Valid) (hq : q.Valid) (same : p.dotted = q.dotted) :
    p = q := by
  have read := ofDotted_dotted hp
  rw [same, ofDotted_dotted hq] at read
  exact (Except.ok.inj read).symm

end Path

end LeafStore
