import LeafStore.Proofs.Feeds
import LeafStore.Proofs.Sorted
import LeafStore.Table
/-!
The entries of a table: all live rows with their keys, in strictly ascending order of the keys.
What a select finds is a filter of the entries, whatever documents it is about.
-/
namespace LeafStore

theorem take_cases {α : Type} (n : Nat) (positive : 0 < n) (items : List α) :
    items.length ≤ n ∨ ∃ first last rest, items = first ++ last :: rest ∧ rest ≠ [] ∧
      first.length + 1 = n ∧ items.take n = first ++ [last] := by
  by_cases few : items.length ≤ n
  · exact .inl few
  · have size : (items.take n).length = n := List.length_take_of_le (Nat.le_of_not_le few)
    have filled : items.take n ≠ [] := fun none => by simp [none] at size; omega
    obtain ⟨last, isLast⟩ := Option.isSome_iff_exists.mp (List.getLast?_isSome.mpr filled)
    obtain ⟨first, taken⟩ := List.getLast?_eq_some_iff.mp isLast
    refine .inr ⟨first, last, items.drop n, ?_, ?_, ?_, taken⟩
    · have whole := List.take_append_drop n items
      rw [taken] at whole
      simpa using whole.symm
    · exact fun none => few (List.drop_eq_nil_iff.mp none)
    · rw [taken, List.length_append, List.length_singleton] at size
      exact size

namespace Select

variable {s : Select}

theorem columnsOf_full (full : s.columns = .full) (row : Row) : s.columnsOf row = row := by
  simp only [columnsOf, full]

@[simp] theorem columnsOf_document (row : Row) : (s.columnsOf row).document = row.document := by
  unfold columnsOf
  split <;> rfl

@[simp] theorem columnsOf_leaf (row : Row) : (s.columnsOf row).leaf = row.leaf := by
  unfold columnsOf
  split <;> rfl

end Select

namespace Table

/-- Documents ascend in the table, and columns in each partition. -/
structure Ordered (t : Table) : Prop where
  documents : Sorted.Ascending t
  rows : ∀ entry ∈ t, Sorted.Ascending entry.2.rows

theorem Key.isAfter_iff (key other : Key) :
    key.isAfter other = true ↔ other.1 < key.1 ∨ other.1 = key.1 ∧ other.2 < key.2 := by
  simp only [Key.isAfter, Bool.or_eq_true, Bool.and_eq_true, decide_eq_true_eq]

theorem Key.isAfter_asymm {key other : Key} (h : key.isAfter other = true) :
    other.isAfter key = false := by
  rw [Key.isAfter_iff] at h
  rw [Bool.eq_false_iff, Ne, Key.isAfter_iff]
  rintro (back | ⟨same, back⟩) <;> rcases h with h | ⟨same', h⟩
  · exact String.lt_asymm h back
  · exact String.lt_irrefl _ (same' ▸ back)
  · exact String.lt_irrefl _ (same ▸ h)
  · exact List.lt_asymm h back

@[simp] theorem Key.isAfter_irrefl (key : Key) : key.isAfter key = false := by
  rw [Bool.eq_false_iff]
  intro h
  exact absurd (Key.isAfter_asymm h) (by simp [h])

theorem Key.isAfter_trans {a b c : Key} (hab : b.isAfter a = true) (hbc : c.isAfter b = true) :
    c.isAfter a = true := by
  rw [Key.isAfter_iff] at hab hbc ⊢
  rcases hab with ab | ⟨same, ab⟩ <;> rcases hbc with bc | ⟨same', bc⟩
  · exact .inl (String.lt_trans ab bc)
  · exact .inl (same' ▸ ab)
  · exact .inl (same ▸ bc)
  · exact .inr ⟨same.trans same', List.lt_trans ab bc⟩

def Key.order : KeyOrder Key := ⟨Key.isAfter, Key.isAfter_irrefl, Key.isAfter_trans⟩

@[simp] theorem Key.order_isAfter : Key.order.isAfter = Key.isAfter := rfl

theorem Ordered.entries_ascending {t : Table} (h : t.Ordered) :
    Key.order.Ascends Prod.fst t.entries := by
  obtain ⟨documents, rows⟩ := h
  refine List.pairwise_flatMap.mpr ⟨?_, ?_⟩
  · intro entry he
    refine List.pairwise_map.mpr ((rows entry he).imp ?_)
    intro a b less
    exact (Key.isAfter_iff _ _).mpr (.inr ⟨rfl, less⟩)
  · refine documents.imp ?_
    intro a b less x hx y hy
    obtain ⟨_, _, rfl⟩ := List.mem_map.mp hx
    obtain ⟨_, _, rfl⟩ := List.mem_map.mp hy
    exact (Key.isAfter_iff _ _).mpr (.inl less)

theorem Ordered.mem_entries {t : Table} (h : t.Ordered) (document : String)
    (columns : List String) (row : Row) :
    ((document, columns), row) ∈ t.entries ↔ (columns, row) ∈ (t.partition document).rows := by
  have found := h.documents.lookup_eq_some_iff document
  unfold entries partition
  constructor
  · intro member
    obtain ⟨entry, he, hm⟩ := List.mem_flatMap.mp member
    obtain ⟨stored, hs, same⟩ := List.mem_map.mp hm
    cases same
    rw [(found entry.2).mpr he]
    exact hs
  · intro member
    cases there : t.lookup document with
    | none => simp [there] at member
    | some p =>
      rw [there] at member
      exact List.mem_flatMap.mpr ⟨_, (found p).mp there, List.mem_map.mpr ⟨_, member, rfl⟩⟩

theorem Ordered.entries_ext {a b : Table} (ha : a.Ordered) (hb : b.Ordered)
    (same : ∀ document, (a.partition document).rows = (b.partition document).rows) :
    a.entries = b.entries := by
  refine ha.entries_ascending.ext hb.entries_ascending fun entry => ?_
  obtain ⟨⟨document, columns⟩, row⟩ := entry
  rw [ha.mem_entries, hb.mem_entries, same]

@[simp] theorem entries_cons (document : String) (p : Partition) (rest : Table) :
    entries ((document, p) :: rest) =
      (p.rows.map fun entry => ((document, entry.1), entry.2)) ++ entries rest := rfl

theorem entries_filter (t : Table) (about : String → Bool) :
    (t.entries.filter fun entry => about entry.1.1) =
      entries (t.filter fun entry => about entry.1) := by
  induction t with
  | nil => rfl
  | cons first rest ih =>
    obtain ⟨document, p⟩ := first
    rw [entries_cons, List.filter_append, ih, List.filter_cons]
    cases chosen : about document with
    | true =>
      have all : (p.rows.map fun entry => ((document, entry.1), entry.2)).filter
          (fun entry => about entry.1.1) = p.rows.map fun entry => ((document, entry.1), entry.2) := by
        refine List.filter_eq_self.mpr fun entry he => ?_
        obtain ⟨_, _, rfl⟩ := List.mem_map.mp he
        exact chosen
      rw [all]
      rfl
    | false =>
      have none : (p.rows.map fun entry => ((document, entry.1), entry.2)).filter
          (fun entry => about entry.1.1) = [] := by
        refine List.filter_eq_nil_iff.mpr fun entry he => ?_
        obtain ⟨_, _, rfl⟩ := List.mem_map.mp he
        simp [chosen]
      rw [none]
      rfl

theorem entries_rows (t : Table) : t.entries.map (·.2) = t.flatMap fun entry => entry.2.live := by
  induction t with
  | nil => rfl
  | cons first rest ih =>
    rw [entries_cons, List.map_append, ih]
    simp [Partition.live, Function.comp_def]

theorem Ordered.entries_of_document {t : Table} (h : t.Ordered) (document : String) :
    (t.entries.filter fun entry => entry.1.1 = document).map (·.2) = t.live document := by
  have only : (t.filter fun entry => entry.1 = document).flatMap (fun entry => entry.2.live) =
      t.live document := by
    have documents := h.documents
    unfold live partition
    clear h
    induction documents with
    | nil => rfl
    | @cons first rest before _ ih =>
      obtain ⟨id, p⟩ := first
      by_cases same : id = document
      · subst same
        have others : rest.filter (fun entry => entry.1 = id) = [] := by
          refine List.filter_eq_nil_iff.mpr fun entry he => ?_
          simpa using (Sorted.ne_of_lt (before entry he)).symm
        simp [others]
      · have differ : (document == id) = false := by simpa using Ne.symm same
        simpa [same, List.lookup_cons, differ] using ih
  rw [entries_filter t fun id => id = document, entries_rows, only]

/-- The entries that a select is about, wherever it goes on from. -/
def answers (s : Select) (entry : Key × Row) : Bool :=
  s.document.all (· = entry.1.1) && s.after.all (· < entry.1.1) && s.accepts entry.2

theorem selected_eq (t : Table) (s : Select) (resume : Option Key) :
    t.selected s resume = Key.order.past Prod.fst resume (t.entries.filter (answers s)) := by
  show _ = (t.entries.filter (answers s)).filter fun entry => resume.all entry.1.isAfter
  induction t with
  | nil => rfl
  | cons first rest ih =>
    obtain ⟨document, p⟩ := first
    have split : entries ((document, p) :: rest) =
        (p.rows.map fun entry => ((document, entry.1), entry.2)) ++ entries rest := rfl
    have tail : selected rest s resume =
        (documents rest s).entries.filter
          fun entry => resume.all entry.1.isAfter && s.accepts entry.2 := rfl
    rw [split, List.filter_append, List.filter_append, ← ih, tail]
    unfold selected documents
    rw [List.filter_cons]
    split
    · rename_i about
      simp only [Bool.and_eq_true] at about
      simp only [entries, List.flatMap_cons, List.filter_append, List.filter_filter]
      congr 1
      refine List.filter_congr fun entry he => ?_
      obtain ⟨_, _, rfl⟩ := List.mem_map.mp he
      simp only [answers, about.1, about.2, Bool.true_and]
    · rename_i other
      have none : (p.rows.map fun entry => ((document, entry.1), entry.2)).filter
          (answers s) = [] := by
        refine List.filter_eq_nil_iff.mpr fun entry he => ?_
        obtain ⟨_, _, rfl⟩ := List.mem_map.mp he
        simp only [answers]
        grind
      rw [none]
      rfl

theorem Ordered.answers_ascending {t : Table} (h : t.Ordered) (s : Select) :
    Key.order.Ascends Prod.fst (t.entries.filter (answers s)) := h.entries_ascending.filter _

theorem Ordered.selected_after {t : Table} (h : t.Ordered) (s : Select) (resume : Option Key)
    {first rest : List (Key × Row)} {last : Key × Row}
    (split : t.selected s resume = first ++ last :: rest) : t.selected s (some last.1) = rest := by
  rw [selected_eq] at split ⊢
  exact (h.answers_ascending s).past_resumed split

theorem cut_full (s : Select) (size : Nat) (sized : s.pageSize = some size)
    (found : List (Key × Row)) :
    found.length ≤ max 1 size ∧ cut s found = ⟨found.map fun entry => s.columnsOf entry.2, none⟩ ∨
      ∃ first last rest, found = first ++ last :: rest ∧ rest ≠ [] ∧ first.length + 1 = max 1 size ∧
        cut s found = ⟨(first ++ [last]).map fun entry => s.columnsOf entry.2,
          some last.1.token⟩ := by
  simp only [cut, sized]
  rcases take_cases (max 1 size) (Nat.lt_of_lt_of_le Nat.one_pos (Nat.le_max_left ..)) found with
    few | ⟨first, last, rest, split, others, full, taken⟩
  · left
    rw [List.take_of_length_le few, if_neg (Nat.lt_irrefl _)]
    exact ⟨few, rfl⟩
  · right
    have more : (first ++ [last]).length < found.length := by
      rw [split]
      simp only [List.length_append, List.length_cons, List.length_nil]
      have some := List.length_pos_iff.mpr others
      omega
    refine ⟨first, last, rest, split, others, full, ?_⟩
    rw [taken, if_pos more, List.getLast?_concat]
    rfl

theorem cut_cases (s : Select) (size : Nat) (sized : s.pageSize = some size)
    (found : List (Key × Row)) :
    cut s found = ⟨found.map fun entry => s.columnsOf entry.2, none⟩ ∨
      ∃ first last rest, found = first ++ last :: rest ∧
        cut s found = ⟨(first ++ [last]).map fun entry => s.columnsOf entry.2,
          some last.1.token⟩ := by
  rcases cut_full s size sized found with ⟨_, all⟩ | ⟨first, last, rest, split, _, _, part⟩
  · exact .inl all
  · exact .inr ⟨first, last, rest, split, part⟩

/-- The answer to a select depends on the entries only. -/
theorem page_congr {a b : Table} (same : a.entries = b.entries) (s : Select) :
    a.page s = b.page s := by
  have selected : ∀ resume, a.selected s resume = b.selected s resume := fun resume => by
    rw [selected_eq, selected_eq, same]
  simp only [page, selected]

end Table

end LeafStore
