import LeafStore.Proofs.MatchAnswers
import LeafStore.Proofs.Members
import LeafStore.Proofs.Reshaping
import Mathlib.Order.Defs.Unbundled
import Mathlib.Tactic.SplitIfs
/-!
Paths are ordered as their columns are, byte by byte. UTF-8 keeps the order of characters, a
position sorts against a name by the bracket that no name begins with, and the empty columns after
a path sort before every segment. So the rows of a document lie in the table in the order in which
its leaves are assembled, and what is below a path lies together, after the path itself.
-/
namespace LeafStore

theorem compare_eq_lt_iff {α : Type} [LT α] [Ord α] [Std.LawfulEqOrd α]
    (items : ∀ x y : α, compare x y = .lt ↔ x < y) (a b : List α) :
    compare a b = .lt ↔ a < b := by
  induction a generalizing b with
  | nil => cases b <;> simp
  | cons x a ih =>
    cases b with
    | nil => simp
    | cons y b => simp [List.compare_cons_cons, List.cons_lt_cons_iff, Ordering.then_eq_lt, items, ih]

theorem map_lt_map {α β : Type} [LT α] [LT β] {f : α → β} (keeps : ∀ a b, a < b → f a < f b)
    {a b : List α} (less : a < b) : a.map f < b.map f := by
  induction less with
  | nil => exact .nil
  | rel first => exact .rel (keeps _ _ first)
  | cons _ ih => exact .cons ih

namespace Text

def bytes (s : String) : List UInt8 := s.toUTF8.data.toList

theorem bytes_eq (s : String) : bytes s = s.toList.flatMap String.utf8EncodeChar := by
  simp [bytes, String.toUTF8, ← String.utf8Encode_toList, List.utf8Encode]

theorem ofNat_cons_lt_iff {m n : Nat} (hm : m < 256) (hn : n < 256) (a b : List UInt8) :
    UInt8.ofNat m :: a < UInt8.ofNat n :: b ↔ m < n ∨ m = n ∧ a < b := by
  simp [List.cons_lt_cons_iff, UInt8.lt_iff_toNat_lt, ← UInt8.toNat_inj, Nat.mod_eq_of_lt hm,
    Nat.mod_eq_of_lt hn]

/-- Of two numbers the digits to base 64 decide, the higher ones first. -/
theorem digits_lt {m n : Nat} (less : m < n) :
    m / 262144 < n / 262144 ∨ m / 262144 = n / 262144 ∧
      (m / 4096 % 64 < n / 4096 % 64 ∨ m / 4096 % 64 = n / 4096 % 64 ∧
        (m / 64 % 64 < n / 64 % 64 ∨ m / 64 % 64 = n / 64 % 64 ∧ m % 64 < n % 64)) := by
  have step : ∀ {a b : Nat}, a < b → a / 64 < b / 64 ∨ a / 64 = b / 64 ∧ a % 64 < b % 64 := by
    omega
  have second : ∀ v : Nat, v / 4096 = v / 64 / 64 := by omega
  have third : ∀ v : Nat, v / 262144 = v / 64 / 64 / 64 := by omega
  rw [second, second, third, third]
  rcases step less with less | ⟨same, last⟩
  · rcases step less with less | ⟨same, last⟩
    · rcases step less with less | ⟨same, last⟩
      · exact .inl less
      · exact .inr ⟨same, .inl last⟩
    · exact .inr ⟨by rw [same], .inr ⟨by rw [same], .inl last⟩⟩
  · exact .inr ⟨by rw [same], .inr ⟨by rw [same], .inr ⟨by rw [same], last⟩⟩⟩

/-- Of two characters the bytes decide, whatever follows them: more bytes begin with a greater one,
and as many hold the digits of the code point. -/
theorem utf8EncodeChar_lt {c d : Char} (less : c < d) (after others : List UInt8) :
    String.utf8EncodeChar c ++ after < String.utf8EncodeChar d ++ others := by
  have codes : c.val.toNat < d.val.toNat := less
  have bound : d.val.toNat < 0x110000 := by
    have valid := d.valid
    simp only [UInt32.isValidChar, Nat.isValidChar] at valid
    omega
  simp only [String.utf8EncodeChar]
  generalize c.val.toNat = m at codes
  generalize d.val.toNat = n at codes bound
  have digits := digits_lt codes
  have high : m / 262144 % 8 = m / 262144 ∧ n / 262144 % 8 = n / 262144 := by omega
  split_ifs <;>
    simp (disch := omega) only [List.cons_append, List.nil_append, ofNat_cons_lt_iff, high] <;>
    omega

theorem utf8Encode_lt {a b : List Char} (less : a < b) :
    a.flatMap String.utf8EncodeChar < b.flatMap String.utf8EncodeChar := by
  induction less with
  | @nil d rest =>
    rw [List.flatMap_cons]
    cases code : String.utf8EncodeChar d with
    | nil => exact absurd code String.utf8EncodeChar_ne_nil
    | cons => exact .nil
  | rel first => simpa using utf8EncodeChar_lt first _ _
  | @cons c _ _ _ ih =>
    simp only [List.flatMap_cons]
    induction String.utf8EncodeChar c with
    | nil => exact ih
    | cons _ _ same => exact .cons same

theorem bytes_lt_bytes {a b : String} (less : a < b) : bytes a < bytes b := by
  rw [bytes_eq, bytes_eq]
  exact utf8Encode_lt less

end Text

def columnOrder (a b : List String) : Ordering :=
  compare (a.map Text.bytes) (b.map Text.bytes)

theorem columnOrder_of_lt {a b : List String} (less : a < b) : columnOrder a b = .lt := by
  have bytes := compare_eq_lt_iff (α := UInt8) fun x y => compareOfLessAndEq_eq_lt
  exact (compare_eq_lt_iff bytes _ _).mpr (map_lt_map (fun _ _ => Text.bytes_lt_bytes) less)

theorem columnOrder_swap (a b : List String) : columnOrder a b = (columnOrder b a).swap :=
  Std.OrientedOrd.eq_swap

namespace Segment

/-- Valid segments sort as their columns: a name and a position differ in the first character. -/
theorem column_lt_column {a b : Segment} (ha : a.Valid) (hb : b.Valid) (less : a < b) :
    a.column < b.column := by
  cases a with
  | field x =>
    cases b with
    | field y => exact less
    | index j =>
      obtain ⟨c, rest, chars, other⟩ := ha.head
      have before : x.toList < ['['] := less
      rw [chars, List.cons_lt_cons_iff] at before
      obtain first | ⟨same, _⟩ := before
      · have names : x.toList < (indexText j).toList := by
          rw [chars, indexText_toList]
          exact .rel first
        exact names
      · exact absurd same other
  | index i =>
    cases b with
    | field y =>
      obtain ⟨c, rest, chars, other⟩ := hb.head
      have notBefore : ¬ y.toList < ['['] := less
      rw [chars, List.cons_lt_cons_iff] at notBefore
      have first : '[' < c := by
        rcases Std.lt_trichotomy c '[' with below | same | above
        · exact absurd (.inl below) notBefore
        · exact absurd same other
        · exact above
      have names : (indexText i).toList < y.toList := by
        rw [chars, indexText_toList]
        exact .rel first
      exact names
    | index j => exact indexText_lt less j.isLt

end Segment

namespace Path

theorem empty_lt {text : String} (filled : text ≠ "") : "" < text := by
  have chars : [] < text.toList := by
    cases first : text.toList with
    | nil => exact absurd (String.toList_eq_nil_iff.mp first) filled
    | cons => exact .nil
  exact chars

theorem padded_lt_padded {p q : Path} (hp : p.Valid) (hq : q.Valid) {width : Nat}
    (fits : q.length ≤ width) (less : p < q) : p.padded width < q.padded width := by
  induction less generalizing width with
  | @nil s q =>
    obtain ⟨width, rfl⟩ := Nat.exists_eq_add_one_of_ne_zero (Nat.ne_zero_of_lt fits)
    rw [padded_cons]
    exact .rel (empty_lt (Segment.column_ne_empty (hq s (List.mem_cons_self ..))))
  | rel first =>
    rw [padded_cons, padded_cons]
    exact .rel (Segment.column_lt_column (hp _ (List.mem_cons_self ..))
      (hq _ (List.mem_cons_self ..)) first)
  | cons _ ih =>
    rw [padded_cons, padded_cons]
    exact .cons (ih (fun s hs => hp s (List.mem_cons_of_mem _ hs))
      (fun s hs => hq s (List.mem_cons_of_mem _ hs)) (Nat.le_sub_one_of_lt fits))

/-- A path that callers can write and the columns of a table can hold. -/
structure Stored (width : Nat) (p : Path) : Prop where
  valid : p.Valid
  fits : p.length ≤ width

theorem order_eq_columnOrder {width : Nat} {p q : Path} (hp : p.Stored width)
    (hq : q.Stored width) : p.order q = columnOrder (p.padded width) (q.padded width) := by
  rcases Std.lt_trichotomy p q with less | rfl | greater
  · rw [order, if_pos less]
    exact (columnOrder_of_lt (padded_lt_padded hp.valid hq.valid hq.fits less)).symm
  · rw [order, if_neg (List.lt_irrefl p), if_neg (List.lt_irrefl p)]
    exact (Std.ReflOrd.compare_self (α := List (List UInt8))).symm
  · rw [order, if_neg (List.lt_asymm greater), if_pos greater, columnOrder_swap,
      columnOrder_of_lt (padded_lt_padded hq.valid hp.valid hp.fits greater), Ordering.swap_lt]

@[simp] theorem padded_lt_padded_iff {width : Nat} {p q : Path} (hp : p.Stored width)
    (hq : q.Stored width) : p.padded width < q.padded width ↔ p < q := by
  refine ⟨fun columns => ?_, padded_lt_padded hp.valid hq.valid hq.fits⟩
  rcases Std.lt_trichotomy p q with less | same | greater
  · exact less
  · exact absurd (same ▸ columns) (List.lt_irrefl _)
  · exact absurd columns (List.lt_asymm (padded_lt_padded hq.valid hp.valid hp.fits greater))

theorem order_isLE (p q : Path) : (p.order q).isLE = !decide (q < p) := by
  rcases Std.lt_trichotomy p q with less | rfl | greater
  · simp [order, less, List.lt_asymm less]
  · simp [order, List.lt_irrefl p]
  · simp [order, greater, List.lt_asymm greater]

theorem lt_append {p rest : Path} (more : rest ≠ []) : p < p ++ rest := by
  induction p with
  | nil =>
    cases rest with
    | nil => exact absurd rfl more
    | cons => exact .nil
  | cons s p ih => exact .cons ih

@[simp] theorem append_lt_append_iff (base p q : Path) : base ++ p < base ++ q ↔ p < q := by
  induction base with
  | nil => rfl
  | cons s base ih => simpa [List.cons_lt_cons_iff] using ih

theorem lt_of_isAncestorOf {p q : Path} (above : p.isAncestorOf q = true) : p < q := by
  obtain ⟨⟨rest, rfl⟩, differ⟩ := (isAncestorOf_iff p q).mp above
  apply lt_append
  rintro rfl
  exact differ (List.append_nil p).symm

/-- What is below a path lies together. -/
theorem prefix_of_between {p a b c : Path} (ha : p <+: a) (hc : p <+: c) (hab : a ≤ b)
    (hbc : b ≤ c) : p <+: b := by
  obtain ⟨a, rfl⟩ := ha
  obtain ⟨c, rfl⟩ := hc
  induction p generalizing b with
  | nil => exact List.nil_prefix
  | cons s p ih =>
    cases b with
    | nil => exact absurd List.Lex.nil hab
    | cons t b =>
      rw [List.cons_append, List.cons_le_cons_iff] at hab hbc
      obtain first | ⟨rfl, hab⟩ := hab
      · obtain back | ⟨rfl, _⟩ := hbc
        · exact absurd back (Segment.lt_asymm first)
        · exact absurd first (Segment.lt_irrefl _)
      · obtain back | ⟨_, hbc⟩ := hbc
        · exact absurd back (Segment.lt_irrefl _)
        · exact List.cons_prefix_cons.mpr ⟨rfl, ih hab hbc⟩

@[simp] theorem order_eq_lt_iff (p q : Path) : p.order q = .lt ↔ p < q := by
  unfold order
  split
  · simp [*]
  · split <;> simp [*]

end Path

namespace Assembly

theorem below_ascending (base : Path) {cells : List Cell}
    (ascending : cells.Pairwise fun a b => a.path < b.path) :
    Sorted.Ascending (below base cells) :=
  pairwise_below (fun p q => (Path.append_lt_append_iff base p q).mp) Cell.path Cell.leaf ascending

theorem inOrder_eq_columns {width : Nat} {branch : Branch}
    (stored : ∀ entry ∈ branch, entry.1.Stored width) :
    inOrder branch = branch.mergeSort fun a b =>
      (columnOrder (a.1.padded width) (b.1.padded width)).isLE := by
  have same := List.map_mergeSort (f := id) (l := branch) (r := fun a b => !decide (b.1 < a.1))
    (s := fun a b => (columnOrder (a.1.padded width) (b.1.padded width)).isLE) fun a ha b hb => by
      rw [id, id, ← Path.order_eq_columnOrder (stored a ha) (stored b hb), Path.order_isLE]
  rw [List.map_id, List.map_id] at same
  exact same

end Assembly

namespace Table

theorem Reflects.paths_ascending {t : Table} {changes : List Mutation} (h : t.Reflects changes)
    {document : String} {width : Nat} {cells : List Cell}
    (stored : ∀ cell ∈ cells, cell.path.Stored width)
    (live : t.live document = cells.map (Cell.row width)) :
    cells.Pairwise fun a b => a.path < b.path := by
  have partition := h.partition document
  have segments : (t.live document).Pairwise fun a b => a.segments < b.segments := by
    refine List.pairwise_map.mpr (partition.ascending.imp_of_mem fun ha hb less => ?_)
    rwa [partition.keyed _ ha, partition.keyed _ hb] at less
  rw [live] at segments
  refine (List.pairwise_map.mp segments).imp_of_mem fun ha hb less => ?_
  exact (Path.padded_lt_padded_iff (stored _ ha) (stored _ hb)).mp less

end Table

theorem MatchQuery.remaining_stored {q : MatchQuery} {cells : List Cell} {width : Nat}
    (stored : ∀ cell ∈ cells, cell.path.Stored width) {place : Path}
    (there : place ∈ q.remaining cells) : place.Stored width := by
  have some : q.conditions ≠ [] := by
    intro none
    simp [remaining, none, Engine.common] at there
  obtain ⟨c, hc⟩ := List.exists_mem_of_ne_nil _ some
  obtain ⟨cell, member, rfl, _⟩ := ((mem_remaining some place).mp there).1 c hc
  obtain ⟨valid, fits⟩ := stored cell member
  refine ⟨fun s hs => valid s (List.dropLast_subset _ hs), ?_⟩
  simp only [Path.parent, List.length_dropLast]
  omega

/-- Paths compare as their columns do, byte by byte. So the rows of a document lie in the order in
which its leaves are assembled, and the places of a search come in the order of their columns. A
path comes before what is below it, and what is below it lies together. -/
theorem Path.order_of_columns (width : Nat) :
    (∀ p q : Path, p.Stored width → q.Stored width →
      p.order q = columnOrder (p.padded width) (q.padded width)) ∧
    (∀ name batches document cells, (∀ cell ∈ cells, cell.path.Stored width) →
      (MemoryStore.applyEach {} name batches).live name document = cells.map (Cell.row width) →
      cells.Pairwise (fun a b => a.path.order b.path = .lt) ∧
        ∀ base, Assembly.inOrder (Assembly.below base cells) = Assembly.below base cells) ∧
    (∀ branch : Assembly.Branch, (∀ entry ∈ branch, entry.1.Stored width) →
      Assembly.inOrder branch = branch.mergeSort fun a b =>
        (columnOrder (a.1.padded width) (b.1.padded width)).isLE) ∧
    (∀ (q : MatchQuery) (cells : List Cell), (∀ cell ∈ cells, cell.path.Stored width) →
      (q.remaining cells).Pairwise fun p q =>
        columnOrder (p.padded width) (q.padded width) = .lt) ∧
    (∀ p q : Path, p.isAncestorOf q = true → p.order q = .lt) ∧
    (∀ p a b c : Path, p <+: a → p <+: c → a ≤ b → b ≤ c → p <+: b) ∧
    IsStrictTotalOrder Segment (· < ·) := by
  refine ⟨fun p q => order_eq_columnOrder, ?_, fun _ => Assembly.inOrder_eq_columns, ?_,
    fun p q above => (order_eq_lt_iff p q).mpr (lt_of_isAncestorOf above),
    fun p a b c => prefix_of_between, ?_⟩
  · intro name batches document cells stored live
    obtain ⟨reflects, _⟩ := MemoryStore.applyEach_reflects {} name batches rfl Table.reflects_nil
    have ascending := reflects.paths_ascending stored live
    refine ⟨ascending.imp fun less => (order_eq_lt_iff _ _).mpr less, fun base => ?_⟩
    exact Assembly.inOrder_eq (.refl _) (Assembly.below_ascending base ascending)
  · intro q cells stored
    refine (q.remaining_ascending cells).imp_of_mem fun ha hb less => columnOrder_of_lt ?_
    exact (padded_lt_padded_iff (MatchQuery.remaining_stored stored ha)
      (MatchQuery.remaining_stored stored hb)).mpr less
  · exact { irrefl := Segment.lt_irrefl, trans := fun _ _ _ => Segment.lt_trans,
            trichotomous := Segment.lt_trichotomy }

def Sample.accentedNames : List Cell :=
  [⟨"d", [.field "a", .field "Zé"], .null, 5⟩,
    ⟨"d", [.field "a", Json.itemSegment 7], .emptyArray, 6⟩,
    ⟨"d", [.field "a", .field "été"], .bool true, 4⟩]

theorem Path.order_of_columns_accents :
    (∀ cell ∈ Sample.accentedNames, cell.path.Stored 2) ∧
      (MemoryStore.applyEach {} ⟨"k", "t"⟩
        (Sample.accentedNames.reverse.map fun cell => [.insert (cell.row 2)])).live ⟨"k", "t"⟩ "d" =
          Sample.accentedNames.map (Cell.row 2) ∧
      Sample.accentedNames.Pairwise (fun a b => a.path.order b.path = .lt) ∧
      columnOrder ["a", "[000007]"] ["a", "été"] = .lt ∧
      Path.order [.field "a"] [.field "a", .field "Zé"] = .lt ∧
      [.field "a"] <+: ([.field "a", .index 7] : Path) := by
  have stored : ∀ cell ∈ Sample.accentedNames, cell.path.Stored 2 := by
    simp only [Sample.accentedNames, List.forall_mem_cons]
    exact ⟨⟨Path.ofDotted_valid "a.Zé" rfl, by decide⟩,
      ⟨Path.ofDotted_valid "a.[000007]" rfl, by decide⟩,
      ⟨Path.ofDotted_valid "a.été" rfl, by decide⟩, List.forall_mem_nil _⟩
  have live : (MemoryStore.applyEach {} ⟨"k", "t"⟩
      (Sample.accentedNames.reverse.map fun cell => [.insert (cell.row 2)])).live ⟨"k", "t"⟩ "d" =
        Sample.accentedNames.map (Cell.row 2) := by decide
  obtain ⟨columns, rows, _, _, ancestors, between, _⟩ := Path.order_of_columns 2
  refine ⟨stored, live, (rows _ _ _ _ stored live).1, ?_, ancestors _ _ (by decide), ?_⟩
  · have place := columns [.field "a", .index 7] [.field "a", .field "été"]
      (stored ⟨"d", [.field "a", .index 7], .emptyArray, 6⟩ (.tail _ (.head _)))
      (stored ⟨"d", [.field "a", .field "été"], .bool true, 4⟩ (.tail _ (.tail _ (.head _))))
    exact place.symm.trans (by decide)
  · exact between [.field "a"] [.field "a", .field "Zé"] _ [.field "a", .field "été"]
      (List.prefix_append ..) (List.prefix_append ..) (by decide) (by decide)

end LeafStore
