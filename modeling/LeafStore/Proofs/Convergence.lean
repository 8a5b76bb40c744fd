import LeafStore.Proofs.Entries
import LeafStore.Store
/-!
What a table holds is a function of the set of changes that have reached it. A row is live when
it was written, no change wrote its columns later, and every deletion that covers it is older.
-/
namespace LeafStore

structure Survives (changes : List Mutation) (row : Row) : Prop where
  written : .insert row ∈ changes
  newest : ∀ other, .insert other ∈ changes → other.document = row.document →
    other.segments = row.segments → other.writeTime ≤ row.writeTime
  undeleted : ∀ d, .delete d ∈ changes → d.document = row.document →
    d.covers row.segments = true → d.writeTime < row.writeTime

/-- Rows for one place written at one time are one row. -/
def Unambiguous (changes : List Mutation) : Prop :=
  ∀ a b, .insert a ∈ changes → .insert b ∈ changes → a.document = b.document →
    a.segments = b.segments → a.writeTime = b.writeTime → a = b

@[simp] theorem shadows_eq_false_iff (d : Deletion) (row : Row) :
    d.shadows row = false ↔ (d.covers row.segments = true → d.writeTime < row.writeTime) := by
  unfold Deletion.shadows
  cases d.covers row.segments <;> simp

theorem Deletion.not_shadows_later {d : Deletion} {old new : Row} (same : old.segments = new.segments)
    (earlier : old.writeTime ≤ new.writeTime) (old_kept : d.shadows old = false) :
    d.shadows new = false := by
  rw [shadows_eq_false_iff] at old_kept ⊢
  intro covered
  exact Int.lt_of_lt_of_le (old_kept (same ▸ covered)) earlier

namespace Partition

/-- A partition holds what the changes of its document, in any order, have left. -/
structure Reflects (p : Partition) (changes : List Mutation) : Prop where
  ascending : Sorted.Ascending p.rows
  keyed : ∀ entry ∈ p.rows, entry.1 = entry.2.segments
  deletions : ∀ d, d ∈ p.deletions ↔ .delete d ∈ changes
  written : ∀ entry ∈ p.rows, .insert entry.2 ∈ changes
  undeleted : ∀ entry ∈ p.rows, ∀ d ∈ p.deletions, d.shadows entry.2 = false
  /-- Every row written is deleted, or it is live, or a row as late is live in its place. -/
  complete : ∀ row, .insert row ∈ changes → (∀ d ∈ p.deletions, d.shadows row = false) →
    ∃ entry ∈ p.rows, entry.1 = row.segments ∧ row.writeTime ≤ entry.2.writeTime

theorem reflects_nil : Reflects {} [] where
  ascending := List.Pairwise.nil
  keyed := List.forall_mem_nil _
  deletions := by simp
  written := List.forall_mem_nil _
  undeleted := List.forall_mem_nil _
  complete := fun _ arrived => absurd arrived List.not_mem_nil

theorem refuses_eq_true_iff {p : Partition} (ascending : Sorted.Ascending p.rows) (row : Row) :
    p.refuses row = true ↔ (∃ d ∈ p.deletions, d.shadows row = true) ∨
      ∃ old, (row.segments, old) ∈ p.rows ∧ row.writeTime < old.writeTime := by
  simp only [refuses, Bool.or_eq_true, List.any_eq_true, Option.any_eq_true,
    ascending.lookup_eq_some_iff, decide_eq_true_eq]

theorem Reflects.insert {p : Partition} {changes : List Mutation} (h : p.Reflects changes)
    (row : Row) : (p.insert row).Reflects (changes ++ [.insert row]) := by
  have deletions : ∀ d, d ∈ p.deletions ↔ Mutation.delete d ∈ changes ++ [.insert row] := by
    simp [h.deletions]
  have older : ∀ other, Mutation.insert other ∈ changes ++ [.insert row] →
      .insert other ∈ changes ∨ other = row := by simp
  unfold Partition.insert
  split
  · rename_i refused
    refine ⟨h.ascending, h.keyed, deletions, ?_, h.undeleted, ?_⟩
    · intro entry he
      exact List.mem_append_left _ (h.written entry he)
    · intro other there kept
      rcases older other there with there | rfl
      · exact h.complete other there kept
      · rcases (refuses_eq_true_iff h.ascending other).mp refused with ⟨d, hd, hs⟩ | ⟨old, ho, ht⟩
        · exact absurd hs (by simp [kept d hd])
        · exact ⟨_, ho, rfl, Int.le_of_lt ht⟩
  · rename_i accepted
    rw [refuses_eq_true_iff h.ascending, not_or] at accepted
    have kept : ∀ d ∈ p.deletions, d.shadows row = false := fun d hd =>
      Bool.eq_false_iff.mpr fun hs => accepted.1 ⟨d, hd, hs⟩
    have member := Sorted.mem_insert h.ascending row.segments row
    refine ⟨Sorted.insert_ascending h.ascending _ _, ?_, deletions, ?_, ?_, ?_⟩
    · intro entry he
      rcases (member entry).mp he with rfl | he
      · rfl
      · exact h.keyed entry he.1
    · intro entry he
      rcases (member entry).mp he with rfl | he
      · simp
      · exact List.mem_append_left _ (h.written entry he.1)
    · intro entry he
      rcases (member entry).mp he with rfl | he
      · exact kept
      · exact h.undeleted entry he.1
    · intro other there otherKept
      have new : (row.segments, row) ∈ (p.overwrite row).rows := (member _).mpr (.inl rfl)
      rcases older other there with there | rfl
      · obtain ⟨entry, he, key, late⟩ := h.complete other there otherKept
        by_cases same : entry.1 = row.segments
        · -- The row in this place was replaced, so it was not later than the new one.
          have notLater : ¬ row.writeTime < entry.2.writeTime := fun less =>
            accepted.2 ⟨entry.2, same ▸ he, less⟩
          exact ⟨_, new, same.symm.trans key, Int.le_trans late (Int.not_lt.mp notLater)⟩
        · exact ⟨entry, (member entry).mpr (.inr ⟨he, same⟩), key, late⟩
      · exact ⟨_, new, rfl, Int.le_refl _⟩

theorem Reflects.delete {p : Partition} {changes : List Mutation} (h : p.Reflects changes)
    (d : Deletion) : (p.delete d).Reflects (changes ++ [.delete d]) := by
  have member : ∀ entry, entry ∈ (p.delete d).rows ↔
      entry ∈ p.rows ∧ d.shadows entry.2 = false := by simp [Partition.delete]
  refine ⟨h.ascending.filter _, ?_, ?_, ?_, ?_, ?_⟩
  · intro entry he
    exact h.keyed entry ((member entry).mp he).1
  · intro other
    simp [Partition.delete, h.deletions]
  · intro entry he
    exact List.mem_append_left _ (h.written entry ((member entry).mp he).1)
  · intro entry he other ho
    obtain ⟨live, kept⟩ := (member entry).mp he
    rcases List.mem_append.mp ho with ho | ho
    · exact h.undeleted entry live other ho
    · rw [List.mem_singleton.mp ho]
      exact kept
  · intro row there kept
    have before : .insert row ∈ changes := by simpa using there
    have keptBefore : ∀ other ∈ p.deletions, other.shadows row = false := fun other ho =>
      kept other (List.mem_append_left _ ho)
    obtain ⟨entry, he, key, late⟩ := h.complete row before keptBefore
    have same : row.segments = entry.2.segments := key.symm.trans (h.keyed entry he)
    have entryKept : d.shadows entry.2 = false :=
      Deletion.not_shadows_later same late (kept d List.mem_concat_self)
    exact ⟨entry, (member entry).mpr ⟨he, entryKept⟩, key, late⟩

theorem Reflects.change {p : Partition} {changes : List Mutation} (h : p.Reflects changes)
    (m : Mutation) : (p.change m).Reflects (changes ++ [m]) := by
  cases m with
  | insert row => exact h.insert row
  | delete d => exact h.delete d

theorem Reflects.newest {p : Partition} {changes : List Mutation} (h : p.Reflects changes)
    {entry : List String × Row} (live : entry ∈ p.rows) {other : Row}
    (written : .insert other ∈ changes) (same : other.segments = entry.2.segments) :
    other.writeTime ≤ entry.2.writeTime := by
  by_cases later : entry.2.writeTime ≤ other.writeTime
  · have kept : ∀ d ∈ p.deletions, d.shadows other = false := fun d hd =>
      Deletion.not_shadows_later same.symm later (h.undeleted entry live d hd)
    obtain ⟨found, hf, key, late⟩ := h.complete other written kept
    have one : found.2 = entry.2 := h.ascending.value_unique hf
      (by rw [key, same, ← h.keyed entry live]; exact live)
    exact one ▸ late
  · exact Int.le_of_lt (Int.not_le.mp later)

end Partition

namespace Table

structure Reflects (t : Table) (changes : List Mutation) : Prop where
  documents : Sorted.Ascending t
  partition : ∀ document,
    (t.partition document).Reflects (changes.filter (·.document = document))

theorem reflects_nil : Reflects [] [] := ⟨List.Pairwise.nil, fun _ => Partition.reflects_nil⟩

theorem partition_change_self {t : Table} (documents : Sorted.Ascending t) (m : Mutation) :
    (t.change m).partition m.document = (t.partition m.document).change m := by
  simp only [partition, change, Sorted.lookup_update_self documents, Option.getD_some]

theorem partition_change_of_ne {t : Table} (documents : Sorted.Ascending t) {m : Mutation}
    {document : String} (differ : document ≠ m.document) :
    (t.change m).partition document = t.partition document := by
  simp only [partition, change, Sorted.lookup_update_of_ne documents differ]

theorem Reflects.change {t : Table} {changes : List Mutation} (h : t.Reflects changes)
    (m : Mutation) : (t.change m).Reflects (changes ++ [m]) := by
  refine ⟨Sorted.update_ascending h.documents _ _ _, fun document => ?_⟩
  have before := h.partition document
  rw [List.filter_append]
  by_cases same : document = m.document
  · subst same
    simpa [partition_change_self h.documents] using before.change m
  · simpa [partition_change_of_ne h.documents same, Ne.symm same] using before

theorem Reflects.applyAll {t : Table} {changes : List Mutation} (h : t.Reflects changes)
    (more : List Mutation) : (t.applyAll more).Reflects (changes ++ more) := by
  induction more generalizing t changes with
  | nil => simpa [Table.applyAll] using h
  | cons m rest ih => simpa [Table.applyAll] using ih (h.change m)

theorem Reflects.ordered {t : Table} {changes : List Mutation} (h : t.Reflects changes) :
    t.Ordered := by
  refine ⟨h.documents, fun entry he => ?_⟩
  have found := (h.documents.lookup_eq_some_iff entry.1 entry.2).mpr he
  have same : t.partition entry.1 = entry.2 := by simp [Table.partition, found]
  exact same ▸ (h.partition entry.1).ascending

theorem Reflects.mem_rows {t : Table} {changes : List Mutation} (h : t.Reflects changes)
    {document : String} {entry : List String × Row}
    (live : entry ∈ (t.partition document).rows) :
    entry.1 = entry.2.segments ∧ entry.2.document = document ∧ Survives changes entry.2 := by
  have p := h.partition document
  have written := List.mem_filter.mp (p.written entry live)
  have here : entry.2.document = document := of_decide_eq_true written.2
  refine ⟨p.keyed entry live, here, written.1, ?_, ?_⟩
  · intro other there sameDocument same
    have mine : Mutation.insert other ∈ changes.filter (·.document = document) :=
      List.mem_filter.mpr ⟨there, by simp [Mutation.document, sameDocument, here]⟩
    exact p.newest live mine same
  · intro d there sameDocument
    have mine : d ∈ (t.partition document).deletions := (p.deletions d).mpr
      (List.mem_filter.mpr ⟨there, by simp [Mutation.document, sameDocument, here]⟩)
    exact (shadows_eq_false_iff d entry.2).mp (p.undeleted entry live d mine)

/-- A row that survives has its place, unless another row was written there at the same time. -/
theorem Reflects.rows_of_survives {t : Table} {changes : List Mutation} (h : t.Reflects changes)
    (unambiguous : Unambiguous changes) {row : Row} (survives : Survives changes row) :
    (row.segments, row) ∈ (t.partition row.document).rows := by
  have p := h.partition row.document
  have written : Mutation.insert row ∈ changes.filter (·.document = row.document) :=
    List.mem_filter.mpr ⟨survives.written, by simp [Mutation.document]⟩
  have kept : ∀ d ∈ (t.partition row.document).deletions, d.shadows row = false := by
    intro d hd
    have there := List.mem_filter.mp ((p.deletions d).mp hd)
    rw [shadows_eq_false_iff]
    exact survives.undeleted d there.1 (of_decide_eq_true there.2)
  obtain ⟨entry, live, key, late⟩ := p.complete row written kept
  obtain ⟨keyed, here, found⟩ := h.mem_rows live
  have place : entry.2.segments = row.segments := keyed.symm.trans key
  have early := survives.newest entry.2 found.written here place
  have one : entry.2 = row := unambiguous _ _ found.written survives.written here place
    (Int.le_antisymm early late)
  rw [← key, ← one, here]
  exact live

theorem Reflects.mem_live_iff {t : Table} {changes : List Mutation} (h : t.Reflects changes)
    (unambiguous : Unambiguous changes) (document : String) (row : Row) :
    row ∈ t.live document ↔ row.document = document ∧ Survives changes row := by
  constructor
  · intro live
    obtain ⟨entry, he, rfl⟩ := List.mem_map.mp live
    exact (h.mem_rows he).2
  · rintro ⟨rfl, survives⟩
    exact List.mem_map.mpr ⟨_, h.rows_of_survives unambiguous survives, rfl⟩

theorem Reflects.rows_eq {a b : Table} {first second : List Mutation} (ha : a.Reflects first)
    (hb : b.Reflects second) (same : ∀ m, m ∈ first ↔ m ∈ second)
    (unambiguous : Unambiguous first) (document : String) :
    (a.partition document).rows = (b.partition document).rows := by
  have unambiguous' : Unambiguous second := fun x y hx hy =>
    unambiguous x y ((same _).mpr hx) ((same _).mpr hy)
  have agree : ∀ row, Survives first row ↔ Survives second row := by
    intro row
    constructor
    · rintro ⟨written, newest, undeleted⟩
      exact ⟨(same _).mp written, fun other ho => newest other ((same _).mpr ho),
        fun d hd => undeleted d ((same _).mpr hd)⟩
    · rintro ⟨written, newest, undeleted⟩
      exact ⟨(same _).mpr written, fun other ho => newest other ((same _).mp ho),
        fun d hd => undeleted d ((same _).mp hd)⟩
  refine (ha.partition document).ascending.ext (hb.partition document).ascending ?_
  rintro ⟨columns, row⟩
  constructor
  · intro live
    obtain ⟨keyed, here, survives⟩ := ha.mem_rows live
    have there := hb.rows_of_survives unambiguous' ((agree row).mp survives)
    rwa [← keyed, here] at there
  · intro live
    obtain ⟨keyed, here, survives⟩ := hb.mem_rows live
    have there := ha.rows_of_survives unambiguous ((agree row).mpr survives)
    rwa [← keyed, here] at there

end Table

namespace MemoryStore

/-- The store after batches for one table, each applied by a call of its own. -/
def applyEach (store : MemoryStore) (name : TableName) (batches : List (List Mutation)) :
    MemoryStore :=
  batches.foldl (fun store batch => (apply name batch store).2) store

@[simp] theorem table_setTable (store : MemoryStore) (name : TableName) (t : Table) :
    (store.setTable name t).table name = t := by
  simp [table, setTable]

theorem apply_idle {store : MemoryStore} (idle : store.failure = none) (name : TableName)
    (batch : List Mutation) :
    ((apply name batch store).2).table name = (store.table name).applyAll batch ∧
      ((apply name batch store).2).failure = none := by
  simp only [apply, guarded, idle]
  exact ⟨table_setTable store name _, idle⟩

theorem applyEach_reflects (store : MemoryStore) (name : TableName)
    (batches : List (List Mutation)) (idle : store.failure = none) {changes : List Mutation}
    (h : (store.table name).Reflects changes) :
    ((store.applyEach name batches).table name).Reflects (changes ++ batches.flatten) ∧
      (store.applyEach name batches).failure = none := by
  induction batches generalizing store changes with
  | nil => simpa [applyEach] using ⟨h, idle⟩
  | cons batch rest ih =>
    obtain ⟨applied, quiet⟩ := apply_idle idle name batch
    have next := ih _ quiet (applied ▸ h.applyAll batch)
    simpa [applyEach] using next

/-- The order in which changes arrive, how they are grouped into batches and how often each of
them is repeated make no difference to what a table holds. -/
theorem applyEach_converges (name : TableName) (first second : List (List Mutation))
    (same : ∀ m, m ∈ first.flatten ↔ m ∈ second.flatten)
    (unambiguous : Unambiguous first.flatten) :
    (∀ document, (applyEach {} name first).live name document =
        (applyEach {} name second).live name document) ∧
      (∀ s, (select name s (applyEach {} name first)).1 =
        (select name s (applyEach {} name second)).1) ∧
      ∀ document row, row ∈ (applyEach {} name first).live name document ↔
        row.document = document ∧ Survives first.flatten row := by
  have empty : ((({} : MemoryStore).table name).Reflects []) := Table.reflects_nil
  obtain ⟨one, oneIdle⟩ := applyEach_reflects {} name first rfl empty
  obtain ⟨two, twoIdle⟩ := applyEach_reflects {} name second rfl empty
  have rows := one.rows_eq two same unambiguous
  refine ⟨fun document => ?_, fun s => ?_, one.mem_live_iff unambiguous⟩
  · simp only [live, Table.live, Partition.live, rows]
  · have entries := one.ordered.entries_ext two.ordered rows
    have page := Table.page_congr entries s
    simp only [select, guarded, oneIdle, twoIdle, page]
    split <;> rfl

/-- A row, a later row in its place and a deletion as late as the first, in two orders. -/
theorem applyEach_converges_reordered :
    ∃ (old new : Row) (d : Deletion), d.shadows old = true ∧
      (∀ document,
        (applyEach {} ⟨"k", "t"⟩ [[.insert old, .delete d], [.insert new]]).live ⟨"k", "t"⟩ document =
          (applyEach {} ⟨"k", "t"⟩ [[.insert new], [.delete d, .insert old, .insert new]]).live
            ⟨"k", "t"⟩ document) ∧
      new ∈ (applyEach {} ⟨"k", "t"⟩ [[.insert old, .delete d], [.insert new]]).live
        ⟨"k", "t"⟩ "a" := by
  let old := Row.ofColumns "a" ["x"] [.field "x"] .null 1
  let new := Row.ofColumns "a" ["x"] [.field "x"] (.bool true) 2
  let d : Deletion := ⟨"a", [], .subtree, 1⟩
  have same : ∀ m : Mutation, m ∈ [[.insert old, .delete d], [.insert new]].flatten ↔
      m ∈ [[.insert new], [.delete d, .insert old, .insert new]].flatten := by
    intro m
    simp only [List.flatten_cons, List.flatten_nil, List.cons_append, List.nil_append,
      List.mem_cons, List.not_mem_nil, or_false]
    grind
  have unambiguous : Unambiguous [[.insert old, .delete d], [.insert new]].flatten := by
    intro a b ha hb _ _ time
    simp only [List.flatten_cons, List.flatten_nil, List.cons_append, List.nil_append,
      List.mem_cons, List.not_mem_nil, or_false, Mutation.insert.injEq, reduceCtorEq,
      false_or] at ha hb
    rcases ha with rfl | rfl <;> rcases hb with rfl | rfl
    · rfl
    · exact absurd time (by decide)
    · exact absurd time (by decide)
    · rfl
  have converges := applyEach_converges ⟨"k", "t"⟩ _ _ same unambiguous
  exact ⟨old, new, d, by decide, converges.1, by decide⟩

end MemoryStore

end LeafStore
