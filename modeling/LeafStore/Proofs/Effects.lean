import LeafStore.Proofs.Histories
/-!
The effect of one write. A write that is later than all before it leaves the rows that its deletions
do not cover as they were, and adds its own.
-/
namespace LeafStore

namespace Path

/-- What a write at a path leaves alone: leaves neither below the path nor on the way to it, that
turn off the way with a segment of the kind that the way goes on with. -/
structure Spares (target q : Path) : Prop where
  notBelow : ¬ target <+: q
  notAbove : q.isAncestorOf target = false
  sameKind : ∀ place s t, place ++ [s] <+: target → place ++ [t] <+: q → s ≠ t →
    s.isIndex = t.isIndex

theorem isAncestorOf_iff (p q : Path) : p.isAncestorOf q = true ↔ p <+: q ∧ p ≠ q := by
  rw [isAncestorOf, Bool.and_eq_true, decide_eq_true_eq, List.isPrefixOf_iff_prefix]
  constructor
  · rintro ⟨shorter, leads⟩
    refine ⟨leads, fun same => ?_⟩
    subst same
    exact Nat.lt_irrefl _ shorter
  · rintro ⟨leads, differ⟩
    refine ⟨Nat.lt_of_le_of_ne leads.length_le fun length => ?_, leads⟩
    exact differ (leads.eq_of_length length)

theorem spares_iff (target q : Path) : target.Spares q ↔ target.Parts q := by
  rw [parts_iff]
  constructor
  · rintro ⟨notBelow, notAbove, sameKind⟩
    refine ⟨notBelow, fun above => ?_, fun place s t hs ht => ?_⟩
    · have differ : q ≠ target := fun same => notBelow (same ▸ List.prefix_refl q)
      rw [(isAncestorOf_iff q target).mpr ⟨above, differ⟩] at notAbove
      cases notAbove
    · by_cases same : s = t
      · exact congrArg Segment.isIndex same
      · exact sameKind place s t hs ht same
  · rintro ⟨notBelow, notAbove, kinds⟩
    refine ⟨notBelow, ?_, fun place s t hs ht _ => kinds place s t hs ht⟩
    exact Bool.eq_false_iff.mpr fun above => notAbove ((isAncestorOf_iff q target).mp above).1

end Path

namespace Partition

def changeAll (p : Partition) (changes : List Mutation) : Partition :=
  changes.foldl (fun p m => p.change m) p

@[simp] theorem changeAll_append (p : Partition) (first others : List Mutation) :
    p.changeAll (first ++ others) = (p.changeAll first).changeAll others := List.foldl_append

theorem changeAll_deletes (p : Partition) (deletions : List Deletion) :
    (p.changeAll (deletions.map .delete)).rows =
        p.rows.filter (fun entry => deletions.all fun d => !d.shadows entry.2) ∧
      (p.changeAll (deletions.map .delete)).deletions = p.deletions ++ deletions := by
  induction deletions generalizing p with
  | nil => exact ⟨(List.filter_eq_self.mpr fun _ _ => rfl).symm, (List.append_nil _).symm⟩
  | cons d rest ih =>
    obtain ⟨rows, all⟩ := ih (p.delete d)
    have step : p.changeAll ((d :: rest).map .delete) =
        (p.delete d).changeAll (rest.map .delete) := rfl
    rw [step, rows, all]
    simp [Partition.delete, List.filter_filter, Bool.and_comm]

/-- Rows at places that are free, and that no deletion shadows, are all stored. -/
theorem changeAll_inserts {p : Partition} (ascending : Sorted.Ascending p.rows) {rows : List Row}
    (apart : rows.Pairwise fun a b => a.segments ≠ b.segments)
    (kept : ∀ row ∈ rows, ∀ d ∈ p.deletions, d.shadows row = false)
    (free : ∀ row ∈ rows, ∀ entry ∈ p.rows, entry.1 ≠ row.segments) :
    Sorted.Ascending (p.changeAll (rows.map .insert)).rows ∧
      ∀ entry, entry ∈ (p.changeAll (rows.map .insert)).rows ↔
        entry ∈ p.rows ∨ ∃ row ∈ rows, entry = (row.segments, row) := by
  induction rows generalizing p with
  | nil => simpa [changeAll] using ascending
  | cons row rest ih =>
    have accepted : p.refuses row = false := by
      rw [Bool.eq_false_iff, Ne, refuses_eq_true_iff ascending]
      rintro (⟨d, hd, shadowed⟩ | ⟨old, stored, _⟩)
      · exact absurd shadowed (by simp [kept row (List.mem_cons_self ..) d hd])
      · exact free row (List.mem_cons_self ..) _ stored rfl
    have step : p.changeAll ((row :: rest).map .insert) =
        (p.overwrite row).changeAll (rest.map .insert) := by
      show (p.insert row).changeAll (rest.map .insert) = _
      rw [Partition.insert, accepted]
      rfl
    have member : ∀ entry, entry ∈ (p.overwrite row).rows ↔
        entry = (row.segments, row) ∨ entry ∈ p.rows := by
      intro entry
      refine (Sorted.mem_insert ascending row.segments row entry).trans ?_
      refine or_congr_right ⟨fun there => there.1, fun there => ⟨there, ?_⟩⟩
      exact free row (List.mem_cons_self ..) entry there
    -- What was just stored is at a place of its own, so the rows after it find theirs free.
    obtain ⟨sorted, members⟩ := ih (p := p.overwrite row)
      (Sorted.insert_ascending ascending _ _) apart.tail
      (fun other ho => kept other (List.mem_cons_of_mem _ ho)) fun other ho entry he => by
        rcases (member entry).mp he with rfl | he
        · exact List.rel_of_pairwise_cons apart ho
        · exact free other (List.mem_cons_of_mem _ ho) entry he
    rw [step]
    refine ⟨sorted, fun entry => ?_⟩
    rw [members, member]
    simp only [List.mem_cons, exists_eq_or_imp]
    grind

end Partition

namespace Table

theorem partition_applyAll {t : Table} (documents : Sorted.Ascending t) {changes : List Mutation}
    {document : String} (owned : ∀ m ∈ changes, m.document = document) :
    (t.applyAll changes).partition document = (t.partition document).changeAll changes ∧
      ∀ other, other ≠ document → (t.applyAll changes).partition other = t.partition other := by
  induction changes generalizing t with
  | nil => exact ⟨rfl, fun _ _ => rfl⟩
  | cons m rest ih =>
    have owner := owned m (List.mem_cons_self ..)
    obtain ⟨here, elsewhere⟩ := ih (t := t.change m)
      (Sorted.update_ascending documents _ _ _) fun other ho => owned other (List.mem_cons_of_mem _ ho)
    have step : t.applyAll (m :: rest) = (t.change m).applyAll rest := rfl
    rw [step, here]
    constructor
    · rw [← owner, partition_change_self documents]
      rfl
    · intro other differ
      rw [elsewhere other differ, partition_change_of_ne documents (owner ▸ differ)]

end Table

/-- A batch is later than all that has reached a partition before it. -/
structure Batch.Newest (b : Batch) (p : Partition) : Prop where
  rows : ∀ row ∈ p.live, row.writeTime < b.writeTime
  deletions : ∀ d ∈ p.deletions, d.writeTime < b.writeTime

/-- The deletions of a batch concern everything older, and none of its own rows. -/
structure Batch.Timely (b : Batch) : Prop where
  reach : ∀ d ∈ b.deletions, b.writeTime ≤ d.writeTime + 1
  spare : b.rows = [] ∨ ∀ d ∈ b.deletions, d.writeTime < b.writeTime

namespace Batch.Sound

variable {width : Nat} {b : Batch} {cells : List Cell}

theorem apart (h : b.Sound width cells) : b.rows.Pairwise fun a b => a.segments ≠ b.segments := by
  have parted := List.pairwise_map.mp ((Path.consistent_iff _).mp h.parted)
  rw [h.rows]
  refine List.pairwise_map.mpr (parted.imp_of_mem fun {x y} hx hy parts same => ?_)
  have one := Path.padded_inj (h.valid x hx) (h.valid y hy) width same
  exact parts.not_prefix (one ▸ List.prefix_refl _)

theorem rowTime (h : b.Sound width cells) : ∀ row ∈ b.rows, row.writeTime = b.writeTime := by
  intro row there
  rw [h.rows] at there
  obtain ⟨cell, hc, rfl⟩ := List.mem_map.mp there
  exact h.writeTime cell hc

theorem owner (h : b.Sound width cells) : ∀ m ∈ b.mutations, m.document = b.document := by
  intro m there
  rcases List.mem_append.mp there with there | there
  · obtain ⟨d, hd, rfl⟩ := List.mem_map.mp there
    exact h.owned d hd
  · obtain ⟨row, hr, rfl⟩ := List.mem_map.mp there
    rw [h.rows] at hr
    obtain ⟨cell, hc, rfl⟩ := List.mem_map.mp hr
    exact h.document cell hc

theorem clears_place (h : b.Sound width cells) {row : Row} (new : row ∈ b.rows) :
    ∃ d ∈ b.deletions, d.covers row.segments = true := by
  rw [h.rows] at new
  obtain ⟨cell, hc, rfl⟩ := List.mem_map.mp new
  have itself : ¬ cell.path.Parts cell.path := fun parts =>
    parts.not_prefix (List.prefix_refl _)
  obtain ⟨d, hd, _, covers⟩ := h.clears cell hc cell.path (h.valid cell hc) itself
  exact ⟨d, hd, covers⟩

/-- Applied last, a batch deletes just the rows that its deletions cover, and stores its own. -/
theorem mem_live (h : b.Sound width cells) (timely : b.Timely) {p : Partition}
    (ascending : Sorted.Ascending p.rows) (keyed : ∀ entry ∈ p.rows, entry.1 = entry.2.segments)
    (newest : b.Newest p) (row : Row) :
    row ∈ (p.changeAll b.mutations).live ↔
      row ∈ b.rows ∨ row ∈ p.live ∧ ∀ d ∈ b.deletions, d.covers row.segments = false := by
  obtain ⟨remaining, deletions⟩ := p.changeAll_deletes b.deletions
  -- The deletions are no older than any row there, so only the paths that they cover decide.
  have shadowed : ∀ old ∈ p.live, ∀ d ∈ b.deletions,
      d.shadows old = d.covers old.segments := by
    intro old live d hd
    have older : old.writeTime ≤ d.writeTime := by
      have before := newest.rows old live
      have reach := timely.reach d hd
      omega
    simp [Deletion.shadows, older]
  have kept : ∀ entry, entry ∈ (p.changeAll (b.deletions.map .delete)).rows ↔
      entry ∈ p.rows ∧ ∀ d ∈ b.deletions, d.covers entry.2.segments = false := by
    intro entry
    rw [remaining, List.mem_filter]
    refine and_congr_right fun there => ?_
    rw [List.all_eq_true]
    refine forall₂_congr fun d hd => ?_
    rw [shadowed entry.2 (List.mem_map.mpr ⟨entry, there, rfl⟩) d hd, Bool.not_eq_true']
  have free : ∀ new ∈ b.rows, ∀ entry ∈ (p.changeAll (b.deletions.map .delete)).rows,
      entry.1 ≠ new.segments := by
    intro new hn entry he same
    obtain ⟨there, uncovered⟩ := (kept entry).mp he
    obtain ⟨d, hd, covers⟩ := h.clears_place hn
    rw [← same, keyed entry there, uncovered d hd] at covers
    cases covers
  have accepted : ∀ new ∈ b.rows, ∀ d ∈ (p.changeAll (b.deletions.map .delete)).deletions,
      d.shadows new = false := by
    intro new hn d hd
    have earlier : d.writeTime < b.writeTime := by
      rw [deletions] at hd
      rcases List.mem_append.mp hd with hd | hd
      · exact newest.deletions d hd
      · rcases timely.spare with none | before
        · rw [none] at hn
          cases hn
        · exact before d hd
    exact (shadows_eq_false_iff d new).mpr fun _ => h.rowTime new hn ▸ earlier
  obtain ⟨_, members⟩ := Partition.changeAll_inserts (remaining ▸ ascending.filter _) h.apart
    accepted free
  rw [Batch.mutations, Partition.changeAll_append]
  constructor
  · intro live
    obtain ⟨entry, there, rfl⟩ := List.mem_map.mp live
    rcases (members entry).mp there with old | ⟨new, hn, rfl⟩
    · obtain ⟨stored, uncovered⟩ := (kept entry).mp old
      exact .inr ⟨List.mem_map.mpr ⟨entry, stored, rfl⟩, uncovered⟩
    · exact .inl hn
  · rintro (new | ⟨old, uncovered⟩)
    · exact List.mem_map.mpr ⟨_, (members _).mpr (.inr ⟨row, new, rfl⟩), rfl⟩
    · obtain ⟨entry, stored, rfl⟩ := List.mem_map.mp old
      have there := (members entry).mpr (.inl ((kept entry).mpr ⟨stored, uncovered⟩))
      exact List.mem_map.mpr ⟨entry, there, rfl⟩

end Batch.Sound

namespace Limits

variable {limits : Limits} {document : String} {path : Path} {time : Int} {batch : Batch}

theorem put_deletionTime {value : Json} {patching : Bool}
    (ok : limits.put document path value patching time = .ok batch) :
    batch.writeTime = time ∧ ∀ d ∈ batch.deletions, d.writeTime = deletionTime time := by
  obtain ⟨_, deletions, _, cleared, rfl⟩ := put_eq_ok ok
  refine ⟨rfl, fun d hd => ?_⟩
  rcases List.mem_append.mp hd with hd | hd
  · exact (targetDeletions_fields cleared d hd).2
  · exact (ancestorDeletions_fields document _ path d hd).2

theorem put_timely {value : Json} {patching : Bool} (late : earliestTime < time)
    (ok : limits.put document path value patching time = .ok batch) : batch.Timely := by
  obtain ⟨rfl, times⟩ := put_deletionTime ok
  refine ⟨fun d hd => times d hd ▸ deletionTime_late _, .inr fun d hd => ?_⟩
  rw [times d hd, deletionTime]
  omega

theorem delete_eq_ok (ok : limits.delete document path time = .ok batch) :
    batch = ⟨document, time, replacing document time path, []⟩ := by
  obtain ⟨_, _, ok⟩ := bind_eq_ok ok
  exact (Except.ok.inj ok).symm

theorem delete_timely (ok : limits.delete document path time = .ok batch) : batch.Timely := by
  rw [delete_eq_ok ok]
  refine ⟨fun d hd => ?_, .inl rfl⟩
  rw [List.mem_singleton.mp hd]
  exact Int.le_add_one (Int.le_refl time)

end Limits

namespace Service

variable {s : Service MemoryStore} {call : WriteCall} {batch : Batch}

theorem prepare_timely (late : Limits.earliestTime < call.time)
    (ok : s.prepare call = .ok batch) : batch.Timely := by
  rcases prepare_eq_ok ok with ⟨_, _, _, _, _, put⟩ | ⟨_, delete⟩
  · exact Limits.put_timely late put
  · exact Limits.delete_timely delete

theorem mutation_time (ok : s.prepare call = .ok batch) :
    ∀ m ∈ batch.mutations, m.writeTime ≤ max Limits.earliestTime call.time := by
  obtain ⟨_, time, cells, sound⟩ := s.prepare_sound ok
  have deletions : ∀ d ∈ batch.deletions, d.writeTime ≤ max Limits.earliestTime call.time := by
    intro d hd
    rcases prepare_eq_ok ok with ⟨_, _, _, _, _, put⟩ | ⟨_, delete⟩
    · rw [(Limits.put_deletionTime put).2 d hd, Limits.deletionTime]
      omega
    · rw [Limits.delete_eq_ok delete] at hd
      rw [List.mem_singleton.mp hd]
      exact Int.le_max_right _ _
  intro m there
  rcases List.mem_append.mp there with there | there
  · obtain ⟨d, hd, rfl⟩ := List.mem_map.mp there
    exact deletions d hd
  · obtain ⟨row, hr, rfl⟩ := List.mem_map.mp there
    show row.writeTime ≤ _
    rw [sound.rowTime row hr, time]
    exact Int.le_max_right _ _

theorem after_legible (memory : s.store = MemoryStore.rowStore) (writes : List WriteCall)
    (name : TableName) : ((s.after writes).table name).Legible s.config.maxDepth := by
  refine ((after_holds memory writes).tables name).legible fun b hb => ?_
  obtain ⟨_, _, _, prepared⟩ := mem_batches.mp hb
  exact (s.prepare_sound prepared).2.2

/-- A write that is prepared at a time later than all before it. -/
structure Latest (s : Service MemoryStore) (writes : List WriteCall) (call : WriteCall)
    (batch : Batch) : Prop where
  newest : ∀ earlier ∈ writes, earlier.time < call.time
  late : Limits.earliestTime < call.time
  prepared : s.prepare call = .ok batch

theorem Latest.newest_after (memory : s.store = MemoryStore.rowStore) {writes : List WriteCall}
    (h : s.Latest writes call batch) :
    batch.Newest (((s.after writes).table call.table).partition call.document) := by
  have p := ((after_holds memory writes).tables call.table).partition call.document
  have before : ∀ m ∈ (s.batches call.table writes).flatMap Batch.mutations,
      m.writeTime < batch.writeTime := by
    intro m there
    obtain ⟨old, ho, hm⟩ := List.mem_flatMap.mp there
    obtain ⟨earlier, he, _, prepared⟩ := mem_batches.mp ho
    have bound := mutation_time prepared m hm
    have less := h.newest earlier he
    have late := h.late
    rw [(s.prepare_sound h.prepared).2.1]
    omega
  constructor
  · intro row live
    obtain ⟨entry, stored, rfl⟩ := List.mem_map.mp live
    exact before _ (List.mem_filter.mp (p.written entry stored)).1
  · intro d hd
    exact before _ (List.mem_filter.mp ((p.deletions d).mp hd)).1

theorem Latest.live_after (memory : s.store = MemoryStore.rowStore) {writes : List WriteCall}
    (h : s.Latest writes call batch) (row : Row) :
    row ∈ (s.after (writes ++ [call])).live call.table call.document ↔
      row ∈ batch.rows ∨ row ∈ (s.after writes).live call.table call.document ∧
        ∀ d ∈ batch.deletions, d.covers row.segments = false := by
  obtain ⟨document, _, cells, sound⟩ := s.prepare_sound h.prepared
  have holds := after_holds memory writes
  have p := (holds.tables call.table).partition call.document
  have changed := (Table.partition_applyAll (holds.tables call.table).documents
    (document ▸ sound.owner)).1
  rw [after_append, run_write memory h.prepared holds.idle]
  show row ∈ ((_ : MemoryStore).table call.table).live call.document ↔ _
  rw [MemoryStore.table_applied, Table.live, changed]
  exact sound.mem_live (prepare_timely h.late h.prepared) p.ascending p.keyed
    (h.newest_after memory) row

theorem live_after_elsewhere (memory : s.store = MemoryStore.rowStore) (writes : List WriteCall)
    (call : WriteCall) {name : TableName} {document : String}
    (elsewhere : name ≠ call.table ∨ document ≠ call.document) :
    (s.after (writes ++ [call])).live name document = (s.after writes).live name document := by
  have holds := after_holds memory writes
  rw [after_append]
  cases prepared : s.prepare call with
  | error cause => rw [run_write_refused prepared]
  | ok batch =>
    obtain ⟨owner, _, cells, sound⟩ := s.prepare_sound prepared
    rw [run_write memory prepared holds.idle]
    by_cases same : name = call.table
    · subst same
      have differ := elsewhere.resolve_left fun none => none rfl
      have kept := (Table.partition_applyAll (holds.tables call.table).documents
        (owner ▸ sound.owner)).2 document differ
      simp only [MemoryStore.live, MemoryStore.table_applied, Table.live, kept]
    · simp only [MemoryStore.live, MemoryStore.table_applied_of_ne _ same]

theorem live_path_iff (memory : s.store = MemoryStore.rowStore) {writes : List WriteCall}
    {name : TableName} {document : String} {row : Row}
    (live : row ∈ (s.after writes).live name document) {P : List String → Prop} {Q : Path → Prop}
    (same : ∀ q : Path, q.Valid → (P (q.padded s.config.maxDepth) ↔ Q q)) :
    P row.segments ↔ ∃ q, Path.ofColumns row.segments = .ok q ∧ Q q := by
  obtain ⟨path, valid, columns⟩ := (after_legible memory writes name).mem_live live
  rw [columns, Path.ofColumns_padded valid, same path valid]
  constructor
  · exact fun holds => ⟨path, rfl, holds⟩
  · rintro ⟨q, read, holds⟩
    rwa [Except.ok.inj read]

theorem rows_below {value : Json} {patching : Bool}
    (put : s.config.limits.put call.document call.path value patching call.time = .ok batch) :
    ∀ row ∈ batch.rows, row.document = call.document ∧ row.writeTime = call.time ∧
      ∃ q, Path.ofColumns row.segments = .ok q ∧ call.path <+: q := by
  obtain ⟨rows, deletions, walked, _, rfl⟩ := Limits.put_eq_ok put
  have encodes := (Limits.rows_writes walked).encodes
  intro row there
  rw [encodes.rows] at there
  obtain ⟨cell, hc, rfl⟩ := List.mem_map.mp there
  have valid := encodes.cell_valid call.valid cell hc
  obtain ⟨entry, _, rfl⟩ := List.mem_map.mp hc
  exact ⟨rfl, rfl, _, Path.ofColumns_padded valid _, List.prefix_append _ _⟩

/-- A put that is later than all before it leaves its own rows and those beside its path, and a
deletion leaves those not below its path. Nothing else changes. -/
theorem write_effect (s : Service MemoryStore) (memory : s.store = MemoryStore.rowStore)
    (writes : List WriteCall) (call : WriteCall)
    (newest : ∀ earlier ∈ writes, earlier.time < call.time)
    (late : Limits.earliestTime < call.time) (answer : Int)
    (succeeds : ((s.write call).run.run (s.after writes)).1 = .ok answer) :
    ((s.after (writes ++ [call])).live call.table call.document).Pairwise
        (fun a b => a.segments < b.segments) ∧
      (∀ payload, call.action = .put payload → ∃ batch, s.prepare call = .ok batch ∧
        (∀ row ∈ batch.rows, row.document = call.document ∧ row.writeTime = call.time ∧
          ∃ q, Path.ofColumns row.segments = .ok q ∧ call.path <+: q) ∧
        ∀ row, row ∈ (s.after (writes ++ [call])).live call.table call.document ↔
          row ∈ batch.rows ∨ row ∈ (s.after writes).live call.table call.document ∧
            ∃ q, Path.ofColumns row.segments = .ok q ∧ call.path.Spares q) ∧
      (call.action = .delete →
        ∀ row, row ∈ (s.after (writes ++ [call])).live call.table call.document ↔
          row ∈ (s.after writes).live call.table call.document ∧
            ∃ q, Path.ofColumns row.segments = .ok q ∧ ¬ call.path <+: q) ∧
      ∀ name document, name ≠ call.table ∨ document ≠ call.document →
        (s.after (writes ++ [call])).live name document = (s.after writes).live name document := by
  obtain ⟨batch, prepared⟩ := prepared_of_write succeeds
  have live := Latest.live_after memory ⟨newest, late, prepared⟩
  refine ⟨(after_legible memory _ _).ascending _,
    fun payload action => ⟨batch, prepared, ?_⟩, fun action => ?_,
    fun name document => live_after_elsewhere memory writes call⟩
  · rcases prepare_eq_ok prepared with ⟨patching, _, value, change, _, put⟩ | ⟨none, _⟩
    · cases patching with
      | true =>
        rw [action] at change
        cases change
      | false =>
        refine ⟨rows_below put, fun row => (live row).trans ?_⟩
        refine or_congr_right (and_congr_right fun old => live_path_iff memory old
          (P := fun columns => ∀ d ∈ batch.deletions, d.covers columns = false) fun q valid => ?_)
        obtain ⟨_, _, _, cleared, rfl⟩ := Limits.put_eq_ok put
        cases cleared
        have covered := Limits.replacement_covers_iff call.document
          (Limits.deletionTime call.time) call.valid valid s.config.maxDepth
        rw [Path.spares_iff, ← Classical.not_not (a := Path.Parts _ _), ← covered]
        simp
    · rw [action] at none
      cases none
  · rcases prepare_eq_ok prepared with ⟨patching, _, _, change, _, _⟩ | ⟨_, delete⟩
    · rw [action] at change
      cases patching <;> cases change
    · intro row
      rw [live row, Limits.delete_eq_ok delete]
      simp only [List.not_mem_nil, false_or]
      refine and_congr_right fun old => live_path_iff memory old
        (P := fun columns => ∀ d ∈ Limits.replacing call.document call.time call.path,
          d.covers columns = false) fun q valid => ?_
      rw [← Limits.replacing_covers_iff call.document call.time call.valid valid s.config.maxDepth]
      simp

def Sample.arrayWritten : List WriteCall :=
  [⟨⟨"", ""⟩, ⟨"k", "t"⟩, "d", [], Path.valid_root,
    .put "\x7b\"a\":[true,null],\"b\":\"x\"\x7d", 4⟩]

def Sample.putBelowArray : WriteCall :=
  ⟨⟨"", ""⟩, ⟨"k", "t"⟩, "d", [.field "a", .field "c"],
    Path.ofDotted_valid "a.c" rfl, .put "false", 5⟩

/-- The items give way to the member, and the other member of the document stays. -/
theorem write_effect_named :
    ((sample.after (Sample.arrayWritten ++ [Sample.putBelowArray])).live ⟨"k", "t"⟩ "d").map
        (·.segments) = [["a", "c", ""], ["b", "", ""]] ∧
      ∃ batch, sample.prepare Sample.putBelowArray = .ok batch ∧
        ∀ row, row ∈ (sample.after (Sample.arrayWritten ++ [Sample.putBelowArray])).live
            ⟨"k", "t"⟩ "d" ↔
          row ∈ batch.rows ∨ row ∈ (sample.after Sample.arrayWritten).live ⟨"k", "t"⟩ "d" ∧
            ∃ q, Path.ofColumns row.segments = .ok q ∧
              Path.Spares [.field "a", .field "c"] q := by
  refine ⟨by decide +kernel, ?_⟩
  obtain ⟨_, puts, _⟩ := write_effect sample rfl Sample.arrayWritten Sample.putBelowArray (by decide)
    (by decide) 5 (eq_ok_of_toOption (by decide +kernel))
  obtain ⟨batch, prepared, _, live⟩ := puts "false" rfl
  exact ⟨batch, prepared, live⟩

end Service

end LeafStore
