import LeafStore.Proofs.Reads
import LeafStore.Proofs.WellFormed
import LeafStore.Service
/-!
Histories of a store: writes that reach it one after the other, in any order of their write times.
-/
namespace LeafStore

inductive WriteAction where
  | put (payload : String)
  | patch (payload : String)
  | delete

def WriteAction.change (patching : Bool) (payload : String) : WriteAction :=
  if patching then .patch payload else .put payload

/-- A write as a caller asks for it, with the time that it is given. -/
structure WriteCall where
  subject : Subject
  table : TableName
  document : String
  path : Path
  valid : path.Valid
  action : WriteAction
  time : Int

/-- Writes of one time are one write, which may arrive more than once. -/
def DistinctTimes (calls : List WriteCall) : Prop :=
  ∀ a ∈ calls, ∀ b ∈ calls, a.time = b.time → a = b

theorem DistinctTimes.of_nodup {calls : List WriteCall} (h : (calls.map (·.time)).Nodup) :
    DistinctTimes calls := by
  have apart := List.pairwise_map.mp h
  have one : calls.Pairwise fun a b => a.time = b.time → a = b :=
    apart.imp fun differ same => absurd same differ
  have back : calls.Pairwise fun a b => b.time = a.time → b = a :=
    apart.imp fun differ same => absurd same.symm differ
  exact fun a ha b hb => one.forall_of_forall_of_flip (fun _ _ _ => rfl) back ha hb

namespace MemoryStore

def applied (store : MemoryStore) (name : TableName) (mutations : List Mutation) : MemoryStore :=
  { store.setTable name ((store.table name).applyAll mutations) with
    batches := store.batches ++ [mutations] }

theorem apply_eq {store : MemoryStore} (idle : store.failure = none) (name : TableName)
    (mutations : List Mutation) :
    apply name mutations store = (.ok (), store.applied name mutations) := by
  simp only [apply, guarded, idle, applied]

theorem call_apply {store : MemoryStore} (idle : store.failure = none) (name : TableName)
    (mutations : List Mutation) :
    (Access.call (rowStore.apply name mutations)).run.run store =
      (.ok (), store.applied name mutations) := by
  refine (Access.run_call (apply name mutations) store).trans ?_
  rw [apply_eq idle]
  rfl

@[simp] theorem table_applied (store : MemoryStore) (name : TableName) (mutations : List Mutation) :
    (store.applied name mutations).table name = (store.table name).applyAll mutations :=
  table_setTable store name _

@[simp] theorem table_applied_of_ne (store : MemoryStore) {name other : TableName}
    (differ : other ≠ name) (mutations : List Mutation) :
    (store.applied name mutations).table other = store.table other := by
  have kept : (store.tables.filter (·.1 ≠ name)).lookup other = store.tables.lookup other := by
    induction store.tables with
    | nil => rfl
    | cons first rest ih =>
      obtain ⟨id, table⟩ := first
      by_cases same : id = name
      · have skipped : (other == id) = false := by simpa [same] using differ
        rw [List.filter_cons_of_neg (by simpa using same), List.lookup_cons, skipped]
        exact ih
      · simp only [same, List.filter_cons, ne_eq, not_false_eq_true, decide_true, if_true,
          List.lookup_cons, ih]
  have first : (other == name) = false := by simpa using differ
  simp only [table, applied, setTable, List.lookup_cons, first, kept]

end MemoryStore

namespace Service

variable {σ : Type}

def write (s : Service σ) (call : WriteCall) : Access σ Int :=
  match call.action with
  | .put payload => s.put call.subject call.table call.document call.path payload call.time
  | .patch payload => s.patch call.subject call.table call.document call.path payload call.time
  | .delete => s.delete call.subject call.table call.document call.path call.time

/-- The changes that a write asks for, if it is not refused. -/
def prepare (s : Service σ) (call : WriteCall) : Except Error Batch :=
  match call.action with
  | .put payload =>
    s.prepareChange call.subject call.table call.document call.path payload false call.time
  | .patch payload =>
    s.prepareChange call.subject call.table call.document call.path payload true call.time
  | .delete => s.prepareDelete call.subject call.table call.document call.path call.time

theorem write_eq (s : Service σ) (call : WriteCall) :
    s.write call = Access.ofExcept (s.prepare call) >>= s.applyBatch call.table := by
  obtain ⟨subject, table, document, path, valid, action, time⟩ := call
  cases action <;> rfl

theorem prepare_eq_ok {s : Service σ} {call : WriteCall} {batch : Batch}
    (ok : s.prepare call = .ok batch) :
    (∃ patching payload value, call.action = .change patching payload ∧
      Json.ofText .document payload = .ok value ∧
      s.config.limits.put call.document call.path value patching call.time = .ok batch) ∨
    call.action = .delete ∧
      s.config.limits.delete call.document call.path call.time = .ok batch := by
  have change : ∀ payload patching, s.prepareChange call.subject call.table call.document call.path
      payload patching call.time = .ok batch → ∃ value, Json.ofText .document payload = .ok value ∧
        s.config.limits.put call.document call.path value patching call.time = .ok batch := by
    intro payload patching ok
    obtain ⟨_, _, ok⟩ := bind_eq_ok ok
    obtain ⟨_, _, ok⟩ := bind_eq_ok ok
    obtain ⟨_, _, ok⟩ := bind_eq_ok ok
    obtain ⟨value, read, ok⟩ := bind_eq_ok ok
    exact ⟨value, mapError_eq_ok read, ok⟩
  obtain ⟨subject, table, document, path, valid, action, time⟩ := call
  cases action with
  | put payload => exact .inl ⟨false, payload, (change payload false ok).imp fun _ h => ⟨rfl, h⟩⟩
  | patch payload => exact .inl ⟨true, payload, (change payload true ok).imp fun _ h => ⟨rfl, h⟩⟩
  | delete =>
    obtain ⟨_, _, ok⟩ := bind_eq_ok ok
    obtain ⟨_, _, ok⟩ := bind_eq_ok ok
    exact .inr ⟨rfl, mapError_eq_ok ok⟩

/-- A write that is not refused is sound, and is made at the time that it was given. -/
theorem prepare_sound (s : Service σ) {call : WriteCall} {batch : Batch}
    (ok : s.prepare call = .ok batch) : batch.document = call.document ∧
      batch.writeTime = call.time ∧ ∃ cells, batch.Sound s.config.maxDepth cells := by
  rcases prepare_eq_ok ok with ⟨_, _, value, _, read, put⟩ | ⟨_, delete⟩
  · exact Limits.put_sound call.valid (Json.ofText_canonical read) put
  · exact Limits.delete_sound delete

def batches (s : Service σ) (name : TableName) (calls : List WriteCall) : List Batch :=
  calls.filterMap fun call => if call.table = name then (s.prepare call).toOption else none

theorem mem_batches {s : Service σ} {name : TableName} {calls : List WriteCall} {batch : Batch} :
    batch ∈ s.batches name calls ↔
      ∃ call ∈ calls, call.table = name ∧ s.prepare call = .ok batch := by
  unfold batches
  rw [List.mem_filterMap]
  refine exists_congr fun call => and_congr_right fun _ => ?_
  split
  · rename_i same
    cases s.prepare call <;> simp [Except.toOption, same]
  · rename_i other
    simp [other]

/-- The state that writes leave, each applied to the state that the one before it left. -/
def after (s : Service MemoryStore) (calls : List WriteCall) : MemoryStore :=
  calls.foldl (fun store call => ((s.write call).run.run store).2) {}

@[simp] theorem after_append (s : Service MemoryStore) (calls : List WriteCall) (call : WriteCall) :
    s.after (calls ++ [call]) = ((s.write call).run.run (s.after calls)).2 := by
  rw [after, List.foldl_append]
  rfl

theorem run_write_refused {s : Service MemoryStore} {call : WriteCall} {cause : Error}
    (refused : s.prepare call = .error cause) (store : MemoryStore) :
    (s.write call).run.run store = (.error cause, store) := by
  rw [write_eq, refused]
  rfl

theorem prepared_of_write {s : Service MemoryStore} {call : WriteCall} {store : MemoryStore}
    {answer : Int} (succeeds : ((s.write call).run.run store).1 = .ok answer) :
    ∃ batch, s.prepare call = .ok batch := by
  cases prepared : s.prepare call with
  | ok batch => exact ⟨batch, rfl⟩
  | error cause =>
    rw [run_write_refused prepared] at succeeds
    cases succeeds

theorem run_write {s : Service MemoryStore} (memory : s.store = MemoryStore.rowStore)
    {call : WriteCall} {batch : Batch} (prepared : s.prepare call = .ok batch)
    {store : MemoryStore} (idle : store.failure = none) :
    (s.write call).run.run store =
      (.ok batch.writeTime, store.applied call.table batch.mutations) := by
  rw [write_eq, prepared]
  show (s.applyBatch call.table batch).run.run store = _
  rw [applyBatch, memory, ExceptT.run_bind, StateT.run_bind, MemoryStore.call_apply idle]
  rfl

/-- Each table of a store holds what the writes of the table have left. -/
structure Holds (s : Service MemoryStore) (calls : List WriteCall) (store : MemoryStore) : Prop where
  idle : store.failure = none
  tables : ∀ name, (store.table name).Reflects ((s.batches name calls).flatMap Batch.mutations)

theorem Holds.write {s : Service MemoryStore} (memory : s.store = MemoryStore.rowStore)
    {calls : List WriteCall} {store : MemoryStore} (h : s.Holds calls store) (call : WriteCall) :
    s.Holds (calls ++ [call]) ((s.write call).run.run store).2 := by
  have more : ∀ name, s.batches name (calls ++ [call]) =
      s.batches name calls ++ s.batches name [call] := fun name => List.filterMap_append
  cases prepared : s.prepare call with
  | error cause =>
    rw [run_write_refused prepared]
    refine ⟨h.idle, fun name => ?_⟩
    have none : s.batches name [call] = [] := by
      simp [batches, prepared, Except.toOption]
    rw [more, none, List.append_nil]
    exact h.tables name
  | ok batch =>
    rw [run_write memory prepared h.idle]
    refine ⟨h.idle, fun name => ?_⟩
    rw [more, List.flatMap_append]
    by_cases same : call.table = name
    · subst same
      have one : s.batches call.table [call] = [batch] := by
        simp [batches, prepared, Except.toOption]
      rw [one, List.flatMap_singleton, MemoryStore.table_applied]
      exact (h.tables call.table).applyAll batch.mutations
    · have none : s.batches name [call] = [] := by simp [batches, same]
      rw [none, List.flatMap_nil, List.append_nil,
        MemoryStore.table_applied_of_ne store (Ne.symm same)]
      exact h.tables name

def writeAll (s : Service MemoryStore) (calls : List WriteCall) (store : MemoryStore) : MemoryStore :=
  calls.foldl (fun store call => ((s.write call).run.run store).2) store

theorem Holds.writeAll {s : Service MemoryStore} (memory : s.store = MemoryStore.rowStore)
    {before : List WriteCall} {store : MemoryStore} (h : s.Holds before store)
    (calls : List WriteCall) : s.Holds (before ++ calls) (s.writeAll calls store) := by
  induction calls generalizing before store with
  | nil => rwa [List.append_nil]
  | cons call rest ih =>
    have next := ih (h.write memory call)
    rwa [List.append_assoc] at next

/-- Every history leaves in each table what its writes have left. -/
theorem after_holds {s : Service MemoryStore} (memory : s.store = MemoryStore.rowStore)
    (calls : List WriteCall) : s.Holds calls (s.after calls) := by
  have start : s.Holds [] {} := ⟨rfl, fun _ => Table.reflects_nil⟩
  exact start.writeAll memory calls

theorem Holds.wellFormed {s : Service MemoryStore} {calls : List WriteCall} {store : MemoryStore}
    (h : s.Holds calls store) (distinct : DistinctTimes calls) (name : TableName) :
    (store.table name).WellFormed s.config.maxDepth := by
  refine (h.tables name).wellFormed ?_ ?_
  · intro batch there
    obtain ⟨call, _, _, prepared⟩ := mem_batches.mp there
    exact (s.prepare_sound prepared).2.2
  · intro a ha b hb same
    obtain ⟨first, hf, _, preparedA⟩ := mem_batches.mp ha
    obtain ⟨second, hs, _, preparedB⟩ := mem_batches.mp hb
    have timeA := (s.prepare_sound preparedA).2.1
    have timeB := (s.prepare_sound preparedB).2.1
    have one : first = second := distinct first hf second hs (timeA ▸ timeB ▸ same)
    rw [one, preparedB] at preparedA
    exact (Except.ok.inj preparedA).symm

/-- After writes at distinct times every table is well-formed. -/
theorem after_wellFormed {s : Service MemoryStore} (memory : s.store = MemoryStore.rowStore)
    {calls : List WriteCall} (distinct : DistinctTimes calls) (name : TableName) :
    ((s.after calls).table name).WellFormed s.config.maxDepth :=
  (after_holds memory calls).wellFormed distinct name

/-- A memory store that is open to everybody, with narrow tables and one row on a page. -/
def sample : Service MemoryStore :=
  ⟨MemoryStore.rowStore, .allowAll, { maxDepth := 3, storePageSize := 1 }, rfl⟩

end Service

end LeafStore
