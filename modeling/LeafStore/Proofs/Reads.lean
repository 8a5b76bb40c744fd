import LeafStore.Proofs.Entries
import LeafStore.Proofs.Token
import LeafStore.Engine
/-!
Reading the memory store. A select read page by page gives all its rows, each once and in order,
and leaves the tables as they are.
-/
namespace LeafStore

namespace Access

variable {base : MemoryStore} {α β : Type}

@[simp] theorem run_call {σ : Type} (request : σ → Except StoreError α × σ) (store : σ) :
    (call request).run.run store =
      ((request store).1.mapError Error.storeUnavailable, (request store).2) := rfl

@[simp] theorem run_row {σ : Type} (result : Except RowError α) (state : σ) :
    (row result : Access σ α).run.run state = (result.mapError .corruptRow, state) := rfl

theorem run_bind {σ : Type} (x : Access σ α) (f : α → Access σ β) (state : σ) :
    (x >>= f).run.run state =
      match x.run.run state with
      | (.ok a, next) => (f a).run.run next
      | (.error cause, next) => (.error cause, next) := by
  rw [ExceptT.run_bind, StateT.run_bind]
  rcases x.run.run state with ⟨_ | _, _⟩ <;> rfl

/-- A computation gives an answer in every state with the tables of a store, if no call is to fail,
and leaves the tables as they are. -/
def Reads (base : MemoryStore) (x : Access MemoryStore α) (answer : Except Error α) : Prop :=
  ∀ store : MemoryStore, store.tables = base.tables → store.failure = none →
    ∃ selects, (ExceptT.run x).run store = (answer, { store with selects := selects })

theorem reads_ofExcept (result : Except Error α) : (ofExcept result).Reads base result :=
  fun store _ _ => ⟨store.selects, rfl⟩

theorem reads_pure (a : α) : (pure a : Access MemoryStore α).Reads base (.ok a) :=
  fun store _ _ => ⟨store.selects, rfl⟩

theorem Reads.bind_ok {x : Access MemoryStore α} {f : α → Access MemoryStore β} {a : α}
    {answer : Except Error β} (hx : x.Reads base (.ok a)) (hf : (f a).Reads base answer) :
    (x >>= f).Reads base answer := by
  intro store same idle
  obtain ⟨selects, run⟩ := hx store same idle
  obtain ⟨others, next⟩ := hf { store with selects := selects } same idle
  refine ⟨others, ?_⟩
  rw [ExceptT.run_bind, StateT.run_bind, run]
  exact next

theorem Reads.bind_error {x : Access MemoryStore α} (f : α → Access MemoryStore β)
    {cause : Error} (hx : x.Reads base (.error cause)) : (x >>= f).Reads base (.error cause) := by
  intro store same idle
  obtain ⟨selects, run⟩ := hx store same idle
  refine ⟨selects, ?_⟩
  rw [ExceptT.run_bind, StateT.run_bind, run]
  rfl

theorem Reads.bind {x : Access MemoryStore α} {f : α → Access MemoryStore β}
    {answer : Except Error α} {next : α → Except Error β} (hx : x.Reads base answer)
    (hf : ∀ a, answer = .ok a → (f a).Reads base (next a)) :
    (x >>= f).Reads base (answer >>= next) := by
  cases answer with
  | error cause => exact hx.bind_error f
  | ok a => exact hx.bind_ok (hf a rfl)

theorem reads_mapM {f : α → Access MemoryStore β} {g : α → β} {items : List α}
    (each : ∀ item ∈ items, (f item).Reads base (.ok (g item))) :
    (items.mapM f).Reads base (.ok (items.map g)) := by
  induction items with
  | nil => exact reads_pure _
  | cons item rest ih =>
    rw [List.mapM_cons]
    exact (each item (List.mem_cons_self ..)).bind_ok
      ((ih fun other ho => each other (List.mem_cons_of_mem _ ho)).bind_ok (reads_pure _))

theorem Reads.congr {x : Access MemoryStore α} {a b : Except Error α} (h : x.Reads base a)
    (same : a = b) : x.Reads base b := same ▸ h

theorem Reads.answer_eq {x : Access MemoryStore α} {answer : Except Error α}
    (h : x.Reads base answer) (idle : base.failure = none) : (x.run.run base).1 = answer := by
  obtain ⟨selects, run⟩ := h base rfl idle
  exact congrArg Prod.fst run

theorem reads_get {f : MemoryStore → Access MemoryStore β} {answer : Except Error β}
    (h : ∀ state : MemoryStore, state.tables = base.tables → (f state).Reads base answer) :
    ((get : Access MemoryStore MemoryStore) >>= f).Reads base answer := by
  intro store same idle
  obtain ⟨selects, run⟩ := h store same store same idle
  exact ⟨selects, run⟩

end Access

theorem MemoryStore.table_congr {store base : MemoryStore} (same : store.tables = base.tables)
    (name : TableName) : store.table name = base.table name := by
  simp only [table, same]

namespace Table

theorem page_eq {t : Table} {s : Select} {resume : Option Key}
    (start : s.paging = resume.map Key.token) : t.page s = .ok (cut s (t.selected s resume)) := by
  cases resume with
  | none => simp only [page, start, Option.map_none, Option.mapM_none]; rfl
  | some key =>
    simp only [page, start, Option.map_some, Option.mapM_some, Key.ofToken_token]
    rfl

theorem selected_length (t : Table) (s : Select) (resume : Option Key) :
    (t.selected s resume).length ≤ t.rowCount := by
  have whole : t.entries.length = t.rowCount := by
    simp [entries, rowCount, List.length_flatMap]
  rw [selected_eq, ← whole]
  exact Nat.le_trans (List.length_filter_le ..) (List.length_filter_le ..)

end Table

namespace Select

/-- A statement that names a document and the first columns of its rows, and asks for nothing else. -/
structure Keyed (s : Select) : Prop where
  document : ∃ document, s.document = some document
  columns : ∃ columns : List String, s.segments = columns.zipIdx.map fun (column, position) =>
    ⟨position, .equals column⟩
  leaf : s.leaf = none
  value : s.value = none

theorem keyed_below (document : String) (path : Path) : ((ofDocument document).below path).Keyed :=
  ⟨⟨document, rfl⟩, ⟨path.columns, rfl⟩, rfl, rfl⟩

theorem Keyed.needsFiltering {s : Select} (h : s.Keyed) : s.needsFiltering = false := by
  obtain ⟨⟨document, owner⟩, ⟨columns, tests⟩, leaf, value⟩ := h
  have positions : s.segments.map (·.position) = List.range columns.length := by
    simp [tests, Function.comp_def, List.range_eq_range']
  have run : isLeadingRun (List.range columns.length) = true := by
    have sorted : (List.range columns.length).Pairwise fun a b => decide (a ≤ b) = true :=
      List.pairwise_le_range.imp fun le => decide_eq_true le
    simp [isLeadingRun, List.mergeSort_of_pairwise sorted]
  have equalities : s.segments.all (isEquality ·.test) = true := by
    rw [tests]
    refine List.all_eq_true.mpr fun test there => ?_
    obtain ⟨_, _, rfl⟩ := List.mem_map.mp there
    rfl
  simp [Select.needsFiltering, owner, leaf, value, equalities, positions, run]

end Select

namespace Engine

open Access (Reads)

variable {base : MemoryStore} {e : Engine MemoryStore} {name : TableName} {s : Select}

def Accepted (s : Select) : Prop := (s.needsFiltering && !s.allowFiltering) = false

theorem accepted_of_allowed (allowed : s.allowFiltering = true) : Accepted s := by
  simp [Accepted, allowed]

theorem select_accepted {q : Select} (accepted : Accepted q) {resume : Option Table.Key}
    (start : q.paging = resume.map Table.Key.token) (name : TableName) {store : MemoryStore}
    (idle : store.failure = none) :
    MemoryStore.select name q store = (.ok (Table.cut q ((store.table name).selected q resume)),
      { store with selects := store.selects ++ [q] }) := by
  have allowed : (q.needsFiltering && !q.allowFiltering) = false := accepted
  simp only [MemoryStore.select, MemoryStore.guarded, idle, allowed, Table.page_eq start]
  rfl

def pageOf (e : Engine MemoryStore) (s : Select) (resume : Option Table.Key) : Select :=
  { s with pageSize := some e.config.storePageSize, paging := resume.map Table.Key.token }

theorem reads_page (base : MemoryStore) (name : TableName)
    (memory : e.store = MemoryStore.rowStore) (accepted : Accepted s)
    (resume : Option Table.Key) :
    (e.readPage name s (resume.map Table.Key.token)).Reads base
      (.ok (Table.cut (e.pageOf s resume) ((base.table name).selected s resume))) := by
  intro store same idle
  have run := select_accepted (q := e.pageOf s resume) accepted rfl name idle
  rw [MemoryStore.table_congr same name] at run
  refine ⟨store.selects ++ [e.pageOf s resume], ?_⟩
  rw [readPage, memory]
  refine (Access.run_call (MemoryStore.select name (e.pageOf s resume)) store).trans ?_
  rw [run]
  rfl

/-- A select read to its end gives all rows that it is about. -/
theorem reads_pages (memory : e.store = MemoryStore.rowStore) (accepted : Accepted s)
    (ordered : (base.table name).Ordered) (pages : Nat) (resume : Option Table.Key)
    (enough : ((base.table name).selected s resume).length < pages) :
    (e.readPages name s pages (resume.map Table.Key.token)).Reads base
      (.ok (((base.table name).selected s resume).map fun entry => s.columnsOf entry.2)) := by
  induction pages generalizing resume with
  | zero => exact absurd enough (Nat.not_lt_zero _)
  | succ pages ih =>
    have page := reads_page base name memory accepted resume
    rcases Table.cut_cases (e.pageOf s resume) _ rfl ((base.table name).selected s resume) with
      all | ⟨first, last, rest, split, part⟩
    · rw [all] at page
      exact page.bind_ok (Access.reads_pure _)
    · have after := ordered.selected_after s resume split
      have fewer : ((base.table name).selected s (some last.1)).length < pages := by
        rw [split, List.length_append, List.length_cons] at enough
        rw [after]
        omega
      have others := ih (some last.1) fewer
      rw [part] at page
      rw [after] at others
      rw [readPages]
      refine page.bind_ok (Reads.bind_ok (x := e.readPages name s pages (some last.1.token))
        others ((Access.reads_pure _).congr ?_))
      rw [split]
      simp [pageOf, Select.columnsOf]

theorem enough_pages (memory : e.store = MemoryStore.rowStore) {state : MemoryStore}
    (same : state.tables = base.tables) (name : TableName) (s : Select) :
    ((base.table name).selected s none).length < e.store.pageBound name state := by
  have bound : e.store.pageBound name state = (base.table name).rowCount + 1 := by
    rw [← MemoryStore.table_congr same name, memory]
    rfl
  rw [bound]
  exact Nat.lt_succ_of_le (Table.selected_length ..)

theorem reads_all (memory : e.store = MemoryStore.rowStore) (accepted : Accepted s)
    (ordered : (base.table name).Ordered) :
    (e.readAll name s).Reads base
      (.ok (((base.table name).entries.filter (Table.answers s)).map fun entry =>
        s.columnsOf entry.2)) := by
  unfold readAll
  refine Access.reads_get fun state same => ?_
  refine (reads_pages memory accepted ordered _ none (enough_pages memory same name s)).congr ?_
  rw [Table.selected_eq, KeyOrder.past_none]

theorem accepted_below (document : String) (path : Path) :
    Accepted ((Select.ofDocument document).below path) := by
  simp [Accepted, (Select.keyed_below document path).needsFiltering]

theorem reads_select (memory : e.store = MemoryStore.rowStore) (accepted : Accepted s)
    (ordered : (base.table name).Ordered) {document : String} (about : s.document = some document)
    (first : s.after = none) (full : s.columns = .full) :
    (e.readAll name s).Reads base
      (.ok (((base.table name).live document).filter s.accepts)) := by
  refine (reads_all memory accepted ordered).congr (congrArg Except.ok ?_)
  have answers : (base.table name).entries.filter (Table.answers s) =
      ((base.table name).entries.filter fun entry => entry.1.1 = document).filter fun entry =>
        s.accepts entry.2 := by
    rw [List.filter_filter]
    refine List.filter_congr fun entry _ => ?_
    have same : (document = entry.1.1) = (entry.1.1 = document) := propext eq_comm
    simp [Table.answers, about, first, same, Bool.and_comm]
  have rows : (fun entry : Table.Key × Row => s.columnsOf entry.2) = (·.2) :=
    funext fun entry => Select.columnsOf_full full entry.2
  rw [answers, rows, ← ordered.entries_of_document document, List.filter_map]
  rfl

theorem reads_documentRows (memory : e.store = MemoryStore.rowStore)
    (ordered : (base.table name).Ordered) (document : String) (path : Path) :
    (e.documentRows name document path).Reads base
      (.ok (((base.table name).live document).filter
        ((Select.ofDocument document).below path).accepts)) :=
  reads_select memory (accepted_below document path) ordered rfl rfl rfl

end Engine

end LeafStore
