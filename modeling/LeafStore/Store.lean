import LeafStore.Table
/-!
Row stores. A store answers selects one page at a time and applies batches of changes; its state
is a value. The memory store holds its tables in that value, with a log of what it executed.
-/
namespace LeafStore

/-- What the engine asks of a store whose states are `σ`. A batch is applied as a whole or not at
all. -/
structure RowStore (σ : Type) where
  select : TableName → Select → σ → Except StoreError Table.Page × σ
  apply : TableName → List Mutation → σ → Except StoreError Unit × σ
  /-- More pages than any select of the table can have from this state on. -/
  pageBound : TableName → σ → Nat

abbrev Access (σ : Type) := ExceptT Error (StateM σ)

namespace Access

variable {σ α : Type}

def call (request : σ → Except StoreError α × σ) : Access σ α :=
  ExceptT.mk fun state =>
    let (answer, state) := request state
    (answer.mapError Error.storeUnavailable, state)

def ofExcept (result : Except Error α) : Access σ α :=
  ExceptT.mk (pure result)

def path (result : Except PathError α) : Access σ α :=
  ofExcept (result.mapError .invalidPath)

def filter (result : Except FilterError α) : Access σ α :=
  ofExcept (result.mapError .invalidFilter)

def row (result : Except RowError α) : Access σ α :=
  ofExcept (result.mapError .corruptRow)

end Access

structure MemoryStore where
  tables : List (TableName × Table) := []
  selects : List Select := []
  batches : List (List Mutation) := []
  failure : Option StoreError := none

namespace MemoryStore

def table (store : MemoryStore) (name : TableName) : Table :=
  (store.tables.lookup name).getD []

def setTable (store : MemoryStore) (name : TableName) (table : Table) : MemoryStore :=
  { store with tables := (name, table) :: store.tables.filter (·.1 ≠ name) }

def live (store : MemoryStore) (name : TableName) (document : String) : List Row :=
  (store.table name).live document

/-- Write a row past every deletion and without a batch. -/
def overwrite (store : MemoryStore) (name : TableName) (row : Row) : MemoryStore :=
  store.setTable name ((store.table name).overwrite row)

def failNext (store : MemoryStore) (error : StoreError) : MemoryStore :=
  { store with failure := some error }

def clearLog (store : MemoryStore) : MemoryStore :=
  { store with selects := [], batches := [] }

def guarded {α : Type} (store : MemoryStore)
    (run : Except StoreError α × MemoryStore) : Except StoreError α × MemoryStore :=
  match store.failure with
  | some error => (.error error, { store with failure := none })
  | none => run

/-- One page of a select. The statement is logged once it is accepted. -/
def select (name : TableName) (s : Select) (store : MemoryStore) :
    Except StoreError Table.Page × MemoryStore :=
  store.guarded <|
    if s.needsFiltering && !s.allowFiltering then
      (.error (.invalidQuery .needsFiltering), store)
    else ((store.table name).page s, { store with selects := store.selects ++ [s] })

def apply (name : TableName) (mutations : List Mutation) (store : MemoryStore) :
    Except StoreError Unit × MemoryStore :=
  store.guarded
    (.ok (),
      { store.setTable name ((store.table name).applyAll mutations) with
        batches := store.batches ++ [mutations] })

/-- The memory store as the engine sees it. Each page of a select but the last holds a row. -/
def rowStore : RowStore MemoryStore where
  select := select
  apply := apply
  pageBound name store := (store.table name).rowCount + 1

end MemoryStore

end LeafStore
