import LeafStore.Assembly
import LeafStore.Config
import LeafStore.Store
/-!
Reading a store through its pages.
-/
namespace LeafStore

structure Engine (σ : Type) where
  store : RowStore σ
  config : Config

namespace Engine

variable {σ : Type}

def readPage (e : Engine σ) (table : TableName) (s : Select) (resume : Option String) :
    Access σ Table.Page :=
  Access.call
    (e.store.select table { s with pageSize := some e.config.storePageSize, paging := resume })

def readPages (e : Engine σ) (table : TableName) (s : Select) :
    (pages : Nat) → (resume : Option String) → Access σ (List Row)
  | 0, _ => pure []
  | pages + 1, resume => do
    let page ← e.readPage table s resume
    match page.paging with
    | none => pure page.rows
    | some token => do
      let rest ← e.readPages table s pages (some token)
      pure (page.rows ++ rest)

def readAll (e : Engine σ) (table : TableName) (s : Select) : Access σ (List Row) := do
  let state ← get
  e.readPages table s (e.store.pageBound table state) none

def documentRows (e : Engine σ) (table : TableName) (document : String) (path : Path) :
    Access σ (List Row) :=
  e.readAll table ((Select.ofDocument document).below path)

def decodeRows (rows : List Row) : Access σ (List Cell) :=
  Access.row (rows.mapM Row.decode)

end Engine

end LeafStore
