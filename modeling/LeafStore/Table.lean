import LeafStore.Mutation
/-!
A document table as a value: the live rows of each document and the deletions in force. Writes
may arrive in any order; of two writes of one row the later write time wins.
-/
namespace LeafStore

structure Partition where
  /-- The live rows by their clustering columns, in ascending order. -/
  rows : List (List String × Row) := []
  /-- Every deletion that has arrived, in the order of arrival. -/
  deletions : List Deletion := []

namespace Partition

def live (p : Partition) : List Row := p.rows.map (·.2)

/-- A row is not accepted: it is deleted, or a later write is stored in its place. -/
def refuses (p : Partition) (row : Row) : Bool :=
  p.deletions.any (·.shadows row) ||
    (p.rows.lookup row.segments).any fun old => row.writeTime < old.writeTime

def overwrite (p : Partition) (row : Row) : Partition :=
  { p with rows := Sorted.insert row.segments row p.rows }

def insert (p : Partition) (row : Row) : Partition :=
  if p.refuses row then p else p.overwrite row

def delete (p : Partition) (d : Deletion) : Partition where
  rows := p.rows.filter fun entry => !d.shadows entry.2
  deletions := p.deletions ++ [d]

def change (m : Mutation) (p : Partition) : Partition :=
  match m with
  | .insert row => p.insert row
  | .delete d => p.delete d

end Partition

/-- The documents of a table by id, in ascending order. -/
abbrev Table := List (String × Partition)

namespace Table

def partition (t : Table) (document : String) : Partition :=
  (t.lookup document).getD {}

def live (t : Table) (document : String) : List Row :=
  (t.partition document).live

def rowCount (t : Table) : Nat :=
  (t.flatMap fun entry => entry.2.rows).length

def change (t : Table) (m : Mutation) : Table :=
  Sorted.update m.document {} (Partition.change m) t

def applyAll (t : Table) (mutations : List Mutation) : Table :=
  mutations.foldl change t

def overwrite (t : Table) (row : Row) : Table :=
  Sorted.update row.document {} (·.overwrite row) t

/-! Reading a page of a select. -/

abbrev Key := String × List String

def Key.isAfter (key other : Key) : Bool :=
  other.1 < key.1 || (other.1 = key.1 && other.2 < key.2)

def Key.token (key : Key) : String :=
  (Json.array [.text key.1, .array (key.2.map .text)]).compact

def texts? (items : List Json) : Option (List String) :=
  items.mapM fun | .text s => some s | _ => none

def Key.ofToken (token : String) : Except StoreError Key :=
  match Json.ofText .fields token with
  | .ok (.array [.text document, .array columns]) =>
    match texts? columns with
    | some columns => .ok (document, columns)
    | none => .error (.invalidQuery .malformedPaging)
  | _ => .error (.invalidQuery .malformedPaging)

def entries (t : Table) : List (Key × Row) :=
  t.flatMap fun (document, p) => p.rows.map fun (columns, row) => ((document, columns), row)

def documents (t : Table) (s : Select) : Table :=
  t.filter fun entry => s.document.all (· = entry.1) && s.after.all (· < entry.1)

def selected (t : Table) (s : Select) (resume : Option Key) : List (Key × Row) :=
  (t.documents s).entries.filter fun (key, row) => resume.all key.isAfter && s.accepts row

structure Page where
  rows : List Row
  paging : Option String

/-- The first rows of a list, at most as many as a page holds, and whether more follow. -/
def cut (s : Select) (found : List (Key × Row)) : Page :=
  match s.pageSize with
  | none => ⟨found.map fun entry => s.columnsOf entry.2, none⟩
  | some size =>
    let taken := found.take (max 1 size)
    ⟨taken.map fun entry => s.columnsOf entry.2,
      if taken.length < found.length then taken.getLast?.map fun entry => entry.1.token
      else none⟩

def page (t : Table) (s : Select) : Except StoreError Page := do
  let resume ← s.paging.mapM Key.ofToken
  pure (cut s (t.selected s resume))

end Table

end LeafStore
