import LeafStore.Engine
import LeafStore.PageToken
import LeafStore.Plan
/-!
Searches: the documents whose leaves a filter accepts, a page at a time in the order of their
ids. Where no condition narrows down the candidates the whole table is read; else the candidates
are the documents that every narrowing select finds, and each of them is read and checked.
-/
namespace LeafStore

structure Query where
  filter : Filter
  fields : Option Projection
  pageSize : Nat
  /-- The document that the page before this one ended with. -/
  after : Option String

namespace Query

def readToken (token : String) : Except FilterError String :=
  (PageToken.decode token).mapError .token

def resuming (filter : Filter) (fields : Option Projection) (pageSize : Nat)
    (token : Option String) : Except FilterError Query := do
  let after ← token.mapM readToken
  pure ⟨filter, fields, pageSize, after⟩

end Query

structure SearchPage where
  documents : List (String × Json)
  /-- The token of the last document, if more documents match. -/
  pageState : Option String

namespace SearchPage

def data (page : SearchPage) : Json := .ofMembers page.documents

/-- The page as it is sent: bare documents, or an envelope with the token. -/
def render (page : SearchPage) (raw : Bool) : Json :=
  if raw then page.data
  else .ofMembers [("pageState", .ofText? page.pageState), ("data", page.data)]

end SearchPage

structure Found where
  documents : List (String × Json) := []
  /-- A document was found that is not on the page any more. -/
  more : Bool := false

namespace Found

def offer (q : Query) (found : Found) (document : String) (cells : List Cell) :
    Except RowError Found :=
  if cells.isEmpty || !q.filter.accepts cells then .ok found
  else if found.documents.length = q.pageSize then .ok { found with more := true }
  else
    (Assembly.assemble Path.root q.fields cells).map fun json =>
      { found with documents := found.documents ++ [(document, json.getD (.object []))] }

def page (found : Found) : SearchPage where
  documents := found.documents
  pageState :=
    if found.more then found.documents.getLast?.map fun last => PageToken.encode last.1
    else none

end Found

structure Scan where
  found : Found := {}
  /-- The document whose rows are being read, with its leaves so far. -/
  current : Option (String × List Cell) := none

namespace Scan

def row (q : Query) (scan : Scan) (row : Row) : Except RowError Scan :=
  if scan.found.more then .ok scan
  else do
    let cell ← row.decode
    match scan.current with
    | none => pure { scan with current := some (cell.document, [cell]) }
    | some (document, cells) =>
      if document = cell.document then
        pure { scan with current := some (document, cells ++ [cell]) }
      else do
        let found ← scan.found.offer q document cells
        pure ⟨found, some (cell.document, [cell])⟩

def finish (q : Query) (scan : Scan) : Except RowError Found :=
  if scan.found.more then .ok scan.found
  else
    match scan.current with
    | none => .ok scan.found
    | some (document, cells) => scan.found.offer q document cells

end Scan

namespace Engine

variable {σ : Type}

def scanPages (e : Engine σ) (table : TableName) (q : Query) :
    (pages : Nat) → (resume : Option String) → Scan → Access σ Scan
  | 0, _, scan => pure scan
  | pages + 1, resume, scan => do
    let page ← e.readPage table { Select.scan with after := q.after } resume
    let scan ← Access.row (page.rows.foldlM (Scan.row q) scan)
    if scan.found.more then pure scan
    else
      match page.paging with
      | none => pure scan
      | some token => e.scanPages table q pages (some token) scan

def fullScan (e : Engine σ) (table : TableName) (q : Query) : Access σ Found := do
  let state ← get
  let scan ← e.scanPages table q (e.store.pageBound table state) none {}
  Access.row (scan.finish q)

def candidates (e : Engine σ) (table : TableName) (s : Select) : Access σ (List String) := do
  let rows ← e.readAll table s
  pure (Sorted.ofKeys (rows.map (·.document)))

def common {α : Type} [BEq α] : List (List α) → List α
  | [] => []
  | first :: others => first.filter fun key => others.all (·.contains key)

/-- Read and check candidates, until the page is full and one more was found. -/
def checkCandidates (e : Engine σ) (table : TableName) (q : Query) :
    List String → Found → Access σ Found
  | [], found => pure found
  | document :: rest, found => do
    let rows ← e.documentRows table document Path.root
    let cells ← decodeRows rows
    let found ← Access.row (found.offer q document cells)
    if found.more then pure found else e.checkCandidates table q rest found

def candidateSearch (e : Engine σ) (table : TableName) (q : Query) : Access σ Found := do
  let sets ← (q.filter.candidateSelects e.config.maxDepth).mapM (e.candidates table)
  let remaining := (common sets).filter fun document => q.after.all (· < document)
  e.checkCandidates table q remaining {}

def search (e : Engine σ) (table : TableName) (q : Query) : Access σ SearchPage := do
  let found ← if q.filter.isFullScan then e.fullScan table q else e.candidateSearch table q
  pure found.page

end Engine

end LeafStore
