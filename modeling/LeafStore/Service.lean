import LeafStore.Authorizer
import LeafStore.Matches
import LeafStore.Write
/-!
The document service. Each request is authorized, then checked, and only then reaches the
store: what a request asks of the store is prepared first, without the store, and all errors of
the caller arise there.
-/
namespace LeafStore

structure Service (σ : Type) where
  store : RowStore σ
  authorizer : Authorizer
  config : Config
  config_valid : config.validate = .ok ()

structure ReadRequest where
  path : Path := Path.root
  /-- A filter on paths below the path of the request. -/
  filter : Option String := none
  fields : Option String := none
  pageSize : Option Nat := none
  pageState : Option String := none

structure SearchRequest where
  filter : Option String := none
  fields : Option String := none
  pageSize : Option Nat := none
  pageState : Option String := none

structure DocumentResponse where
  document : String
  pageState : Option String
  data : Json
  writeTime : Option Int

namespace DocumentResponse

def toJson (r : DocumentResponse) : Json :=
  .ofMembers
    ([("documentId", .text r.document), ("pageState", .ofText? r.pageState), ("data", r.data)] ++
      (r.writeTime.map fun time => ("writeTime", Json.int time)).toList)

/-- The response as it is sent: bare data, or an envelope with the id and the token. -/
def render (r : DocumentResponse) (raw : Bool) : Json :=
  if raw then r.data
  else
    .ofMembers
      [("documentId", .text r.document), ("pageState", .ofText? r.pageState), ("data", r.data)]

end DocumentResponse

inductive ReadPlan where
  | value (path : Path) (fields : Option Projection)
  | matching (query : MatchQuery)

namespace Service

variable {σ : Type}

def create (store : RowStore σ) (authorizer : Authorizer) (config : Config) :
    Except Error (Service σ) :=
  match valid : config.validate with
  | .ok () => .ok ⟨store, authorizer, config, valid⟩
  | .error cause => .error (.invalidDocument (.config cause))

def engine (s : Service σ) : Engine σ := ⟨s.store, s.config⟩

/-! Requests are prepared without the store. -/

def checkDocument (document : String) : Except Error Unit :=
  if document.isEmpty then .error (.invalidPath .emptyDocumentId) else .ok ()

def checkRead (s : Service σ) (subject : Subject) (table : TableName) : Except Error Unit :=
  (s.authorizer.read subject table).mapError .unauthorized

def checkWrite (s : Service σ) (subject : Subject) (table : TableName) (scope : WriteScope) :
    Except Error Unit :=
  (s.authorizer.write subject table scope).mapError .unauthorized

def readFilter (s : Service σ) (raw : Option String) : Except Error (Option Filter) :=
  raw.mapM fun raw => (Filter.ofText s.config.maxDepth raw).mapError .invalidFilter

def readFields : Option String → Except Error (Option Projection)
  | none => .ok none
  | some raw => (Projection.ofText raw).mapError .invalidFilter

def prepareChange (s : Service σ) (subject : Subject) (table : TableName) (document : String)
    (path : Path) (payload : String) (patching : Bool) (now : Int) : Except Error Batch := do
  s.checkWrite subject table .delete
  s.checkWrite subject table .modify
  checkDocument document
  let value ← (Json.ofText .document payload).mapError fun fault => .invalidDocument (.text fault)
  s.config.limits.put document path value patching now

def prepareDelete (s : Service σ) (subject : Subject) (table : TableName) (document : String)
    (path : Path) (now : Int) : Except Error Batch := do
  s.checkWrite subject table .delete
  checkDocument document
  (s.config.limits.delete document path now).mapError .invalidPath

/-- What is to be read for a filter. The empty filter asks for the whole value. -/
def planRead (s : Service σ) (request : ReadRequest) (filter : Option Filter)
    (fields : Option Projection) : Except Error ReadPlan :=
  match filter with
  | some (condition :: conditions) =>
    ((MatchQuery.resuming request.path (condition :: conditions) fields
      (s.config.pageSize request.pageSize) request.pageState).map .matching).mapError
        .invalidFilter
  | _ => .ok (.value request.path fields)

def prepareRead (s : Service σ) (subject : Subject) (table : TableName) (document : String)
    (request : ReadRequest) : Except Error ReadPlan := do
  s.checkRead subject table
  checkDocument document
  (request.path.checkDepth s.config.maxDepth).mapError .invalidPath
  let filter ← s.readFilter request.filter
  let fields ← readFields request.fields
  s.planRead request filter fields

def prepareSearch (s : Service σ) (subject : Subject) (table : TableName)
    (request : SearchRequest) : Except Error Query := do
  s.checkRead subject table
  let filter ← s.readFilter request.filter
  let fields ← readFields request.fields
  (Query.resuming (filter.getD []) fields (s.config.pageSize request.pageSize)
    request.pageState).mapError .invalidFilter

def prepareTimes (s : Service σ) (subject : Subject) (table : TableName)
    (document : String) : Except Error Unit := do
  s.checkRead subject table
  checkDocument document

/-! Prepared requests are carried out. -/

def applyBatch (s : Service σ) (table : TableName) (batch : Batch) : Access σ Int := do
  Access.call (s.store.apply table batch.mutations)
  pure batch.writeTime

def latest (rows : List Row) : Option Int :=
  (rows.map (·.writeTime)).max?

def readValue (s : Service σ) (table : TableName) (document : String) (path : Path)
    (fields : Option Projection) : Access σ (Option DocumentResponse) := do
  let rows ← s.engine.documentRows table document path
  let data ← Access.row (Assembly.ofRows path fields rows)
  pure (data.map fun data => ⟨document, none, data, latest rows⟩)

def readMatches (s : Service σ) (table : TableName) (document : String) (q : MatchQuery) :
    Access σ (Option DocumentResponse) := do
  let page ← s.engine.findMatches table document q
  pure (if page.results.isEmpty then none
    else some ⟨document, page.pageState, .array page.results, none⟩)

/-! Requests. -/

def put (s : Service σ) (subject : Subject) (table : TableName) (document : String)
    (path : Path) (payload : String) (now : Int) : Access σ Int := do
  let batch ← Access.ofExcept (s.prepareChange subject table document path payload false now)
  s.applyBatch table batch

def patch (s : Service σ) (subject : Subject) (table : TableName) (document : String)
    (path : Path) (payload : String) (now : Int) : Access σ Int := do
  let batch ← Access.ofExcept (s.prepareChange subject table document path payload true now)
  s.applyBatch table batch

def delete (s : Service σ) (subject : Subject) (table : TableName) (document : String)
    (path : Path) (now : Int) : Access σ Int := do
  let batch ← Access.ofExcept (s.prepareDelete subject table document path now)
  s.applyBatch table batch

def get (s : Service σ) (subject : Subject) (table : TableName) (document : String)
    (request : ReadRequest) : Access σ (Option DocumentResponse) := do
  let plan ← Access.ofExcept (s.prepareRead subject table document request)
  match plan with
  | .value path fields => s.readValue table document path fields
  | .matching q => s.readMatches table document q

def search (s : Service σ) (subject : Subject) (table : TableName) (request : SearchRequest) :
    Access σ SearchPage := do
  let q ← Access.ofExcept (s.prepareSearch subject table request)
  s.engine.search table q

def searchFrom (s : Service σ) (subject : Subject) (table : TableName)
    (request : SearchRequest) : (pages : Nat) → (token : Option String) →
    Access σ (List SearchPage)
  | 0, _ => pure []
  | pages + 1, token => do
    let page ← s.search subject table { request with pageState := token }
    match page.pageState with
    | none => pure [page]
    | some next => do
      let rest ← s.searchFrom subject table request pages (some next)
      pure (page :: rest)

def searchPages (s : Service σ) (subject : Subject) (table : TableName)
    (request : SearchRequest) : Access σ (List SearchPage) := do
  let state ← MonadState.get
  s.searchFrom subject table request (s.store.pageBound table state) request.pageState

def searchAll (s : Service σ) (subject : Subject) (table : TableName)
    (request : SearchRequest) : Access σ (List (String × Json)) := do
  let pages ← s.searchPages subject table request
  pure (pages.flatMap (·.documents))

def timesByPath (cells : List Cell) : List (String × Int) :=
  Sorted.ofPairs (cells.map fun cell => (cell.path.dotted, cell.writeTime))

def writeTimes (s : Service σ) (subject : Subject) (table : TableName) (document : String)
    (path : Path) : Access σ (List (String × Int)) := do
  Access.ofExcept (s.prepareTimes subject table document)
  let rows ← s.engine.documentRows table document path
  let cells ← Engine.decodeRows rows
  pure (timesByPath cells)

def explain (s : Service σ) (raw : String) : Except Error Json :=
  ((Filter.ofText s.config.maxDepth raw).map (Filter.explain s.config.maxDepth)).mapError
    .invalidFilter

end Service

end LeafStore
