import LeafStore.Proofs.Effects
import LeafStore.Proofs.Integrity
import LeafStore.Proofs.Members
import LeafStore.Proofs.Patterns
/-!
Answers of a get. Whatever a get asks for, its answer is a function of the rows below its path.
-/
namespace LeafStore

namespace Table

variable {width : Nat} {t : Table}

theorem Legible.valid_below (h : t.Legible width) (document : String) (path : Path) :
    ∀ cell ∈ (t.cells document).filter fun cell => path <+: cell.path, cell.path.Valid :=
  fun cell hc => h.valid document cell (List.mem_filter.mp hc).1

theorem Legible.live_below (h : t.Legible width) (document : String) {path : Path}
    (valid : path.Valid) :
    (t.live document).filter ((Select.ofDocument document).below path).accepts =
      ((t.cells document).filter fun cell => path <+: cell.path).map (Cell.row width) := by
  rw [h.rows document, List.filter_map]
  refine congrArg _ (List.filter_congr fun cell hc => ?_)
  rw [Bool.eq_iff_iff, decide_eq_true_eq, Function.comp_apply, Select.below_accepts_iff]
  have columns := Path.columns_prefix_padded_iff valid (h.valid document cell hc) width
  exact ⟨fun found => columns.mp found.2,
    fun leads => ⟨(h.about document cell hc).symm, columns.mpr leads⟩⟩

/-- The rows below a path assemble there to what all leaves of the document do. -/
theorem Legible.ofRows_below (h : t.Legible width) (document : String) {path : Path}
    (valid : path.Valid) (fields : Option Projection) :
    Assembly.ofRows path fields ((t.live document).filter
        ((Select.ofDocument document).below path).accepts) =
      Assembly.assemble path fields (t.cells document) := by
  rw [Assembly.ofRows, h.live_below document valid,
    Row.mapM_decode_rows (h.valid_below document path)]
  exact Assembly.assemble_congr (Assembly.below_filter fun _ _ leads => decide_eq_true leads) fields

end Table

namespace MatchQuery

def answer (q : MatchQuery) (rows : List Row) : Except Error MatchPage := do
  let cells ← (rows.mapM Row.decode).mapError .corruptRow
  (q.page cells).mapError .corruptRow

end MatchQuery

theorem Engine.reads_findMatches {e : Engine MemoryStore} (memory : e.store = MemoryStore.rowStore)
    {base : MemoryStore} {name : TableName} (ordered : (base.table name).Ordered)
    (document : String) (q : MatchQuery) :
    (e.findMatches name document q).Reads base
      (q.answer ((base.live name document).filter (q.select document).accepts)) := by
  obtain ⟨owner, after, columns, accepted⟩ := q.select_fields document
  refine (Engine.reads_select memory accepted ordered owner after columns).bind_ok ?_
  exact (Access.reads_ofExcept _).bind fun cells _ => Access.reads_ofExcept _

namespace Service

variable {s : Service MemoryStore} {base : MemoryStore} {name : TableName}

def answer (s : Service MemoryStore) (subject : Subject) (name : TableName) (document : String)
    (request : ReadRequest) (rows : List Row) : Except Error (Option DocumentResponse) := do
  let plan ← s.prepareRead subject name document request
  match plan with
  | .value path fields =>
    let data ← (Assembly.ofRows path fields rows).mapError .corruptRow
    pure (data.map fun data => ⟨document, none, data, latest rows⟩)
  | .matching q =>
    let page ← q.answer (rows.filter (q.select document).accepts)
    pure (if page.results.isEmpty then none
      else some ⟨document, page.pageState, .array page.results, none⟩)

/-- A get reads the value at its path, or it searches below its path for a filter that was read. -/
theorem prepareRead_eq_ok {subject : Subject} {document : String} {request : ReadRequest}
    {plan : ReadPlan} (ok : s.prepareRead subject name document request = .ok plan) :
    (∃ fields, plan = .value request.path fields) ∨ ∃ raw filter fields q,
      request.filter = some raw ∧ Filter.ofText s.config.maxDepth raw = .ok filter ∧
      MatchQuery.resuming request.path filter fields (s.config.pageSize request.pageSize)
        request.pageState = .ok q ∧ plan = .matching q := by
  obtain ⟨_, _, ok⟩ := bind_eq_ok ok
  obtain ⟨_, _, ok⟩ := bind_eq_ok ok
  obtain ⟨_, _, ok⟩ := bind_eq_ok ok
  obtain ⟨filter, read, ok⟩ := bind_eq_ok ok
  obtain ⟨fields, _, ok⟩ := bind_eq_ok ok
  unfold planRead at ok
  split at ok
  · rename_i condition conditions
    obtain ⟨q, resumed, rfl⟩ := map_eq_ok (mapError_eq_ok ok)
    refine .inr ?_
    cases raw : request.filter with
    | none =>
      rw [raw] at read
      cases read
    | some raw' =>
      rw [raw, readFilter, Option.mapM_some] at read
      obtain ⟨found, parsed, same⟩ := map_eq_ok read
      cases same
      exact ⟨raw', _, fields, q, rfl, mapError_eq_ok parsed, resumed, rfl⟩
  · cases ok
    exact .inl ⟨fields, rfl⟩

theorem prepareRead_unfiltered {subject : Subject} {document : String} {request : ReadRequest}
    (unfiltered : ∀ filter, s.readFilter request.filter = .ok (some filter) → filter = [])
    {plan : ReadPlan} (ok : s.prepareRead subject name document request = .ok plan) :
    ∃ fields, plan = .value request.path fields := by
  rcases prepareRead_eq_ok ok with value | ⟨raw, filter, _, _, asked, read, resumed, _⟩
  · exact value
  · refine absurd (unfiltered filter ?_) (MatchQuery.resuming_eq_ok resumed).1
    rw [asked, readFilter, Option.mapM_some, read]
    rfl

/-- A get answers from the rows below its path, and from nothing else. -/
theorem reads_answer (memory : s.store = MemoryStore.rowStore)
    (ordered : (base.table name).Ordered) (subject : Subject) (document : String)
    (request : ReadRequest) :
    (s.get subject name document request).Reads base
      (s.answer subject name document request ((base.live name document).filter
        ((Select.ofDocument document).below request.path).accepts)) := by
  refine (Access.reads_ofExcept _).bind fun plan prepared => ?_
  rcases prepareRead_eq_ok prepared with ⟨fields, rfl⟩ | ⟨_, filter, fields, q, _, parsed, resumed, rfl⟩
  · refine (Engine.reads_documentRows (e := s.engine) memory ordered document request.path).bind_ok ?_
    exact (Access.reads_ofExcept _).bind fun data _ => Access.reads_pure _
  · have narrower : ((base.live name document).filter
        ((Select.ofDocument document).below request.path).accepts).filter (q.select document).accepts =
          (base.live name document).filter (q.select document).accepts := by
      rw [List.filter_filter]
      refine List.filter_congr fun row _ => ?_
      cases found : (q.select document).accepts row with
      | false => rfl
      | true =>
        have steps := fun c hc => (Filter.ofText_ne_nil parsed c hc).1
        rw [MatchQuery.below_base resumed steps found]
        rfl
    show (s.readMatches name document q).Reads base _
    dsimp only
    rw [narrower]
    exact (Engine.reads_findMatches (e := s.engine) memory ordered document q).bind fun page _ =>
      Access.reads_pure _

theorem get_congr (memory : s.store = MemoryStore.rowStore) {a b : MemoryStore}
    (idle : a.failure = none) (idle' : b.failure = none) (ordered : (a.table name).Ordered)
    (ordered' : (b.table name).Ordered) (subject : Subject) {document : String}
    {request : ReadRequest}
    (same : (a.live name document).filter ((Select.ofDocument document).below request.path).accepts =
      (b.live name document).filter ((Select.ofDocument document).below request.path).accepts) :
    ((s.get subject name document request).run.run a).1 =
      ((s.get subject name document request).run.run b).1 := by
  rw [(reads_answer memory ordered subject document request).answer_eq idle, same,
    ← (reads_answer memory ordered' subject document request).answer_eq idle']

variable {subject : Subject} {document : String} {path : Path}

theorem get_path (memory : s.store = MemoryStore.rowStore) (idle : base.failure = none)
    (legible : (base.table name).Legible s.config.maxDepth) (valid : path.Valid) :
    ((s.get subject name document { path := path }).run.run base).1 =
      s.prepareRead subject name document { path := path } >>= fun _ =>
        ((Assembly.assemble path none ((base.table name).cells document)).mapError .corruptRow).map
          (·.map fun data => ⟨document, none, data, latest ((base.live name document).filter
            ((Select.ofDocument document).below path).accepts)⟩) := by
  rw [(reads_answer memory legible.ordered subject document { path := path }).answer_eq idle, answer]
  cases prepared : s.prepareRead subject name document { path := path } with
  | error cause => rfl
  | ok plan =>
    have plain : plan = .value path none := by
      obtain ⟨_, _, prepared⟩ := bind_eq_ok prepared
      obtain ⟨_, _, prepared⟩ := bind_eq_ok prepared
      obtain ⟨_, _, prepared⟩ := bind_eq_ok prepared
      cases prepared
      rfl
    rw [plain]
    show Except.bind _ _ = Except.map _ _
    rw [← legible.ofRows_below document valid none]
    rfl

end Service

end LeafStore
