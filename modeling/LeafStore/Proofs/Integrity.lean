import LeafStore.Proofs.Histories
import LeafStore.Proofs.Searches
import LeafStore.Proofs.Serving
/-!
Stored rows never contradict each other. Whatever writes have reached a store, in whatever order of
their times, every document can be read.
-/
namespace LeafStore

namespace Error

/-- The answer does not complain about stored rows. -/
def Spares {α : Type} (answer : Except Error α) : Prop :=
  ∀ cause, answer ≠ .error (.corruptRow cause)

variable {α β : Type}

theorem spares_ok (a : α) : Spares (.ok a) := fun _ same => by cases same

def Fair (answer : Except Error α) : Prop :=
  ∀ cause, answer = .error cause → cause.isClient = true

theorem fair_ok (a : α) : Fair (.ok a) := fun _ failed => by cases failed

theorem Fair.bind {x : Except Error α} {f : α → Except Error β} (hx : Fair x)
    (hf : ∀ a, Fair (f a)) : Fair (x >>= f) := by
  cases x with
  | ok a => exact hf a
  | error cause =>
    intro other same
    cases same
    exact hx cause rfl

theorem fair_mapError {ε : Type} {wrap : ε → Error} (client : ∀ e, (wrap e).isClient = true)
    (x : Except ε α) : Fair (x.mapError wrap) := by
  intro cause failed
  obtain ⟨e, -, rfl⟩ := mapError_eq_error failed
  exact client e

theorem Fair.map {x : Except Error α} (hx : Fair x) (f : α → β) : Fair (x.map f) := by
  cases x with
  | ok a => exact fair_ok _
  | error cause => exact fun _ same => by cases same; exact hx cause rfl

theorem Fair.spares {answer : Except Error α} (h : Fair answer) : Spares answer := by
  intro row same
  cases h _ same

end Error

open Error (Spares spares_ok Fair fair_ok fair_mapError)

namespace Access

variable {base : MemoryStore} {α β : Type}

def ReadsFine (base : MemoryStore) (x : Access MemoryStore α) : Prop :=
  ∃ answer, x.Reads base answer ∧ Spares answer

theorem Reads.fine {x : Access MemoryStore α} {a : α} (h : x.Reads base (.ok a)) :
    x.ReadsFine base := ⟨_, h, spares_ok a⟩

theorem Reads.bind_fine {x : Access MemoryStore α} {f : α → Access MemoryStore β} {a : α}
    (hx : x.Reads base (.ok a)) (hf : (f a).ReadsFine base) : (x >>= f).ReadsFine base := by
  obtain ⟨answer, reads, spares⟩ := hf
  exact ⟨answer, hx.bind_ok reads, spares⟩

theorem ofExcept_bind_fine {x : Except Error α} {f : α → Access MemoryStore β} (hx : Spares x)
    (hf : ∀ a, (f a).ReadsFine base) : (ofExcept x >>= f).ReadsFine base := by
  cases x with
  | ok a => exact (reads_ofExcept (.ok a)).bind_fine (hf a)
  | error cause =>
    refine ⟨.error cause, (reads_ofExcept _).bind_error f, fun row same => ?_⟩
    cases same
    exact hx row rfl

theorem ReadsFine.spares {x : Access MemoryStore α} (h : x.ReadsFine base)
    (idle : base.failure = none) (cause : RowError) :
    (x.run.run base).1 ≠ .error (.corruptRow cause) := by
  obtain ⟨answer, reads, spares⟩ := h
  rw [reads.answer_eq idle]
  exact spares cause

end Access

theorem Path.Consistent.filter {cells : List Cell}
    (h : Path.Consistent (cells.map (·.path))) (keep : Cell → Bool) :
    Path.Consistent ((cells.filter keep).map (·.path)) :=
  h.sublist (List.filter_sublist.map _)

namespace MatchQuery

theorem page_ok (q : MatchQuery) {cells : List Cell}
    (consistent : Path.Consistent (cells.map (·.path))) : ∃ page, q.page cells = .ok page := by
  obtain ⟨results, assembled⟩ := exists_mapM_eq_ok (f := q.result cells)
    ((q.remaining cells).take q.pageSize) fun place _ => by
      obtain ⟨json, assembled⟩ := Assembly.assemble_ok q.base none
        (consistent.filter (q.selects place))
      exact ⟨json.getD (.object []), by rw [result, assembled]; rfl⟩
  exact ⟨_, by rw [page, assembled]; rfl⟩

theorem narrow_fields (c : Condition) (s : Select) :
    (narrow c s).document = s.document ∧ (narrow c s).after = s.after ∧
      (narrow c s).columns = s.columns := by
  unfold narrow
  cases c.pattern.lastColumn? <;> cases c.pushdown? <;> exact ⟨rfl, rfl, rfl⟩

theorem select_fields (q : MatchQuery) (document : String) :
    (q.select document).document = some document ∧ (q.select document).after = none ∧
      (q.select document).columns = .full ∧ Engine.Accepted (q.select document) := by
  have accepted := (q.select_granted document).accepted
  have fields : (q.select document).document = some document ∧ (q.select document).after = none ∧
      (q.select document).columns = .full := by
    unfold select
    split
    · exact narrow_fields ..
    · exact ⟨rfl, rfl, rfl⟩
  exact ⟨fields.1, fields.2.1, fields.2.2, accepted⟩

end MatchQuery

theorem Engine.reads_decode {base : MemoryStore} {name : TableName} {width : Nat}
    (wellFormed : (base.table name).WellFormed width) (document : String) (accepts : Row → Bool) :
    (decodeRows (((base.table name).live document).filter accepts)).Reads base
      (.ok (((base.table name).cells document).filter (accepts ∘ Cell.row width))) := by
  rw [decodeRows, wellFormed.decode_filter]
  exact Access.reads_ofExcept _

namespace Service

/-! Requests are refused for what the caller asks. -/

section Prepared

variable {σ : Type}

theorem checkRead_fair (s : Service σ) (subject : Subject) (name : TableName) :
    Fair (s.checkRead subject name) := fair_mapError (fun _ => rfl) _

theorem checkWrite_fair (s : Service σ) (subject : Subject) (name : TableName) (scope : WriteScope) :
    Fair (s.checkWrite subject name scope) := fair_mapError (fun _ => rfl) _

theorem checkDocument_fair (document : String) : Fair (checkDocument document) := by
  unfold checkDocument
  split
  · intro _ refused
    cases refused
    rfl
  · exact fair_ok _

theorem readFilter_fair (s : Service σ) (raw : Option String) : Fair (s.readFilter raw) := by
  cases raw with
  | none => exact fair_ok _
  | some raw =>
    rw [readFilter, Option.mapM_some]
    exact Fair.bind (fair_mapError (fun _ => rfl) _) fun _ => fair_ok _

theorem readFields_fair (raw : Option String) : Fair (readFields raw) := by
  cases raw with
  | none => exact fair_ok _
  | some raw => exact fair_mapError (fun _ => rfl) _

theorem planRead_fair (s : Service σ) (request : ReadRequest) (filter : Option Filter)
    (fields : Option Projection) : Fair (s.planRead request filter fields) := by
  unfold planRead
  split
  · exact fair_mapError (fun _ => rfl) _
  · exact fair_ok _

theorem prepareRead_fair (s : Service σ) (subject : Subject) (name : TableName)
    (document : String) (request : ReadRequest) :
    Fair (s.prepareRead subject name document request) :=
  (s.checkRead_fair subject name).bind fun _ =>
    (checkDocument_fair document).bind fun _ =>
      Fair.bind (fair_mapError (fun _ => rfl) _) fun _ =>
        (s.readFilter_fair _).bind fun filter =>
          (readFields_fair _).bind fun fields => s.planRead_fair request filter fields

theorem prepareSearch_fair (s : Service σ) (subject : Subject) (name : TableName)
    (request : SearchRequest) : Fair (s.prepareSearch subject name request) :=
  (s.checkRead_fair subject name).bind fun _ =>
    (s.readFilter_fair _).bind fun _ =>
      (readFields_fair _).bind fun _ => fair_mapError (fun _ => rfl) _

theorem prepareTimes_fair (s : Service σ) (subject : Subject) (name : TableName)
    (document : String) : Fair (s.prepareTimes subject name document) :=
  (s.checkRead_fair subject name).bind fun _ => checkDocument_fair document

end Prepared

variable {s : Service MemoryStore} {base : MemoryStore} {name : TableName}

/-! Requests of well-formed tables are answered. -/

theorem readValue_fine (memory : s.store = MemoryStore.rowStore)
    (wellFormed : (base.table name).WellFormed s.config.maxDepth) (document : String) (path : Path)
    (fields : Option Projection) : (s.readValue name document path fields).ReadsFine base := by
  have rows := Engine.reads_documentRows (e := s.engine) memory wellFormed.ordered document path
  refine rows.bind_fine ?_
  obtain ⟨json, assembled⟩ := Assembly.assemble_ok path fields
    ((wellFormed.consistent document).filter
      (((Select.ofDocument document).below path).accepts ∘ Cell.row s.config.maxDepth))
  have value : Assembly.ofRows path fields (((base.table name).live document).filter
      ((Select.ofDocument document).below path).accepts) = .ok json := by
    rw [Assembly.ofRows, wellFormed.decode_filter]
    exact assembled
  rw [value]
  exact (Access.reads_ofExcept (.ok json)).bind_fine (Access.reads_pure _).fine

theorem readMatches_fine (memory : s.store = MemoryStore.rowStore)
    (wellFormed : (base.table name).WellFormed s.config.maxDepth) (document : String)
    (q : MatchQuery) : (s.readMatches name document q).ReadsFine base := by
  obtain ⟨owner, after, columns, accepted⟩ := q.select_fields document
  have rows := Engine.reads_select (e := s.engine) memory accepted
    wellFormed.ordered owner after columns
  obtain ⟨page, answered⟩ := q.page_ok ((wellFormed.consistent document).filter
    ((q.select document).accepts ∘ Cell.row s.config.maxDepth))
  have cells := Engine.reads_decode wellFormed document (q.select document).accepts
  have found : (s.engine.findMatches name document q).Reads base (.ok page) := by
    refine rows.bind_ok (cells.bind_ok ?_)
    rw [answered]
    exact Access.reads_ofExcept _
  exact found.bind_fine (Access.reads_pure _).fine

theorem get_fine (memory : s.store = MemoryStore.rowStore)
    (wellFormed : (base.table name).WellFormed s.config.maxDepth) (subject : Subject)
    (document : String) (request : ReadRequest) :
    (s.get subject name document request).ReadsFine base := by
  have spares := (s.prepareRead_fair subject name document request).spares
  refine Access.ofExcept_bind_fine spares fun plan => ?_
  cases plan with
  | value path fields => exact readValue_fine memory wellFormed document path fields
  | matching q => exact readMatches_fine memory wellFormed document q

theorem search_fine (memory : s.store = MemoryStore.rowStore)
    (wellFormed : (base.table name).WellFormed s.config.maxDepth) (subject : Subject)
    (request : SearchRequest) : (s.search subject name request).ReadsFine base :=
  Access.ofExcept_bind_fine (s.prepareSearch_fair subject name request).spares fun q =>
    (Engine.reads_search (e := s.engine) memory wellFormed q).fine

theorem writeTimes_fine (memory : s.store = MemoryStore.rowStore)
    (wellFormed : (base.table name).WellFormed s.config.maxDepth) (subject : Subject)
    (document : String) (path : Path) :
    (s.writeTimes subject name document path).ReadsFine base := by
  refine Access.ofExcept_bind_fine (s.prepareTimes_fair subject name document).spares fun _ => ?_
  have rows := Engine.reads_documentRows (e := s.engine) memory wellFormed.ordered document path
  refine rows.bind_fine ?_
  have cells := Engine.reads_decode wellFormed document
    ((Select.ofDocument document).below path).accepts
  exact cells.bind_fine (Access.reads_pure _).fine

/-- However many writes of a history have arrived, and in whatever order of their times, the live
rows of every document are leaves that can stand together, and no read complains about them. -/
theorem never_corrupt (s : Service MemoryStore) (memory : s.store = MemoryStore.rowStore)
    (arrivals : List WriteCall) (distinct : DistinctTimes arrivals) (n : Nat) :
    (∀ name document,
      (∀ row ∈ (s.after (arrivals.take n)).live name document,
        row.segments.length = s.config.maxDepth) ∧
      ∃ cells, ((s.after (arrivals.take n)).live name document).mapM Row.decode = .ok cells ∧
        Path.Consistent (cells.map (·.path))) ∧
    (∀ subject name document request cause,
      ((s.get subject name document request).run.run (s.after (arrivals.take n))).1 ≠
        .error (.corruptRow cause)) ∧
    (∀ subject name request cause,
      ((s.search subject name request).run.run (s.after (arrivals.take n))).1 ≠
        .error (.corruptRow cause)) ∧
    ∀ subject name document path cause,
      ((s.writeTimes subject name document path).run.run (s.after (arrivals.take n))).1 ≠
        .error (.corruptRow cause) := by
  have arrived : DistinctTimes (arrivals.take n) := fun a ha b hb =>
    distinct a (List.mem_of_mem_take ha) b (List.mem_of_mem_take hb)
  have idle := (after_holds memory (arrivals.take n)).idle
  have wellFormed := after_wellFormed memory arrived
  refine ⟨fun name document => ⟨fun row live => ?_, ?_⟩, ?_, ?_, ?_⟩
  · rw [MemoryStore.live, (wellFormed name).rows document] at live
    obtain ⟨cell, hc, rfl⟩ := List.mem_map.mp live
    exact Path.padded_length ((wellFormed name).fits document cell hc)
  · exact ⟨_, (wellFormed name).decode_live document, (wellFormed name).consistent document⟩
  · intro subject name document request
    exact (get_fine memory (wellFormed name) subject document request).spares idle
  · intro subject name request
    exact (search_fine memory (wellFormed name) subject request).spares idle
  · intro subject name document path
    exact (writeTimes_fine memory (wellFormed name) subject document path).spares idle

def Sample.lateRemoval : List WriteCall :=
  [⟨⟨"", ""⟩, ⟨"k", "t"⟩, "d", [.field "a"], Path.ofDotted_valid "a" rfl,
      .put "null", 7⟩,
    ⟨⟨"", ""⟩, ⟨"k", "t"⟩, "d", [], Path.valid_root, .patch "\x7b\"b\":[true]\x7d", 9⟩,
    ⟨⟨"", ""⟩, ⟨"k", "t"⟩, "d", [], Path.valid_root, .delete, 5⟩]

theorem never_corrupt_lateRemoval :
    ((sample.after (Sample.lateRemoval.take 3)).live ⟨"k", "t"⟩ "d").map (·.segments) =
        [["a", "", ""], ["b", "[000000]", ""]] ∧
      ∃ cells, ((sample.after (Sample.lateRemoval.take 3)).live ⟨"k", "t"⟩ "d").mapM Row.decode =
          .ok cells ∧
        Path.Consistent (cells.map (·.path)) := by
  refine ⟨by rfl, ?_⟩
  exact ((never_corrupt sample rfl Sample.lateRemoval (.of_nodup (by decide)) 3).1 ⟨"k", "t"⟩ "d").2

end Service

end LeafStore
