import LeafStore.Proofs.Histories
import LeafStore.Proofs.Serving
/-!
Requests that fail. Whatever is wrong with a request is found before the store is asked, whatever
the store holds; and a request that fails later has changed nothing.
-/
namespace LeafStore

inductive Request where
  | put (document : String) (path : Path) (payload : String)
  | patch (document : String) (path : Path) (payload : String)
  | delete (document : String) (path : Path)
  | get (document : String) (request : ReadRequest)
  | search (request : SearchRequest)
  | writeTimes (document : String) (path : Path)

inductive Response where
  | written (time : Int)
  | document (found : Option DocumentResponse)
  | page (page : SearchPage)
  | times (times : List (String × Int))

/-- What the caller has to be allowed for a request: writes are deletions, and then changes. -/
def Authorizer.permits (a : Authorizer) (subject : Subject) (table : TableName) :
    Request → Except AccessError Unit
  | .put .. | .patch .. => do
    a.write subject table .delete
    a.write subject table .modify
  | .delete .. => a.write subject table .delete
  | .get .. | .search .. | .writeTimes .. => a.read subject table

namespace Service

variable {σ : Type}

def serve (s : Service σ) (subject : Subject) (table : TableName) (now : Int) :
    Request → Access σ Response
  | .put document path payload => .written <$> s.put subject table document path payload now
  | .patch document path payload => .written <$> s.patch subject table document path payload now
  | .delete document path => .written <$> s.delete subject table document path now
  | .get document request => .document <$> s.get subject table document request
  | .search request => .page <$> s.search subject table request
  | .writeTimes document path => .times <$> s.writeTimes subject table document path

/-- What is left to do of a request that is not refused. -/
def accept (s : Service σ) (subject : Subject) (table : TableName) (now : Int) :
    Request → Except Error (Access σ Response)
  | .put document path payload =>
    (s.prepareChange subject table document path payload false now).map fun batch =>
      .written <$> s.applyBatch table batch
  | .patch document path payload =>
    (s.prepareChange subject table document path payload true now).map fun batch =>
      .written <$> s.applyBatch table batch
  | .delete document path =>
    (s.prepareDelete subject table document path now).map fun batch =>
      .written <$> s.applyBatch table batch
  | .get document request =>
    (s.prepareRead subject table document request).map fun
      | .value path fields => .document <$> s.readValue table document path fields
      | .matching q => .document <$> s.readMatches table document q
  | .search request =>
    (s.prepareSearch subject table request).map fun q => .page <$> s.engine.search table q
  | .writeTimes document path =>
    (s.prepareTimes subject table document).map fun _ => .times <$> do
      let rows ← s.engine.documentRows table document path
      let cells ← Engine.decodeRows rows
      pure (timesByPath cells)

/-- A request is accepted or refused without the store, and then carried out. -/
theorem serve_eq (s : Service σ) (subject : Subject) (table : TableName) (now : Int)
    (request : Request) :
    s.serve subject table now request =
      Access.ofExcept (s.accept subject table now request) >>= id := by
  have split : ∀ {α β : Type} (x : Except Error α) (f : α → Access σ β) (g : β → Response),
      (g <$> (Access.ofExcept x >>= f) : Access σ Response) =
        Access.ofExcept (x.map fun a => g <$> f a) >>= id := by
    intro α β x f g
    cases x <;> rfl
  cases request with
  | get document request =>
    rw [serve, get, accept]
    cases s.prepareRead subject table document request with
    | error cause => rfl
    | ok plan => cases plan <;> rfl
  | _ => exact split _ _ _

end Service

/-- What is seen of a store is changed by a batch that is applied, and by nothing else. -/
structure RowStore.Steady {σ τ : Type} (store : RowStore σ) (view : σ → τ) : Prop where
  select : ∀ name s state, view (store.select name s state).2 = view state
  apply : ∀ name mutations state cause, (store.apply name mutations state).1 = .error cause →
    view (store.apply name mutations state).2 = view state

theorem RowStore.Steady.serves {σ τ : Type} {store : RowStore σ} {view : σ → τ}
    (steady : store.Steady view) (seen : τ) :
    store.Serves (view · = seen) (fun _ => True) (·.isClient = false) where
  keeps name q state held _ _ := (steady.select name q state).trans held
  hands _ _ _ _ _ _ _ _ _ _ := trivial
  fails _ _ _ _ _ _ _ _ := rfl
  corrupt _ := rfl

theorem MemoryStore.steady : rowStore.Steady MemoryStore.tables where
  select name s store := by
    show (MemoryStore.select name s store).2.tables = store.tables
    unfold MemoryStore.select guarded
    split
    · rfl
    · split <;> rfl
  apply name mutations store cause failed := by
    have failed : (MemoryStore.apply name mutations store).1 = .error cause := failed
    show (MemoryStore.apply name mutations store).2.tables = store.tables
    unfold MemoryStore.apply guarded at *
    split
    · rfl
    · rename_i none
      rw [none] at failed
      cases failed

namespace Service

open Access (Within within_pure within_row)

variable {σ τ : Type} {view : σ → τ} {s : Service σ}

theorem run_applyBatch (s : Service σ) (table : TableName) (batch : Batch) (state : σ) :
    (Response.written <$> s.applyBatch table batch : Access σ Response).run.run state =
      match s.store.apply table batch.mutations state with
      | (.ok _, next) => (.ok (.written batch.writeTime), next)
      | (.error fault, next) => (.error (.storeUnavailable fault), next) := by
  rw [map_eq_pure_bind, Access.run_bind, applyBatch, Access.run_bind, Access.run_call]
  rcases s.store.apply table batch.mutations state with ⟨_ | _, _⟩ <;> rfl

theorem applyBatch_failed (steady : s.store.Steady view) {table : TableName} {batch : Batch}
    {state next : σ} {cause : Error}
    (failed : (Response.written <$> s.applyBatch table batch : Access σ Response).run.run state =
      (.error cause, next)) : view next = view state ∧ cause.isClient = false := by
  have kept := steady.apply table batch.mutations state
  rw [run_applyBatch] at failed
  generalize s.store.apply table batch.mutations state = outcome at kept failed
  rcases outcome with ⟨fault | _, _⟩
  · cases failed
    exact ⟨kept fault rfl, rfl⟩
  · cases failed

/-- A request that was accepted only reads, or it applies a batch. -/
theorem within_accept {holds : σ → Prop} {handed : String → Prop} {blame : Error → Prop}
    (serves : s.store.Serves holds handed blame) {subject : Subject} {table : TableName} {now : Int}
    {request : Request} {work : Access σ Response}
    (accepted : s.accept subject table now request = .ok work) :
    Within holds blame work ∨ ∃ batch, work = .written <$> s.applyBatch table batch := by
  cases request with
  | put document path payload | patch document path payload | delete document path =>
    obtain ⟨batch, _, rfl⟩ := map_eq_ok accepted
    exact .inr ⟨batch, rfl⟩
  | get document request =>
    obtain ⟨plan, _, rfl⟩ := map_eq_ok accepted
    cases plan with
    | value path fields =>
      exact .inl (((Engine.within_documentRows (e := s.engine) serves document path).bind fun _ =>
        (within_row serves.corrupt _).bind fun _ => within_pure _).map _)
    | matching q =>
      exact .inl (((Engine.within_findMatches (e := s.engine) serves document q).bind fun _ =>
        within_pure _).map _)
  | search request =>
    obtain ⟨q, _, rfl⟩ := map_eq_ok accepted
    exact .inl ((Engine.within_search (e := s.engine) serves q).map _)
  | writeTimes document path =>
    obtain ⟨_, _, rfl⟩ := map_eq_ok accepted
    exact .inl (((Engine.within_documentRows (e := s.engine) serves document path).bind fun _ =>
      (within_row serves.corrupt _).bind fun _ => within_pure _).map _)

theorem accept_failed (steady : s.store.Steady view) {subject : Subject} {table : TableName}
    {now : Int} {request : Request} {work : Access σ Response}
    (accepted : s.accept subject table now request = .ok work) {state next : σ} {cause : Error}
    (failed : work.run.run state = (.error cause, next)) :
    view next = view state ∧ cause.isClient = false := by
  rcases within_accept (steady.serves (view state)) accepted with within | ⟨batch, rfl⟩
  · have same := within.keeps state rfl
    rw [failed] at same
    exact ⟨same, within.fails state cause rfl (congrArg Prod.fst failed)⟩
  · exact applyBatch_failed steady failed

theorem run_serve (s : Service σ) (subject : Subject) (table : TableName) (now : Int)
    (request : Request) (state : σ) :
    (s.serve subject table now request).run.run state =
      match s.accept subject table now request with
      | .ok work => work.run.run state
      | .error cause => (.error cause, state) := by
  rw [serve_eq, Access.run_bind]
  cases s.accept subject table now request <;> rfl

end Service

/-! The same is refused whatever the time and the store. -/

/-- Two results are both successes, or they are one error. -/
inductive RefusedAlike {ε α β : Type} : Except ε α → Except ε β → Prop where
  | accepted (a : α) (b : β) : RefusedAlike (.ok a) (.ok b)
  | refused (cause : ε) : RefusedAlike (.error cause) (.error cause)

namespace RefusedAlike

variable {ε φ α β γ δ : Type}

theorem refl (x : Except ε α) : RefusedAlike x x := by
  cases x with
  | ok a => exact .accepted a a
  | error cause => exact .refused cause

theorem bind {x : Except ε α} {y : Except ε β} {f : α → Except ε γ} {g : β → Except ε δ}
    (h : RefusedAlike x y) (next : ∀ a b, RefusedAlike (f a) (g b)) :
    RefusedAlike (x >>= f) (y >>= g) := by
  cases h with
  | accepted a b => exact next a b
  | refused cause => exact .refused cause

theorem after (x : Except ε α) {f : α → Except ε γ} {g : α → Except ε δ}
    (next : ∀ a, RefusedAlike (f a) (g a)) : RefusedAlike (x >>= f) (x >>= g) := by
  cases x with
  | ok a => exact next a
  | error cause => exact .refused cause

theorem map {x : Except ε α} {y : Except ε β} (h : RefusedAlike x y) (f : α → γ) (g : β → δ) :
    RefusedAlike (x.map f) (y.map g) := by
  cases h with
  | accepted a b => exact .accepted _ _
  | refused cause => exact .refused cause

theorem mapError {x : Except ε α} {y : Except ε β} (h : RefusedAlike x y) (wrap : ε → φ) :
    RefusedAlike (x.mapError wrap) (y.mapError wrap) := by
  cases h with
  | accepted a b => exact .accepted a b
  | refused cause => exact .refused _

end RefusedAlike

namespace Limits

variable {limits : Limits} {t u : Target}

theorem leafRow_alike (path : Path) (leaf : Leaf) :
    RefusedAlike (limits.leafRow t path leaf) (limits.leafRow u path leaf) :=
  ((RefusedAlike.refl _).map _ _).map _ _

theorem itemRows_alike {items : List Json}
    (each : ∀ item ∈ items, ∀ path, RefusedAlike (limits.rows t path item) (limits.rows u path item))
    (path : Path) (position : Nat) :
    RefusedAlike (limits.itemRows t path position items) (limits.itemRows u path position items) := by
  induction items generalizing position with
  | nil => exact .accepted _ _
  | cons item rest ih =>
    have others := ih (fun v hv => each v (List.mem_cons_of_mem _ hv)) (position + 1)
    exact .after _ fun segment => (each item (List.mem_cons_self ..) (path.child segment)).bind
      fun _ _ => others.bind fun _ _ => .accepted _ _

theorem memberRows_alike {members : List (String × Json)}
    (each : ∀ member ∈ members, ∀ path,
      RefusedAlike (limits.rows t path member.2) (limits.rows u path member.2)) (path : Path) :
    RefusedAlike (limits.memberRows t path members) (limits.memberRows u path members) := by
  induction members with
  | nil => exact .accepted _ _
  | cons member rest ih =>
    have others := ih fun m hm => each m (List.mem_cons_of_mem _ hm)
    exact .after _ fun segment => (each member (List.mem_cons_self ..) (path.child segment)).bind
      fun _ _ => others.bind fun _ _ => .accepted _ _

theorem rows_alike (path : Path) (v : Json) :
    RefusedAlike (limits.rows t path v) (limits.rows u path v) := by
  induction v using Json.induct generalizing path with
  | whole v ih =>
    cases v with
    | array items =>
      have each : ∀ item ∈ items, ∀ path,
          RefusedAlike (limits.rows t path item) (limits.rows u path item) := by
        intro item there path
        obtain ⟨p, hp, rfl⟩ := Json.exists_part there
        exact ih p hp path
      cases items with
      | nil => exact leafRow_alike path _
      | cons item rest =>
        exact .after _ fun _ => .after _ fun _ => itemRows_alike each path 0
    | object members =>
      have each : ∀ member ∈ members, ∀ path,
          RefusedAlike (limits.rows t path member.2) (limits.rows u path member.2) :=
        fun member there =>
          ih (.field member.1, member.2) (List.mem_map.mpr ⟨member, there, rfl⟩)
      cases members with
      | nil => exact leafRow_alike path _
      | cons member rest => exact .after _ fun _ => memberRows_alike each path
    | _ => exact leafRow_alike path _

theorem put_alike (document : String) (path : Path) (value : Json) (patching : Bool)
    (now other : Int) : RefusedAlike (limits.put document path value patching now)
      (limits.put document path value patching other) := by
  have cleared : RefusedAlike (targetDeletions patching document (deletionTime now) path value)
      (targetDeletions patching document (deletionTime other) path value) := by
    unfold targetDeletions
    split
    · exact (RefusedAlike.refl _).map _ _
    · exact .accepted _ _
  exact .after _ fun _ => ((rows_alike path value).mapError _).bind fun _ _ =>
    (cleared.mapError _).bind fun _ _ => .accepted _ _

theorem delete_alike (document : String) (path : Path) (now other : Int) :
    RefusedAlike (limits.delete document path now) (limits.delete document path other) :=
  .after _ fun _ => .accepted _ _

end Limits

namespace Service

variable {σ σ' : Type} {s : Service σ} {s' : Service σ'}

/-- A request is refused for what it asks, for the configuration and for the authorizer. The store
and the time have no part in it. -/
theorem accept_alike (authorizer : s'.authorizer = s.authorizer) (config : s'.config = s.config)
    (subject : Subject) (table : TableName) (now other : Int) (request : Request) :
    RefusedAlike (s.accept subject table now request) (s'.accept subject table other request) := by
  have changes : ∀ document path payload patching,
      RefusedAlike (s.prepareChange subject table document path payload patching now)
        (s'.prepareChange subject table document path payload patching other) := by
    intro document path payload patching
    simp only [prepareChange, checkWrite, authorizer, config]
    exact .after _ fun _ => .after _ fun _ => .after _ fun _ => .after _ fun value =>
      Limits.put_alike document path value patching now other
  cases request with
  | put document path payload => exact (changes ..).map _ _
  | patch document path payload => exact (changes ..).map _ _
  | delete document path =>
    refine RefusedAlike.map ?_ _ _
    simp only [prepareDelete, checkWrite, authorizer, config]
    exact .after _ fun _ => .after _ fun _ => (Limits.delete_alike document path now other).mapError _
  | get document request =>
    have same : s'.prepareRead subject table document request =
        s.prepareRead subject table document request := by
      simp only [prepareRead, checkRead, readFilter, planRead, authorizer, config]
    rw [accept, accept, same]
    exact (RefusedAlike.refl _).map _ _
  | search request =>
    have same : s'.prepareSearch subject table request = s.prepareSearch subject table request := by
      simp only [prepareSearch, checkRead, readFilter, authorizer, config]
    rw [accept, accept, same]
    exact (RefusedAlike.refl _).map _ _
  | writeTimes document path =>
    have same : s'.prepareTimes subject table document = s.prepareTimes subject table document := by
      simp only [prepareTimes, checkRead, authorizer]
    rw [accept, accept, same]
    exact (RefusedAlike.refl _).map _ _

theorem accept_unauthorized {subject : Subject} {table : TableName} {request : Request}
    {access : AccessError} (denied : s.authorizer.permits subject table request = .error access)
    (now : Int) : s.accept subject table now request = .error (.unauthorized access) := by
  have changes : ∀ document path payload patching,
      (do
        s.authorizer.write subject table .delete
        s.authorizer.write subject table .modify) = .error access →
      s.prepareChange subject table document path payload patching now =
        .error (.unauthorized access) := by
    intro document path payload patching denied
    unfold prepareChange checkWrite
    cases first : s.authorizer.write subject table .delete with
    | error cause =>
      rw [first] at denied
      cases denied
      rfl
    | ok _ =>
      rw [first] at denied
      have second : s.authorizer.write subject table .modify = .error access := denied
      rw [second]
      rfl
  cases request with
  | put document path payload | patch document path payload =>
    rw [accept, changes _ _ _ _ denied]
    rfl
  | delete document path =>
    have denied : s.authorizer.write subject table .delete = .error access := denied
    rw [accept, prepareDelete, checkWrite, denied]
    rfl
  | get document request =>
    have denied : s.authorizer.read subject table = .error access := denied
    rw [accept, prepareRead, checkRead, denied]
    rfl
  | search request =>
    have denied : s.authorizer.read subject table = .error access := denied
    rw [accept, prepareSearch, checkRead, denied]
    rfl
  | writeTimes document path =>
    have denied : s.authorizer.read subject table = .error access := denied
    rw [accept, prepareTimes, checkRead, denied]
    rfl

def counting (s : Service σ) : Service (σ × Nat) where
  store :=
    { select := fun name q state =>
        let (answer, next) := s.store.select name q state.1
        (answer, next, state.2 + 1)
      apply := fun name mutations state =>
        let (answer, next) := s.store.apply name mutations state.1
        (answer, next, state.2 + 1)
      pageBound := fun name state => s.store.pageBound name state.1 }
  authorizer := s.authorizer
  config := s.config
  config_valid := s.config_valid

/-- A request that fails leaves every table as it was. A request that the caller is to blame for does
not call the store, and it is refused alike whatever the store is, whatever it holds and whenever the
request is made; and one that is not allowed is refused for that, whatever else is wrong with it. -/
theorem failures_leave_no_trace (s : Service MemoryStore) (memory : s.store = MemoryStore.rowStore)
    (subject : Subject) (table : TableName) (request : Request) :
    (∀ now store next cause,
      (s.serve subject table now request).run.run store = (.error cause, next) →
      next.tables = store.tables ∧
      (cause.isClient = true →
        (∀ other calls, (s.counting.serve subject table other request).run.run (store, calls) =
          (.error cause, store, calls)) ∧
        ∀ (σ : Type) (s' : Service σ), s'.authorizer = s.authorizer → s'.config = s.config →
          ∀ other state, (s'.serve subject table other request).run.run state =
            (.error cause, state))) ∧
    ∀ access, s.authorizer.permits subject table request = .error access →
      ∀ now store, (s.serve subject table now request).run.run store =
        (.error (.unauthorized access), store) := by
  constructor
  · intro now store next cause failed
    rw [run_serve] at failed
    cases verdict : s.accept subject table now request with
    | ok work =>
      rw [verdict] at failed
      obtain ⟨kept, server⟩ := accept_failed (memory ▸ MemoryStore.steady) verdict failed
      refine ⟨kept, fun client => ?_⟩
      rw [server] at client
      cases client
    | error refusal =>
      rw [verdict] at failed
      obtain ⟨rfl, rfl⟩ : refusal = cause ∧ store = next := by
        cases failed
        exact ⟨rfl, rfl⟩
      have everywhere : ∀ (σ : Type) (s' : Service σ), s'.authorizer = s.authorizer →
          s'.config = s.config → ∀ other state,
            (s'.serve subject table other request).run.run state = (.error refusal, state) := by
        intro σ s' authorizer config other state
        have alike := accept_alike authorizer config subject table now other request
        rw [verdict] at alike
        rw [run_serve]
        cases again : s'.accept subject table other request with
        | ok work =>
          rw [again] at alike
          cases alike
        | error same =>
          rw [again] at alike
          cases alike
          rfl
      exact ⟨rfl, fun _ => ⟨fun other calls => everywhere _ s.counting rfl rfl other _, everywhere⟩⟩
  · intro access denied now store
    rw [run_serve, accept_unauthorized denied]

def Sample.closedToAll : Authorizer where
  read _ _ := .error .unauthenticated
  write _ _ _ := .error (.denied "read only")

/-- A put without an id is refused before its payload is read and before the store fails; and where
nothing is allowed that is the reason. -/
theorem failures_leave_no_trace_unnamed :
    (sample.counting.serve ⟨"", ""⟩ ⟨"k", "t"⟩ 7 (.put "" [] "\x7b")).run.run
        (MemoryStore.failNext {} (.unavailable "down"), 0) =
      (.error (.invalidPath .emptyDocumentId), MemoryStore.failNext {} (.unavailable "down"), 0) ∧
    (Service.serve { sample with authorizer := Sample.closedToAll } ⟨"", ""⟩ ⟨"k", "t"⟩ 7
        (.put "" [] "\x7b")).run.run {} =
      (.error (.unauthorized (.denied "read only")), {}) := by
  obtain ⟨failures, _⟩ :=
    failures_leave_no_trace sample rfl ⟨"", ""⟩ ⟨"k", "t"⟩ (.put "" [] "\x7b")
  obtain ⟨_, everywhere⟩ := failures 9 (MemoryStore.failNext {} (.unavailable "down")) _ _ rfl
  obtain ⟨_, denials⟩ :=
    failures_leave_no_trace { sample with authorizer := Sample.closedToAll } rfl ⟨"", ""⟩ ⟨"k", "t"⟩
      (.put "" [] "\x7b")
  exact ⟨(everywhere rfl).1 7 0, denials _ rfl 7 {}⟩

end Service

end LeafStore
