import LeafStore.Proofs.Acceptance
import LeafStore.Proofs.Integrity
import LeafStore.Proofs.Refusals
/-!
A memory store that is not made to fail grants every request. What it is asked for are granted
statements, and it goes on from every token that it has handed out.
-/
namespace LeafStore

/-- A token is handed out with a page of a sized statement, and it is that of the last row. -/
theorem Table.paging_of_cut {q : Select} {found : List (Key × Row)} {token : String}
    (more : (cut q found).paging = some token) :
    ∃ entry ∈ found, (cut q found).rows.getLast? = some (q.columnsOf entry.2) ∧
      entry.1.token = token := by
  cases sized : q.pageSize with
  | none =>
    simp only [cut, sized] at more
    cases more
  | some size =>
    rcases cut_cases q size sized found with all | ⟨first, last, rest, split, part⟩
    · rw [all] at more
      cases more
    · rw [part] at more ⊢
      refine ⟨last, split ▸ List.mem_append_right _ (List.mem_cons_self ..), ?_,
        Option.some.inj more⟩
      rw [List.map_append, List.map_singleton, List.getLast?_concat]

namespace MemoryStore

theorem select_eq_ok {name : TableName} {q : Select} {store : MemoryStore} {page : Table.Page}
    (ok : (select name q store).1 = .ok page) :
    Engine.Accepted q ∧ ∃ resume : Option Table.Key,
      page = Table.cut q ((store.table name).selected q resume) := by
  cases failure : store.failure with
  | some error =>
    simp only [select, guarded, failure] at ok
    cases ok
  | none =>
    simp only [select, guarded, failure] at ok
    split at ok
    · cases ok
    · rename_i accepted
      obtain ⟨resume, -, done⟩ := bind_eq_ok ok
      exact ⟨Bool.eq_false_iff.mpr accepted, resume, (Except.ok.inj done).symm⟩

theorem paging_of_select {name : TableName} {q : Select} {store : MemoryStore} {page : Table.Page}
    (ok : (select name q store).1 = .ok page) {token : String} (more : page.paging = some token) :
    ∃ entry ∈ (store.table name).entries, page.rows.getLast? = some (q.columnsOf entry.2) ∧
      entry.1.token = token := by
  obtain ⟨-, resume, rfl⟩ := select_eq_ok ok
  obtain ⟨entry, there, last, spelled⟩ := Table.paging_of_cut more
  rw [Table.selected_eq] at there
  have live := (KeyOrder.mem_past.mp there).1
  exact ⟨entry, (List.mem_filter.mp live).1, last, spelled⟩

def Handed (token : String) : Prop := ∃ key : Table.Key, key.token = token

/-- Memory stores that are not made to fail, with the statements that they logged after others. -/
structure Quiet (before : List Select) (store : MemoryStore) : Prop where
  idle : store.failure = none
  log : ∃ asked, store.selects = before ++ asked ∧ ∀ q ∈ asked, q.Granted

theorem Quiet.select {before : List Select} {store : MemoryStore} (h : store.Quiet before)
    {q : Select} (granted : q.Granted) (handed : ∀ token ∈ q.paging, Handed token)
    (name : TableName) : ∃ page, rowStore.select name q store =
      (.ok page, { store with selects := store.selects ++ [q] }) := by
  obtain ⟨resume, start⟩ : ∃ resume : Option Table.Key, q.paging = resume.map Table.Key.token := by
    cases paging : q.paging with
    | none => exact ⟨none, rfl⟩
    | some token =>
      obtain ⟨key, rfl⟩ := handed token paging
      exact ⟨some key, rfl⟩
  exact ⟨_, Engine.select_accepted granted.accepted start name h.idle⟩

theorem serves (before : List Select) :
    rowStore.Serves (Quiet before) Handed fun cause => ∀ fault, cause ≠ .storeUnavailable fault where
  keeps name q store quiet granted handed := by
    obtain ⟨page, run⟩ := quiet.select granted handed name
    obtain ⟨asked, log, each⟩ := quiet.log
    rw [run]
    refine ⟨quiet.idle, asked ++ [q], by simp [log], fun other there => ?_⟩
    rcases List.mem_append.mp there with old | new
    · exact each other old
    · exact List.mem_singleton.mp new ▸ granted
  hands name q store _ _ _ page ok token more := by
    obtain ⟨entry, -, -, spelled⟩ := paging_of_select ok more
    exact ⟨entry.1, spelled⟩
  fails name q store quiet granted handed cause failed := by
    obtain ⟨page, run⟩ := quiet.select granted handed name
    rw [run] at failed
    cases failed
  corrupt _ _ same := by cases same

theorem Quiet.applied {before : List Select} {store : MemoryStore} (h : store.Quiet before)
    (name : TableName) (mutations : List Mutation) : (store.applied name mutations).Quiet before :=
  ⟨h.idle, h.log⟩

end MemoryStore

namespace Service

open Error (Fair fair_ok fair_mapError)
open Access (Within within_pure within_call within_ofExcept)

variable {σ : Type}

theorem prepareChange_fair (s : Service σ) (subject : Subject) (name : TableName)
    (document : String) (path : Path) (payload : String) (patching : Bool) (now : Int) :
    Fair (s.prepareChange subject name document path payload patching now) :=
  (s.checkWrite_fair subject name _).bind fun _ =>
    (s.checkWrite_fair subject name _).bind fun _ =>
      (checkDocument_fair document).bind fun _ =>
        Fair.bind (fair_mapError (fun _ => rfl) _) fun value => by
          intro cause refused
          rcases Limits.put_eq_error refused with ⟨-, _, rfl⟩ | ⟨-, _, rfl⟩ <;> rfl

theorem prepareDelete_fair (s : Service σ) (subject : Subject) (name : TableName)
    (document : String) (path : Path) (now : Int) :
    Fair (s.prepareDelete subject name document path now) :=
  (s.checkWrite_fair subject name _).bind fun _ =>
    (checkDocument_fair document).bind fun _ => fair_mapError (fun _ => rfl) _

/-- A request is refused before it is carried out only for what the caller asks. -/
theorem accept_fair (s : Service σ) (subject : Subject) (name : TableName) (now : Int)
    (request : Request) : Fair (s.accept subject name now request) := by
  cases request with
  | put document path payload =>
    exact Fair.map (s.prepareChange_fair subject name document path payload false now) _
  | patch document path payload =>
    exact Fair.map (s.prepareChange_fair subject name document path payload true now) _
  | delete document path => exact Fair.map (s.prepareDelete_fair subject name document path now) _
  | get document request => exact Fair.map (s.prepareRead_fair subject name document request) _
  | search request => exact Fair.map (s.prepareSearch_fair subject name request) _
  | writeTimes document path => exact Fair.map (s.prepareTimes_fair subject name document) _

/-- A request keeps to what reading the store and applying a batch keep to. -/
theorem within_serve {s : Service σ} {holds : σ → Prop} {handed : String → Prop}
    {blame : Error → Prop} (serves : s.store.Serves holds handed blame)
    (applies : ∀ name batch, Within holds blame (s.applyBatch name batch))
    (client : ∀ cause, cause.isClient = true → blame cause) (subject : Subject) (name : TableName)
    (now : Int) (request : Request) : Within holds blame (s.serve subject name now request) := by
  rw [serve_eq]
  have prepared : Within holds blame (Access.ofExcept (s.accept subject name now request)) :=
    within_ofExcept fun cause refused =>
      client cause (s.accept_fair subject name now request cause refused)
  refine prepared.bind_of (fun _ _ _ ok => ok) fun work
    (accepted : s.accept subject name now request = .ok work) => ?_
  rcases within_accept serves accepted with within | ⟨batch, rfl⟩
  · exact within
  · exact (applies name batch).map _

/-- Every statement that a store is asked for is recorded, whatever the answer. -/
def recording (s : Service σ) : Service (σ × List Select) where
  store :=
    { select := fun name q state =>
        let (answer, next) := s.store.select name q state.1
        (answer, next, state.2 ++ [q])
      apply := fun name mutations state =>
        let (answer, next) := s.store.apply name mutations state.1
        (answer, next, state.2)
      pageBound := fun name state => s.store.pageBound name state.1 }
  authorizer := s.authorizer
  config := s.config
  config_valid := s.config_valid

theorem recording_serves (s : Service σ) : s.recording.store.Serves
    (fun state => ∀ q ∈ state.2, q.Granted) (fun _ => True) fun _ => True where
  keeps name q state granted grant _ := by
    intro other there
    rcases List.mem_append.mp there with old | new
    · exact granted other old
    · exact List.mem_singleton.mp new ▸ grant
  hands _ _ _ _ _ _ _ _ _ _ := trivial
  fails _ _ _ _ _ _ _ _ := trivial
  corrupt _ := trivial

theorem recording_within (s : Service σ) (subject : Subject) (name : TableName) (now : Int)
    (request : Request) : Within (fun state => ∀ q ∈ state.2, q.Granted) (fun _ => True)
      (s.recording.serve subject name now request) := by
  refine within_serve s.recording_serves (fun name batch => ?_) (fun _ _ => trivial) subject name now
    request
  exact (within_call (fun _ granted => granted) fun _ _ _ _ => trivial).bind fun _ => within_pure _

theorem memory_within {s : Service MemoryStore} (memory : s.store = MemoryStore.rowStore)
    (before : List Select) (subject : Subject) (name : TableName) (now : Int) (request : Request) :
    Within (MemoryStore.Quiet before) (fun cause => ∀ fault, cause ≠ .storeUnavailable fault)
      (s.serve subject name now request) := by
  refine within_serve (memory ▸ MemoryStore.serves before) (fun name batch => ?_)
    (fun _ client _ same => by cases same; cases client) subject name now request
  have run := fun (store : MemoryStore) (quiet : store.Quiet before) =>
    MemoryStore.apply_eq quiet.idle name batch.mutations
  rw [applyBatch, memory]
  refine (within_call (fun store quiet => ?_) fun store quiet cause failed => ?_).bind
    fun _ => within_pure _
  · show MemoryStore.Quiet before (MemoryStore.apply name batch.mutations store).2
    rw [run store quiet]
    exact quiet.applied name batch.mutations
  · have failed : (MemoryStore.apply name batch.mutations store).1 = .error cause := failed
    rw [run store quiet] at failed
    cases failed

/-- A memory store that is not made to fail refuses nothing that a request asks of it, and a request
leaves it so. Whatever the store is, every statement that it is asked for allows that rows are
read which do not match, or it names a document and the first columns of its rows; and a memory store
goes on from each token that it has handed out. -/
theorem store_never_refuses (s : Service MemoryStore) (memory : s.store = MemoryStore.rowStore)
    (subject : Subject) (name : TableName) (now : Int) (request : Request) :
    (∀ writes cause, ((s.serve subject name now request).run.run (s.after writes)).1 ≠
      .error (.storeUnavailable cause)) ∧
    (∀ store : MemoryStore, store.failure = none → ∃ answer next asked,
      (s.serve subject name now request).run.run store = (answer, next) ∧
      (∀ cause, answer ≠ .error (.storeUnavailable cause)) ∧ next.failure = none ∧
      next.selects = store.selects ++ asked ∧
      ∀ q ∈ asked, q.allowFiltering = true ∨ q.Keyed) ∧
    (∀ (σ : Type) (s' : Service σ) state,
      ∀ q ∈ ((s'.recording.serve subject name now request).run.run (state, [])).2.2,
        q.allowFiltering = true ∨ q.Keyed) ∧
    ∀ q store page, (s.store.select name q store).1 = .ok page → ∀ token, page.paging = some token →
      ∃ entry ∈ (store.table name).entries, page.rows.getLast? = some (q.columnsOf entry.2) ∧
        Table.Key.ofToken token = .ok entry.1 ∧
        ∀ later : MemoryStore, later.failure = none → ∃ rest,
          (s.store.select name { q with paging := some token } later).1 = .ok rest := by
  have within := fun before => memory_within memory before subject name now request
  have quiet : ∀ store : MemoryStore, store.failure = none → store.Quiet store.selects :=
    fun store idle => ⟨idle, [], (List.append_nil _).symm, fun _ there => by cases there⟩
  refine ⟨fun writes cause failed => ?_, fun store idle => ?_, fun σ s' state => ?_, ?_⟩
  · exact (within _).fails _ _ (quiet _ (after_holds memory writes).idle) failed cause rfl
  · obtain ⟨still, asked, log, granted⟩ := (within _).keeps store (quiet store idle)
    refine ⟨_, _, asked, rfl, fun cause failed => ?_, still, log, granted⟩
    exact (within _).fails store _ (quiet store idle) failed cause rfl
  · exact (s'.recording_within subject name now request).keeps (state, []) fun _ there => by cases there
  · rw [memory]
    intro q store page ok token more
    obtain ⟨entry, there, last, rfl⟩ := MemoryStore.paging_of_select ok more
    refine ⟨entry, there, last, Table.Key.ofToken_token _, fun later idle => ?_⟩
    obtain ⟨accepted, -⟩ := MemoryStore.select_eq_ok ok
    have start : some entry.1.token = (some entry.1).map Table.Key.token := rfl
    have run := Engine.select_accepted (q := { q with paging := some entry.1.token }) accepted start
      name idle
    exact ⟨_, congrArg Prod.fst run⟩

def Sample.twoLamps : List WriteCall :=
  [⟨⟨"", ""⟩, ⟨"k", "t"⟩, "d", [], Path.valid_root,
    .put "\x7b\"a\":\x7b\"on\":true\x7d,\"b\":\x7b\"on\":true\x7d\x7d", 1⟩]

def Sample.getLampsOn : Request :=
  .get "d" { filter := some "\x7b\"*.on\":\x7b\"$eq\":true\x7d\x7d" }

/-- Two lamps that are on are found on two pages, and each statement allows filtering. -/
theorem store_never_refuses_lamps :
    ((sample.recording.serve ⟨"", ""⟩ ⟨"k", "t"⟩ 9 Sample.getLampsOn).run.run
        (sample.after Sample.twoLamps, [])).2.2.map (·.allowFiltering) = [true, true] ∧
      (∀ cause, ((sample.serve ⟨"", ""⟩ ⟨"k", "t"⟩ 9 Sample.getLampsOn).run.run
        (sample.after Sample.twoLamps)).1 ≠ .error (.storeUnavailable cause)) ∧
      ∃ page token key, (sample.store.select ⟨"k", "t"⟩ { document := some "d", pageSize := some 1 }
          (sample.after Sample.twoLamps)).1 = .ok page ∧ page.paging = some token ∧
        Table.Key.ofToken token = .ok key := by
  obtain ⟨never, _, _, decoded⟩ :=
    store_never_refuses sample rfl ⟨"", ""⟩ ⟨"k", "t"⟩ 9 Sample.getLampsOn
  obtain ⟨token, found⟩ : ∃ token, (sample.store.select ⟨"k", "t"⟩
      { document := some "d", pageSize := some 1 } (sample.after Sample.twoLamps)).1.toOption.bind
        (·.paging) = some token := Option.isSome_iff_exists.mp (by decide +kernel)
  obtain ⟨page, there, more⟩ := Option.bind_eq_some_iff.mp found
  have ok := eq_ok_of_toOption there
  obtain ⟨entry, _, _, key, _⟩ := decoded _ _ page ok token more
  exact ⟨by decide +kernel, never Sample.twoLamps, page, token, entry.1, ok, more, key⟩

end Service

end LeafStore
