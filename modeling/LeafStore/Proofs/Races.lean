import LeafStore.Proofs.Integrity
import LeafStore.Proofs.ReadAnswers
/-!
Reads that race with writes. A get that needs several pages of the store reads each of them as of its
own moment, so that it may see leaves together which no moment held together.
-/
namespace LeafStore

/-- A store that is read while others write to it. -/
structure Race where
  store : MemoryStore
  /-- The writes that land after each page that is read. -/
  rounds : List (List WriteCall)

theorem Access.run_of_answer {σ α : Type} {x : Access σ α} {state : σ} {answer : Except Error α}
    (read : (x.run.run state).1 = answer) : ∃ next, x.run.run state = (answer, next) :=
  ⟨_, Prod.ext read rfl⟩

instance Path.decidableParts : (p q : Path) → Decidable (p.Parts q)
  | [], _ => isFalse id
  | _ :: _, [] => isFalse id
  | s :: p, t :: q =>
    have := decidableParts p q
    inferInstanceAs (Decidable (s = t ∧ Parts p q ∨ s ≠ t ∧ s.isIndex = t.isIndex))

namespace Engine

variable {σ : Type} {e : Engine σ} {name : TableName} {q : Select} {resume : Option String}
  {state next last : σ} {rows rest : List Row} {token : String}

theorem run_readAll (e : Engine σ) (name : TableName) (q : Select) (state : σ) :
    (e.readAll name q).run.run state =
      (e.readPages name q (e.store.pageBound name state) none).run.run state := rfl

theorem run_readPages_last (pages : Nat)
    (page : (e.readPage name q resume).run.run state = (.ok ⟨rows, none⟩, next)) :
    (e.readPages name q (pages + 1) resume).run.run state = (.ok rows, next) := by
  rw [readPages, Access.run_bind, page]
  rfl

theorem run_readPages_more {pages : Nat}
    (page : (e.readPage name q resume).run.run state = (.ok ⟨rows, some token⟩, next))
    (others : (e.readPages name q pages (some token)).run.run next = (.ok rest, last)) :
    (e.readPages name q (pages + 1) resume).run.run state = (.ok (rows ++ rest), last) := by
  have further : (e.readPages name q pages (some token) >>= fun rest => pure (rows ++ rest) :
      Access σ (List Row)).run.run next = (.ok (rows ++ rest), last) := by
    rw [Access.run_bind, others]
    rfl
  rw [readPages, Access.run_bind, page]
  exact further

end Engine

def Cell.entry (width : Nat) (cell : Cell) : Table.Key × Row :=
  ((cell.document, (cell.row width).segments), cell.row width)

theorem Table.cut_of_fits {s : Select} {size : Nat} (sized : s.pageSize = some size)
    {found : List (Key × Row)} (few : found.length ≤ size) :
    cut s found = ⟨found.map fun entry => s.columnsOf entry.2, none⟩ := by
  have taken := List.take_of_length_le (Nat.le_trans few (Nat.le_max_right 1 size))
  simp only [cut, sized, taken, Nat.lt_irrefl, if_false]

namespace Service

def land (s : Service MemoryStore) (rounds : List (List WriteCall)) (read : MemoryStore) : Race :=
  ⟨s.writeAll (rounds.headD []) read, rounds.tail⟩

/-- The same service while writes land between the pages that it reads. -/
def racing (s : Service MemoryStore) : Service Race where
  store :=
    { select := fun name q race =>
        let (answer, read) := s.store.select name q race.store
        (answer, s.land race.rounds read)
      apply := fun name mutations race =>
        let (answer, written) := s.store.apply name mutations race.store
        (answer, { race with store := written })
      pageBound := fun name race => race.rounds.length +
        ((s.writeAll race.rounds.flatten race.store).table name).rowCount + 1 }
  authorizer := s.authorizer
  config := s.config
  config_valid := s.config_valid

/-- A table at each moment of a race: before the first writes land, and after each of them. -/
def moments (s : Service MemoryStore) (name : TableName) :
    List (List WriteCall) → MemoryStore → List Table
  | [], store => [store.table name]
  | calls :: rounds, store => store.table name :: s.moments name rounds (s.writeAll calls store)

variable {s : Service MemoryStore} {q : Select}

theorem writeAll_congr (memory : s.store = MemoryStore.rowStore) {a b : MemoryStore}
    (same : a.tables = b.tables) (idle : a.failure = none) (idle' : b.failure = none)
    (calls : List WriteCall) : (s.writeAll calls a).tables = (s.writeAll calls b).tables ∧
      (s.writeAll calls a).failure = none ∧ (s.writeAll calls b).failure = none := by
  induction calls generalizing a b with
  | nil => exact ⟨same, idle, idle'⟩
  | cons call rest ih =>
    cases prepared : s.prepare call with
    | error cause =>
      have step : ∀ store, s.writeAll (call :: rest) store = s.writeAll rest store := fun store => by
        rw [writeAll, List.foldl_cons, run_write_refused prepared]
        rfl
      rw [step, step]
      exact ih same idle idle'
    | ok batch =>
      have step : ∀ store : MemoryStore, store.failure = none → s.writeAll (call :: rest) store =
          s.writeAll rest (store.applied call.table batch.mutations) := fun store idle => by
        rw [writeAll, List.foldl_cons, run_write memory prepared idle]
        rfl
      rw [step a idle, step b idle']
      refine ih ?_ idle idle'
      simp only [MemoryStore.applied, MemoryStore.setTable, MemoryStore.table, same]

theorem writeAll_logged (memory : s.store = MemoryStore.rowStore) {store : MemoryStore}
    (idle : store.failure = none) (selects : List Select) (calls : List WriteCall) :
    (s.writeAll calls { store with selects := selects }).tables = (s.writeAll calls store).tables ∧
      (s.writeAll calls { store with selects := selects }).failure = none :=
  have alike := writeAll_congr (a := { store with selects := selects }) (b := store) memory rfl idle
    idle calls
  ⟨alike.1, alike.2.1⟩

theorem moments_congr (memory : s.store = MemoryStore.rowStore) (name : TableName)
    {a b : MemoryStore} (same : a.tables = b.tables) (idle : a.failure = none) (idle' : b.failure = none)
    (rounds : List (List WriteCall)) : s.moments name rounds a = s.moments name rounds b := by
  have first := MemoryStore.table_congr same name
  induction rounds generalizing a b with
  | nil => rw [moments, moments, first]
  | cons calls rounds ih =>
    obtain ⟨next, nextIdle, nextIdle'⟩ := writeAll_congr memory same idle idle' calls
    rw [moments, moments, first, ih next nextIdle nextIdle' (MemoryStore.table_congr next name)]

theorem table_mem_moments (s : Service MemoryStore) (name : TableName)
    (rounds : List (List WriteCall)) (store : MemoryStore) :
    store.table name ∈ s.moments name rounds store := by
  cases rounds <;> exact List.mem_cons_self ..

theorem moments_land (memory : s.store = MemoryStore.rowStore) (name : TableName)
    {store : MemoryStore} (idle : store.failure = none) (rounds : List (List WriteCall))
    (selects : List Select) :
    ∀ t ∈ s.moments name rounds.tail (s.writeAll (rounds.headD []) { store with selects := selects }),
      t ∈ s.moments name rounds store := by
  have same := moments_congr (a := { store with selects := selects }) (b := store) memory name rfl
    idle idle rounds
  rw [← same]
  cases rounds with
  | nil => exact fun _ there => there
  | cons calls rounds => exact fun _ there => List.mem_cons_of_mem _ there

/-- Every moment of a race holds what the writes until then have left. -/
theorem moments_hold (memory : s.store = MemoryStore.rowStore) (name : TableName)
    {before : List WriteCall} {store : MemoryStore} (h : s.Holds before store)
    (rounds : List (List WriteCall)) :
    ∀ t ∈ s.moments name rounds store, ∃ calls moment, calls <+: before ++ rounds.flatten ∧
      s.Holds calls moment ∧ moment.table name = t := by
  induction rounds generalizing before store with
  | nil =>
    intro t there
    rw [List.mem_singleton.mp there]
    exact ⟨before, store, List.prefix_append _ _, h, rfl⟩
  | cons calls rounds ih =>
    intro t there
    rcases List.mem_cons.mp there with rfl | there
    · exact ⟨before, store, List.prefix_append _ _, h, rfl⟩
    · obtain ⟨found, moment, leads, holds⟩ := ih (h.writeAll memory calls) t there
      exact ⟨found, moment, by simpa using leads, holds⟩

theorem moments_wellFormed (memory : s.store = MemoryStore.rowStore) (name : TableName)
    {before : List WriteCall} {store : MemoryStore} (h : s.Holds before store)
    {rounds : List (List WriteCall)} (distinct : DistinctTimes (before ++ rounds.flatten)) :
    ∀ t ∈ s.moments name rounds store, t.WellFormed s.config.maxDepth ∧
      ∀ document, ∀ entry ∈ (t.partition document).rows, entry.1 = entry.2.segments := by
  intro t there
  obtain ⟨calls, moment, leads, holds, rfl⟩ := moments_hold memory name h rounds t there
  have earlier : DistinctTimes calls := fun a ha b hb =>
    distinct a (leads.subset ha) b (leads.subset hb)
  exact ⟨holds.wellFormed earlier name, fun document entry he => ((holds.tables name).mem_rows he).1⟩

theorem race_page (memory : s.store = MemoryStore.rowStore) (name : TableName)
    (accepted : Engine.Accepted q) (resume : Option Table.Key) {store : MemoryStore}
    (idle : store.failure = none) (rounds : List (List WriteCall)) :
    ∃ selects, (s.racing.engine.readPage name q (resume.map Table.Key.token)).run.run ⟨store, rounds⟩ =
      (.ok (Table.cut (s.engine.pageOf q resume) ((store.table name).selected q resume)),
        s.land rounds { store with selects := selects }) := by
  obtain ⟨selects, run⟩ := Engine.reads_page (e := s.engine) store name memory accepted resume store
    rfl idle
  refine ⟨selects, ?_⟩
  rw [Engine.readPage, Access.run_call] at run ⊢
  obtain ⟨answer, read⟩ := Prod.mk.inj run
  exact Prod.ext answer (congrArg (s.land rounds) read)

/-- The pages of a select that races with writes hold entries in ascending order, each of them live at
a moment of the race. -/
theorem race_pages (memory : s.store = MemoryStore.rowStore) (name : TableName)
    (accepted : Engine.Accepted q) (pages : Nat) (resume : Option Table.Key) {store : MemoryStore}
    (idle : store.failure = none) (rounds : List (List WriteCall))
    (ordered : ∀ t ∈ s.moments name rounds store, t.Ordered) :
    ∃ (found : List (Table.Key × Row)) (next : Race),
      (s.racing.engine.readPages name q pages (resume.map Table.Key.token)).run.run ⟨store, rounds⟩ =
        (.ok (found.map fun entry => q.columnsOf entry.2), next) ∧
      (found.Pairwise fun a b => b.1.isAfter a.1 = true) ∧
      ∀ entry ∈ found, resume.all entry.1.isAfter = true ∧ Table.answers q entry = true ∧
        ∃ t ∈ s.moments name rounds store, entry ∈ t.entries := by
  induction pages generalizing resume store rounds with
  | zero => exact ⟨[], ⟨store, rounds⟩, rfl, .nil, List.forall_mem_nil _⟩
  | succ pages ih =>
    have now := table_mem_moments s name rounds store
    have listed := (ordered _ now).answers_ascending q
    have here : ∀ entry ∈ (store.table name).entries.filter (Table.answers q),
        Table.answers q entry = true ∧ ∃ t ∈ s.moments name rounds store, entry ∈ t.entries := by
      intro entry there
      obtain ⟨live, answers⟩ := List.mem_filter.mp there
      exact ⟨answers, _, now, live⟩
    obtain ⟨selects, page⟩ := race_page memory name accepted resume idle rounds
    rw [Table.selected_eq] at page
    rcases Table.cut_cases (s.engine.pageOf q resume) _ rfl
        (Table.Key.order.past Prod.fst resume ((store.table name).entries.filter (Table.answers q)))
      with all | ⟨first, last, rest, split, part⟩
    · rw [all] at page
      refine ⟨_, _, Engine.run_readPages_last pages page, listed.past, fun entry there => ?_⟩
      obtain ⟨there, past⟩ := KeyOrder.mem_past.mp there
      exact ⟨past, here entry there⟩
    · rw [part] at page
      -- The writes land behind the page, and the rest is a race that begins with the next table.
      have later := moments_land memory name idle rounds selects
      have still := (writeAll_logged memory idle selects (rounds.headD [])).2
      obtain ⟨found, next, run, sorted, each⟩ :=
        ih (some last.1) still rounds.tail fun t there => ordered t (later t there)
      refine ⟨first ++ [last] ++ found, next, ?_, ?_, ?_⟩
      · refine (Engine.run_readPages_more page run).trans ?_
        exact congrArg (fun rows => (Except.ok rows, next)) List.map_append.symm
      · exact List.pairwise_append.mpr ⟨(listed.page split).1, sorted, fun a ha b hb =>
          listed.past_page split (each b hb).1 a ha⟩
      · intro entry there
        rcases List.mem_append.mp there with there | there
        · obtain ⟨there, past⟩ := KeyOrder.mem_of_page split entry there
          exact ⟨past, here entry there⟩
        · obtain ⟨past, answers, t, moment, live⟩ := each entry there
          exact ⟨KeyOrder.all_trans (KeyOrder.last_past split) past, answers, t, later t moment, live⟩

/-- What a get reads of a document while writes land are leaves at different paths, each of them live
at a moment of the race. -/
theorem race_cells (memory : s.store = MemoryStore.rowStore) {before : List WriteCall}
    {store : MemoryStore} (h : s.Holds before store) {rounds : List (List WriteCall)}
    (distinct : DistinctTimes (before ++ rounds.flatten)) (name : TableName)
    (accepted : Engine.Accepted q) {document : String} (about : q.document = some document)
    (full : q.columns = .full) :
    ∃ (cells : List Cell) (next : Race), (s.racing.engine.readAll name q).run.run ⟨store, rounds⟩ =
        (.ok (cells.map (Cell.row s.config.maxDepth)), next) ∧
      (cells.Pairwise fun a b => a.path ≠ b.path) ∧
      ∀ cell ∈ cells, cell.path.Valid ∧
        ∃ t ∈ s.moments name rounds store, cell ∈ t.cells document := by
  have wellFormed := moments_wellFormed memory name h distinct
  obtain ⟨found, next, run, ascending, each⟩ := race_pages memory name accepted
    (s.racing.store.pageBound name ⟨store, rounds⟩) none h.idle rounds
    fun t there => (wellFormed t there).1.ordered
  have live : ∀ entry ∈ found, ∃ cell : Cell, (cell.path.Valid ∧
      ∃ t ∈ s.moments name rounds store, cell ∈ t.cells document) ∧
        cell.entry s.config.maxDepth = entry := by
    rintro ⟨⟨owner, columns⟩, row⟩ there
    obtain ⟨_, answers, t, moment, stored⟩ := each _ there
    obtain ⟨whole, keyed⟩ := wellFormed t moment
    obtain rfl : document = owner := by
      simp only [Table.answers, about, Option.all_some, Bool.and_eq_true, decide_eq_true_eq] at answers
      exact answers.1.1
    have stored := (whole.ordered.mem_entries document columns row).mp stored
    have live : row ∈ t.live document := List.mem_map.mpr ⟨_, stored, rfl⟩
    rw [whole.rows document] at live
    obtain ⟨cell, hc, rfl⟩ := List.mem_map.mp live
    obtain rfl : columns = (cell.row s.config.maxDepth).segments := keyed document _ stored
    refine ⟨cell, ⟨whole.valid document cell hc, t, moment, hc⟩, ?_⟩
    rw [Cell.entry, whole.about document cell hc]
  obtain ⟨cells, rfl, facts⟩ := exists_map_eq live
  refine ⟨cells, next, ?_, ?_, facts⟩
  · have rows : (fun entry : Table.Key × Row => q.columnsOf entry.2) = (·.2) :=
      funext fun entry => Select.columnsOf_full full entry.2
    rw [rows, List.map_map] at run
    exact (Engine.run_readAll ..).trans run
  · refine (List.pairwise_map.mp ascending).imp_of_mem fun {a b} ha hb after same => ?_
    obtain ⟨_, t, moment, hc⟩ := facts a ha
    obtain ⟨_, u, moment', hd⟩ := facts b hb
    -- Leaves at one path would have one key, and no key comes after itself.
    have key : (b.entry s.config.maxDepth).1 = (a.entry s.config.maxDepth).1 := by
      have owners := ((wellFormed t moment).1.about document a hc).trans
        ((wellFormed u moment').1.about document b hd).symm
      exact Prod.ext owners.symm (congrArg (Path.padded · s.config.maxDepth) same.symm)
    rw [key, Table.Key.isAfter_irrefl] at after
    cases after

/-- More pages than a select can still have: pages that writes land after, and pages of the rows that
are there when the last writes have landed. -/
def pagesLeft (s : Service MemoryStore) (name : TableName) (q : Select) (resume : Option Table.Key)
    (store : MemoryStore) : List (List WriteCall) → Nat
  | [] => ((store.table name).selected q resume).length
  | calls :: rounds => rounds.length + 1 +
    ((s.writeAll (calls ++ rounds.flatten) store).table name).rowCount

@[simp] theorem writeAll_append (s : Service MemoryStore) (calls others : List WriteCall)
    (store : MemoryStore) :
    s.writeAll (calls ++ others) store = s.writeAll others (s.writeAll calls store) :=
  List.foldl_append

theorem pagesLeft_land (memory : s.store = MemoryStore.rowStore) {name : TableName}
    {resume : Option Table.Key} {store : MemoryStore} (idle : store.failure = none)
    {rounds : List (List WriteCall)} (selects : List Select) (ordered : (store.table name).Ordered)
    {first rest : List (Table.Key × Row)} {last : Table.Key × Row}
    (split : (store.table name).selected q resume = first ++ last :: rest) :
    s.pagesLeft name q (some last.1)
      (s.writeAll (rounds.headD []) { store with selects := selects }) rounds.tail <
        s.pagesLeft name q resume store rounds := by
  have landed : ∀ calls, (s.writeAll calls { store with selects := selects }).table name =
      (s.writeAll calls store).table name := fun calls =>
    MemoryStore.table_congr (writeAll_logged memory idle selects calls).1 name
  cases rounds with
  | nil =>
    have after : (store.table name).selected q (some last.1) = rest :=
      ordered.selected_after q resume split
    show ((store.table name).selected q (some last.1)).length <
      ((store.table name).selected q resume).length
    rw [after, split, List.length_append, List.length_cons]
    omega
  | cons calls rounds =>
    cases rounds with
    | nil =>
      have few := Table.selected_length ((s.writeAll calls store).table name) q (some last.1)
      show (((s.writeAll calls { store with selects := selects }).table name).selected q
        (some last.1)).length < _
      rw [landed, pagesLeft, List.flatten_nil, List.append_nil, List.length_nil]
      omega
    | cons next rounds =>
      show rounds.length + 1 + ((s.writeAll (next ++ rounds.flatten)
        (s.writeAll calls { store with selects := selects })).table name).rowCount < _
      rw [← writeAll_append, landed, pagesLeft, List.flatten_cons, List.length_cons]
      omega

/-- A race that has pages enough is not cut short: it reads the same when it may have more. -/
theorem race_settled (memory : s.store = MemoryStore.rowStore) (name : TableName)
    (accepted : Engine.Accepted q) (pages more : Nat) (resume : Option Table.Key)
    {store : MemoryStore} (idle : store.failure = none) (rounds : List (List WriteCall))
    (ordered : ∀ t ∈ s.moments name rounds store, t.Ordered)
    (enough : s.pagesLeft name q resume store rounds < pages) :
    (s.racing.engine.readPages name q (pages + more) (resume.map Table.Key.token)).run.run
        ⟨store, rounds⟩ =
      (s.racing.engine.readPages name q pages (resume.map Table.Key.token)).run.run
        ⟨store, rounds⟩ := by
  induction pages generalizing resume store rounds with
  | zero => exact absurd enough (Nat.not_lt_zero _)
  | succ pages ih =>
    have now := table_mem_moments s name rounds store
    obtain ⟨selects, page⟩ := race_page memory name accepted resume idle rounds
    rw [Nat.add_right_comm]
    rcases Table.cut_cases (s.engine.pageOf q resume) _ rfl ((store.table name).selected q resume) with
      all | ⟨first, last, rest, split, part⟩
    · rw [all] at page
      rw [Engine.run_readPages_last _ page, Engine.run_readPages_last _ page]
    · rw [part] at page
      have later := moments_land memory name idle rounds selects
      have still := (writeAll_logged memory idle selects (rounds.headD [])).2
      have fewer := Nat.lt_of_lt_of_le
        (pagesLeft_land memory idle selects (ordered _ now) split) (Nat.le_of_lt_succ enough)
      have ordered := fun t there => ordered t (later t there)
      obtain ⟨found, _, run, _⟩ :=
        race_pages memory name accepted pages (some last.1) still rounds.tail ordered
      have longer := (ih (some last.1) still rounds.tail ordered fewer).trans run
      exact (Engine.run_readPages_more page longer).trans (Engine.run_readPages_more page run).symm

theorem pagesLeft_lt (s : Service MemoryStore) (name : TableName) (q : Select) (store : MemoryStore)
    (rounds : List (List WriteCall)) :
    s.pagesLeft name q none store rounds < s.racing.store.pageBound name ⟨store, rounds⟩ := by
  cases rounds with
  | nil =>
    have few := Table.selected_length (store.table name) q none
    exact Nat.lt_succ_of_le (Nat.le_trans few (Nat.le_add_left _ _))
  | cons calls rounds => exact Nat.lt_succ_self _

/-- A select that races with writes ends by itself: it would not read more if it had more pages. -/
theorem race_readAll (memory : s.store = MemoryStore.rowStore) (name : TableName)
    (accepted : Engine.Accepted q) (more : Nat) {store : MemoryStore} (idle : store.failure = none)
    (rounds : List (List WriteCall))
    (ordered : ∀ t ∈ s.moments name rounds store, t.Ordered) :
    (s.racing.engine.readPages name q (s.racing.store.pageBound name ⟨store, rounds⟩ + more)
        none).run.run ⟨store, rounds⟩ =
      (s.racing.engine.readAll name q).run.run ⟨store, rounds⟩ :=
  race_settled memory name accepted _ more none idle rounds ordered
    (s.pagesLeft_lt name q store rounds)

section Answers

variable {before : List WriteCall} {store : MemoryStore} {rounds : List (List WriteCall)}
  {name : TableName} {document : String}

/-- Leaves of a document that are live at any moments of a race can stand together. -/
def NeverReshaped (s : Service MemoryStore) (name : TableName) (document : String)
    (rounds : List (List WriteCall)) (store : MemoryStore) : Prop :=
  ∀ t ∈ s.moments name rounds store, ∀ u ∈ s.moments name rounds store,
    ∀ a ∈ t.cells document, ∀ b ∈ u.cells document, a.path ≠ b.path → a.path.Parts b.path

theorem race_consistent (memory : s.store = MemoryStore.rowStore) (h : s.Holds before store)
    (distinct : DistinctTimes (before ++ rounds.flatten))
    (kept : s.NeverReshaped name document rounds store) (accepted : Engine.Accepted q)
    (about : q.document = some document) (full : q.columns = .full) :
    ∃ (rows : List Row) (cells : List Cell) (next : Race),
      (s.racing.engine.readAll name q).run.run ⟨store, rounds⟩ = (.ok rows, next) ∧
      rows.mapM Row.decode = .ok cells ∧ Path.Consistent (cells.map (·.path)) := by
  obtain ⟨cells, next, run, apart, each⟩ := race_cells memory h distinct name accepted about full
  refine ⟨_, cells, next, run, Row.mapM_decode_rows (fun cell hc => (each cell hc).1) _, ?_⟩
  rw [Path.consistent_iff]
  refine List.pairwise_map.mpr (apart.imp_of_mem fun {a b} ha hb differ => ?_)
  obtain ⟨_, t, moment, live⟩ := each a ha
  obtain ⟨_, u, moment', live'⟩ := each b hb
  exact kept t moment u moment' a live b live' differ

theorem race_one_page (memory : s.store = MemoryStore.rowStore) (idle : store.failure = none)
    (ordered : (store.table name).Ordered) (accepted : Engine.Accepted q)
    (about : q.document = some document) (first : q.after = none) (full : q.columns = .full)
    (few : (store.live name document).length ≤ s.config.storePageSize)
    (rounds : List (List WriteCall)) :
    ∃ next, (s.racing.engine.readAll name q).run.run ⟨store, rounds⟩ =
      (.ok ((store.live name document).filter q.accepts), next) := by
  have rows : ((store.table name).selected q none).map (fun entry => q.columnsOf entry.2) =
      (store.live name document).filter q.accepts := by
    have whole : (store.table name).selected q none =
        (store.table name).entries.filter (Table.answers q) := by
      rw [Table.selected_eq, KeyOrder.past_none]
    have all := (Engine.reads_all (e := s.engine) memory accepted ordered).answer_eq idle
    have found :=
      (Engine.reads_select (e := s.engine) memory accepted ordered about first full).answer_eq idle
    rw [whole]
    exact Except.ok.inj (all.symm.trans found)
  have fits : ((store.table name).selected q none).length ≤ s.config.storePageSize := by
    rw [← List.length_map fun entry : Table.Key × Row => q.columnsOf entry.2, rows]
    exact Nat.le_trans (List.length_filter_le ..) few
  obtain ⟨selects, page⟩ := race_page memory name accepted none idle rounds
  rw [Table.cut_of_fits rfl fits] at page
  refine ⟨s.land rounds { store with selects := selects }, ?_⟩
  have bound : s.racing.engine.store.pageBound name ⟨store, rounds⟩ = rounds.length +
      ((s.writeAll rounds.flatten store).table name).rowCount + 1 := rfl
  rw [Engine.run_readAll, bound, ← rows]
  exact Engine.run_readPages_last _ page

theorem run_readValue {σ : Type} (s : Service σ) {state next : σ} {rows : List Row} {path : Path}
    (run : (s.engine.documentRows name document path).run.run state = (.ok rows, next))
    (fields : Option Projection) :
    (s.readValue name document path fields).run.run state =
      (((Assembly.ofRows path fields rows).mapError .corruptRow).map
        (·.map fun data => ⟨document, none, data, latest rows⟩), next) := by
  simp only [readValue, Access.run_bind, run, Access.run_row]
  cases Assembly.ofRows path fields rows <;> rfl

theorem run_readMatches {σ : Type} (s : Service σ) {state next : σ} {rows : List Row}
    {q : MatchQuery}
    (run : (s.engine.readAll name (q.select document)).run.run state = (.ok rows, next)) :
    (s.readMatches name document q).run.run state =
      ((q.answer rows).map fun page => if page.results.isEmpty then none
        else some ⟨document, page.pageState, .array page.results, none⟩, next) := by
  have found : (s.engine.findMatches name document q).run.run state = (q.answer rows, next) := by
    simp only [Engine.findMatches, Engine.decodeRows, Access.run_bind, run, Access.run_row,
      MatchQuery.answer]
    cases rows.mapM Row.decode <;> rfl
  rw [readMatches, Access.run_bind, found]
  cases q.answer rows <;> rfl

theorem run_get {σ : Type} (s : Service σ) (subject : Subject) (request : ReadRequest) (state : σ) :
    (s.get subject name document request).run.run state =
      match s.prepareRead subject name document request with
      | .error cause => (.error cause, state)
      | .ok (.value path fields) => (s.readValue name document path fields).run.run state
      | .ok (.matching q) => (s.readMatches name document q).run.run state := by
  rw [get, Access.run_bind]
  cases s.prepareRead subject name document request with
  | error cause => rfl
  | ok plan => cases plan <;> rfl

theorem race_spares (memory : s.store = MemoryStore.rowStore) (h : s.Holds before store)
    (distinct : DistinctTimes (before ++ rounds.flatten))
    (kept : s.NeverReshaped name document rounds store) (subject : Subject) (request : ReadRequest)
    (cause : RowError) :
    ((s.racing.get subject name document request).run.run ⟨store, rounds⟩).1 ≠
      .error (.corruptRow cause) := by
  have refusal := (s.prepareRead_fair subject name document request).spares cause
  rw [run_get]
  cases prepared : s.racing.prepareRead subject name document request with
  | error other =>
    rintro ⟨⟩
    exact refusal prepared
  | ok plan =>
    cases plan with
    | value path fields =>
      obtain ⟨rows, cells, next, run, decoded, consistent⟩ :=
        race_consistent memory h distinct kept (Engine.accepted_below document path) rfl rfl
      obtain ⟨json, assembled⟩ := Assembly.assemble_ok path fields consistent
      have value : Assembly.ofRows path fields rows = .ok json := by
        rw [Assembly.ofRows, decoded]
        exact assembled
      dsimp only
      rw [s.racing.run_readValue run, value]
      exact Error.spares_ok _ cause
    | matching q =>
      obtain ⟨owner, _, columns, accepted⟩ := q.select_fields document
      obtain ⟨rows, cells, next, run, decoded, consistent⟩ :=
        race_consistent memory h distinct kept accepted owner columns
      obtain ⟨page, answered⟩ := q.page_ok consistent
      have answer : q.answer rows = .ok page := by
        simp [MatchQuery.answer, decoded, answered]
      dsimp only
      rw [s.racing.run_readMatches run, answer]
      exact Error.spares_ok _ cause

theorem race_get_one_page (memory : s.store = MemoryStore.rowStore) (idle : store.failure = none)
    (ordered : (store.table name).Ordered) (subject : Subject) (request : ReadRequest)
    (few : (store.live name document).length ≤ s.config.storePageSize) :
    ((s.racing.get subject name document request).run.run ⟨store, rounds⟩).1 =
      ((s.get subject name document request).run.run store).1 := by
  rw [run_get, run_get]
  have same : s.racing.prepareRead subject name document request =
      s.prepareRead subject name document request := rfl
  rw [same]
  cases s.prepareRead subject name document request with
  | error cause => rfl
  | ok plan =>
    cases plan with
    | value path fields =>
      have accepted := Engine.accepted_below document path
      obtain ⟨next, run⟩ := race_one_page memory idle ordered accepted rfl rfl rfl few rounds
      obtain ⟨selects, plain⟩ :=
        Engine.reads_documentRows (e := s.engine) memory ordered document path store rfl idle
      dsimp only
      rw [s.racing.run_readValue run, s.run_readValue plain]
      rfl
    | matching q =>
      obtain ⟨owner, after, columns, accepted⟩ := q.select_fields document
      obtain ⟨next, run⟩ :=
        race_one_page memory idle ordered accepted owner after columns few rounds
      obtain ⟨selects, plain⟩ :=
        Engine.reads_select (e := s.engine) memory accepted ordered owner after columns store rfl idle
      dsimp only
      rw [s.racing.run_readMatches run, s.run_readMatches plain]
      rfl

end Answers

/-- A get that races with writes finds every table well-formed at every moment. It does not complain
about stored rows if the writes do not reshape the document meanwhile, nor if the document fits on one
page of the store; then it has the answer of the moment when it begins. -/
theorem get_races (s : Service MemoryStore) (memory : s.store = MemoryStore.rowStore)
    (writes : List WriteCall) (rounds : List (List WriteCall))
    (distinct : DistinctTimes (writes ++ rounds.flatten)) (subject : Subject) (name : TableName)
    (document : String) (request : ReadRequest) :
    (∀ t ∈ s.moments name rounds (s.after writes), t.WellFormed s.config.maxDepth) ∧
    (s.NeverReshaped name document rounds (s.after writes) → ∀ cause,
      ((s.racing.get subject name document request).run.run ⟨s.after writes, rounds⟩).1 ≠
        .error (.corruptRow cause)) ∧
    (((s.after writes).live name document).length ≤ s.config.storePageSize →
      ((s.racing.get subject name document request).run.run ⟨s.after writes, rounds⟩).1 =
        ((s.get subject name document request).run.run (s.after writes)).1) := by
  have h := after_holds memory writes
  refine ⟨fun t there => (moments_wellFormed memory name h distinct t there).1,
    fun kept => race_spares memory h distinct kept subject request, fun few => ?_⟩
  exact race_get_one_page memory h.idle (after_legible memory writes name).ordered subject request few

def Sample.twoPages : List WriteCall :=
  [⟨⟨"", ""⟩, ⟨"k", "t"⟩, "d", [], Path.valid_root, .put "\x7b\"a\":1,\"b\":2\x7d", 4⟩]

def Sample.memberAdded : WriteCall :=
  ⟨⟨"", ""⟩, ⟨"k", "t"⟩, "d", [], Path.valid_root, .patch "\x7b\"c\":true\x7d", 6⟩

theorem get_races_adding :
    ((sample.after Sample.twoPages).live ⟨"k", "t"⟩ "d").length = 2 ∧ ∀ cause,
      ((sample.racing.get ⟨"", ""⟩ ⟨"k", "t"⟩ "d" {}).run.run
        ⟨sample.after Sample.twoPages, [[Sample.memberAdded]]⟩).1 ≠
        .error (.corruptRow cause) := by
  have kept : sample.NeverReshaped ⟨"k", "t"⟩ "d" [[Sample.memberAdded]]
      (sample.after Sample.twoPages) := by
    unfold NeverReshaped
    decide +kernel
  have distinct : DistinctTimes (Sample.twoPages ++ [[Sample.memberAdded]].flatten) :=
    .of_nodup (by decide)
  exact ⟨by decide +kernel,
    (get_races sample rfl Sample.twoPages [[Sample.memberAdded]] distinct ⟨"", ""⟩ ⟨"k", "t"⟩ "d"
      {}).2.1 kept⟩

theorem valid_reshaped : Path.Valid [.field "a", .field "c"] := Path.ofDotted_valid "a.c" rfl

def Sample.memberReshaped : WriteCall :=
  ⟨⟨"", ""⟩, ⟨"k", "t"⟩, "d", [.field "a", .field "c"], valid_reshaped, .put "5", 6⟩

/-- What a get reads when the first member becomes an object between its pages. -/
def Sample.tornCells : List Cell :=
  [⟨"d", [.field "a"], .number (Double.ofInt 1), 4⟩,
    ⟨"d", [.field "a", .field "c"], .number (Double.ofInt 5), 6⟩,
    ⟨"d", [.field "b"], .number (Double.ofInt 2), 4⟩]

theorem assemble_torn :
    Assembly.assemble [] none Sample.tornCells = .error (.leafWithDescendants [.field "a"]) := by
  have sorted : Assembly.inOrder (Assembly.below [] Sample.tornCells) =
      Assembly.below [] Sample.tornCells :=
    List.mergeSort_of_pairwise (by decide)
  show (Assembly.buildAll (Assembly.below [] Sample.tornCells)).map some = _
  rw [Assembly.buildAll, sorted]
  rfl

/-- A get complains about stored rows though they were well-formed at every moment: it has read the
member before it became an object, and the member of that object after. -/
theorem get_torn :
    (Sample.twoPages ++ [Sample.memberReshaped]).Pairwise (·.time < ·.time) ∧
    (∀ call ∈ Sample.twoPages ++ [Sample.memberReshaped],
      (sample.prepare call).toOption.isSome = true) ∧
    (∀ t ∈ sample.moments ⟨"k", "t"⟩ [[Sample.memberReshaped]] (sample.after Sample.twoPages),
      t.WellFormed 3) ∧
    ((sample.racing.get ⟨"", ""⟩ ⟨"k", "t"⟩ "d" {}).run.run
      ⟨sample.after Sample.twoPages, [[Sample.memberReshaped]]⟩).1 =
        .error (.corruptRow (.leafWithDescendants [.field "a"])) := by
  refine ⟨by decide, by decide +kernel, ?_, ?_⟩
  · have distinct : DistinctTimes (Sample.twoPages ++ [[Sample.memberReshaped]].flatten) :=
      .of_nodup (by decide)
    have holds : sample.Holds Sample.twoPages (sample.after Sample.twoPages) :=
      after_holds rfl Sample.twoPages
    exact fun t there => (moments_wellFormed rfl ⟨"k", "t"⟩ holds distinct t there).1
  · have read : ((sample.racing.engine.documentRows ⟨"k", "t"⟩ "d" []).run.run
        ⟨sample.after Sample.twoPages, [[Sample.memberReshaped]]⟩).1 =
          .ok (Sample.tornCells.map (Cell.row 3)) :=
      eq_ok_of_toOption (by decide +kernel)
    have decoded : (Sample.tornCells.map (Cell.row 3)).mapM Row.decode = .ok Sample.tornCells :=
      eq_ok_of_toOption (by decide +kernel)
    have answer : Assembly.ofRows [] none (Sample.tornCells.map (Cell.row 3)) =
        .error (.leafWithDescendants [.field "a"]) := by
      rw [Assembly.ofRows, decoded]
      exact assemble_torn
    have prepared : sample.racing.prepareRead ⟨"", ""⟩ ⟨"k", "t"⟩ "d" {} = .ok (.value [] none) := rfl
    obtain ⟨next, run⟩ := Access.run_of_answer read
    rw [run_get, prepared]
    show ((sample.racing.readValue ⟨"k", "t"⟩ "d" [] none).run.run _).1 = _
    rw [sample.racing.run_readValue run, answer]
    rfl

end Service

end LeafStore
