import LeafStore.Proofs.Convergence
import LeafStore.Proofs.Reads
/-!
Pages of the store. A client that follows the tokens of a select is given rows in ascending order of
their keys and misses none that it could have been given at each of its requests, whatever is written
between them.
-/
namespace LeafStore

namespace Table

theorem Ordered.change {t : Table} (h : t.Ordered) (m : Mutation) : (t.change m).Ordered := by
  refine ⟨Sorted.update_ascending h.documents _ _ _, fun entry there => ?_⟩
  have old : Sorted.Ascending ((t.lookup m.document).getD {}).rows := by
    cases found : t.lookup m.document with
    | none => exact .nil
    | some p => exact h.rows _ ((h.documents.lookup_eq_some_iff _ _).mp found)
  rcases (Sorted.mem_insert h.documents _ _ _).mp there with rfl | ⟨there, _⟩
  · cases m with
    | insert row =>
      simp only [Partition.change, Partition.insert]
      split
      · exact old
      · exact Sorted.insert_ascending old _ _
    | delete d => exact old.filter _
  · exact h.rows entry there

theorem Ordered.applyAll {t : Table} (h : t.Ordered) (mutations : List Mutation) :
    (t.applyAll mutations).Ordered := by
  induction mutations generalizing t with
  | nil => exact h
  | cons m rest ih => exact ih (h.change m)

end Table

theorem MemoryStore.applyEach_ordered {store : MemoryStore} (idle : store.failure = none)
    (name : TableName) (ordered : (store.table name).Ordered) (batches : List (List Mutation)) :
    ((store.applyEach name batches).table name).Ordered ∧
      (store.applyEach name batches).failure = none := by
  induction batches generalizing store with
  | nil => exact ⟨ordered, idle⟩
  | cons batch rest ih =>
    obtain ⟨applied, quiet⟩ := apply_idle idle name batch
    exact ih quiet (applied ▸ ordered.applyAll batch)

/-- A request for a page: the table that it finds, the entries on the page, and the token. -/
structure Visit where
  table : Table
  found : List (Table.Key × Row)
  paging : Option String

namespace Visit

def page (s : Select) (visit : Visit) : Table.Page :=
  ⟨visit.found.map fun entry => s.columnsOf entry.2, visit.paging⟩

def Finished (visits : List Visit) : Prop :=
  ∃ visit, visits.getLast? = some visit ∧ visit.paging = none

/-- What a select is to find at each request, by key. -/
def feed (s : Select) : Feed Visit (Table.Key × Row) Table.Key where
  listing visit := visit.table.entries.filter (Table.answers s)
  given := (·.found)
  token := (·.paging)
  key := Prod.fst
  order := Table.Key.order

@[simp] theorem feed_left (s : Select) (after : Option Table.Key) (visit : Visit) :
    (feed s).left after visit = visit.table.selected s after :=
  (Table.selected_eq ..).symm

variable {s : Select} {size : Nat} {after : Option Table.Key} {visits : List Visit}

theorem run_last {t : Table} (ordered : t.Ordered) (few : (t.selected s after).length ≤ size) :
    (feed s).Run size after [⟨t, t.selected s after, none⟩] :=
  .last (ordered.answers_ascending s) (by rwa [feed_left])
    (feed_left s after ⟨t, _, none⟩).symm rfl

theorem run_next {t : Table} {first rest : List (Table.Key × Row)} {last : Table.Key × Row}
    (ordered : t.Ordered) (split : t.selected s after = first ++ last :: rest) (more : rest ≠ [])
    (full : first.length + 1 = size) (others : (feed s).Run size (some last.1) visits) :
    (feed s).Run size after (⟨t, first ++ [last], some last.1.token⟩ :: visits) :=
  .next (ordered.answers_ascending s) ((feed_left ..).trans split) more full rfl
    (Option.some_ne_none _) others

theorem page_rows (s : Select) (visit : Visit) :
    (s.columns = .full → (visit.page s).rows = visit.found.map (·.2)) ∧
      (visit.page s).rows.map (fun row => (row.document, row.leaf)) =
        visit.found.map fun entry => (entry.2.document, entry.2.leaf) := by
  constructor
  · intro full
    exact List.map_congr_left fun entry _ => Select.columnsOf_full full entry.2
  · simp [page]

end Visit

def Select.paged (s : Select) (size : Nat) (resume : Option String) : Select :=
  { s with pageSize := some size, paging := resume }

namespace MemoryStore

/-- A client that asks for the pages of a select, one after the other. Before each request some
batches are applied. -/
def pageThrough (name : TableName) (s : Select) (size : Nat) :
    List (List (List Mutation)) → Option String → MemoryStore →
      Except StoreError (List (Table × Table.Page))
  | [], _, _ => .ok []
  | batches :: rounds, resume, store => do
    let landed := store.applyEach name batches
    let (answer, next) := select name (s.paged size resume) landed
    let page ← answer
    match page.paging with
    | none => pure [(landed.table name, page)]
    | some token =>
      let others ← pageThrough name s size rounds (some token) next
      pure ((landed.table name, page) :: others)

variable {name : TableName} {s : Select} {size : Nat}

theorem select_paged (accepted : Engine.Accepted s) (positive : 0 < size) (name : TableName)
    (after : Option Table.Key) {store : MemoryStore} (idle : store.failure = none) :
    ∃ next : MemoryStore, next.tables = store.tables ∧ next.failure = none ∧
      (((store.table name).selected s after).length ≤ size ∧
        select name (s.paged size (after.map Table.Key.token)) store =
          (.ok (Visit.page s ⟨store.table name, (store.table name).selected s after, none⟩), next) ∨
      ∃ first last rest, (store.table name).selected s after = first ++ last :: rest ∧ rest ≠ [] ∧
        first.length + 1 = size ∧ select name (s.paged size (after.map Table.Key.token)) store =
          (.ok (Visit.page s ⟨store.table name, first ++ [last], some last.1.token⟩), next)) := by
  have answered := Engine.select_accepted (q := s.paged size (after.map Table.Key.token)) accepted
    rfl name idle
  have whole : max 1 size = size := Nat.max_eq_right positive
  refine ⟨{ store with selects := store.selects ++ [s.paged size (after.map Table.Key.token)] }, rfl,
    idle, ?_⟩
  rw [answered]
  rcases Table.cut_full (s.paged size (after.map Table.Key.token)) size rfl
      ((store.table name).selected s after) with
    ⟨few, all⟩ | ⟨first, last, rest, split, more, full, part⟩
  · exact .inl ⟨whole ▸ few, Prod.ext (congrArg Except.ok all) rfl⟩
  · exact .inr ⟨first, last, rest, split, more, whole ▸ full,
      Prod.ext (congrArg Except.ok part) rfl⟩

section Request

variable {batches : List (List Mutation)} {rounds : List (List (List Mutation))}
  {resume : Option String} {store next : MemoryStore} {page : Table.Page}

theorem pageThrough_last
    (answered : select name (s.paged size resume) (store.applyEach name batches) =
      (.ok page, next)) (last : page.paging = none) :
    pageThrough name s size (batches :: rounds) resume store =
      .ok [((store.applyEach name batches).table name, page)] := by
  simp only [pageThrough, answered, ok_bind, last]
  rfl

theorem pageThrough_more {token : String} {turns : List (Table × Table.Page)}
    (answered : select name (s.paged size resume) (store.applyEach name batches) =
      (.ok page, next)) (more : page.paging = some token)
    (others : pageThrough name s size rounds (some token) next = .ok turns) :
    pageThrough name s size (batches :: rounds) resume store =
      .ok (((store.applyEach name batches).table name, page) :: turns) := by
  simp only [pageThrough, answered, ok_bind, more, others]
  rfl

end Request

/-- Every request of a client is answered, with the entries that follow the page before. -/
theorem pageThrough_run (accepted : Engine.Accepted s) (positive : 0 < size)
    (rounds : List (List (List Mutation))) {store : MemoryStore} (idle : store.failure = none)
    (ordered : (store.table name).Ordered) (after : Option Table.Key) :
    ∃ visits : List Visit, pageThrough name s size rounds (after.map Table.Key.token) store =
        .ok (visits.map fun visit => (visit.table, visit.page s)) ∧
      (Visit.feed s).Run size after visits ∧
      (Visit.Finished visits ∨ visits.length = rounds.length) ∧
      ((∀ batches ∈ rounds, batches = []) → ∀ visit ∈ visits, visit.table = store.table name) := by
  induction rounds generalizing store after with
  | nil => exact ⟨[], rfl, .stopped after, .inr rfl, fun _ => List.forall_mem_nil _⟩
  | cons batches rounds ih =>
    obtain ⟨kept, quiet⟩ := applyEach_ordered idle name ordered batches
    have same : batches = [] → (store.applyEach name batches).table name = store.table name := by
      rintro rfl
      rfl
    obtain ⟨next, tables, still, page⟩ := select_paged accepted positive name after quiet
    -- The select leaves the tables as they are, so the next request finds this one in order.
    have table := table_congr tables name
    rcases page with ⟨few, answered⟩ | ⟨first, last, rest, split, more, full, answered⟩
    · refine ⟨_, pageThrough_last answered rfl, Visit.run_last kept few, .inl ⟨_, rfl, rfl⟩,
        fun none => ?_⟩
      exact List.forall_mem_singleton.mpr (same (none _ (List.mem_cons_self ..)))
    · obtain ⟨visits, followed, run, long, steady⟩ := ih still (table ▸ kept) (some last.1)
      refine ⟨⟨_, first ++ [last], some last.1.token⟩ :: visits,
        pageThrough_more answered rfl followed, Visit.run_next kept split more full run, ?_,
        fun none => ?_⟩
      · refine long.imp (Iff.mpr ?_) (congrArg Nat.succ)
        exact (Visit.feed s).finished_cons (Option.some_ne_none _)
      · have here := same (none _ (List.mem_cons_self ..))
        refine List.forall_mem_cons.mpr ⟨here, fun visit there => ?_⟩
        rw [steady (fun round hr => none round (List.mem_cons_of_mem _ hr)) visit there, table, here]

/-- Following the tokens of a select gives rows in strictly ascending order of their keys, at most so
many on a page, each of them in the table and asked for when its page was read, and a token exactly
when such a row is left. A page holds these rows as they are, or their documents and leaves. In the
end every row is given once that was there at each request. If nothing is written meanwhile and
requests enough are made the pages together are the rows that are asked for, whatever their size, and
so is what the engine reads, however many pages it may read if they are enough. -/
theorem pageThrough_exact (name : TableName) (s : Select) (accepted : Engine.Accepted s) (size : Nat)
    (positive : 0 < size) (store : MemoryStore) (idle : store.failure = none)
    (ordered : (store.table name).Ordered) (rounds : List (List (List Mutation))) :
    ∃ all : List (Table.Key × Row), all = (store.table name).entries.filter (Table.answers s) ∧
      (∃ visits : List Visit, pageThrough name s size rounds none store =
          .ok (visits.map fun visit => (visit.table, visit.page s)) ∧
        ((visits.flatMap (·.found)).Pairwise fun a b => b.1.isAfter a.1 = true) ∧
        (∀ visit ∈ visits, visit.found.length ≤ size ∧ ∀ entry ∈ visit.found,
          entry ∈ visit.table.entries ∧ Table.answers s entry = true) ∧
        (∀ front visit back, visits = front ++ visit :: back → (visit.paging.isSome = true ↔
          ∃ entry ∈ visit.table.entries, Table.answers s entry = true ∧
            ∀ given ∈ (front ++ [visit]).flatMap (·.found), entry.1.isAfter given.1 = true)) ∧
        (∀ visit ∈ visits, (s.columns = .full → (visit.page s).rows = visit.found.map (·.2)) ∧
          (visit.page s).rows.map (fun row => (row.document, row.leaf)) =
            visit.found.map fun entry => (entry.2.document, entry.2.leaf)) ∧
        (Visit.Finished visits ∨ visits.length = rounds.length) ∧
        (Visit.Finished visits → ∀ entry,
          (∀ visit ∈ visits, entry ∈ visit.table.entries ∧ Table.answers s entry = true) →
            (visits.flatMap (·.found)).count entry = 1) ∧
        ((∀ batches ∈ rounds, batches = []) →
          (∀ visit ∈ visits, visit.table = store.table name) ∧
          (all.length < rounds.length → Visit.Finished visits) ∧
          (Visit.Finished visits → visits.flatMap (·.found) = all))) ∧
      ∀ e : Engine MemoryStore, e.store = MemoryStore.rowStore →
        ((e.readAll name s).run.run store).1 = .ok (all.map fun entry => s.columnsOf entry.2) ∧
        ∀ pages, all.length < pages → ((e.readPages name s pages none).run.run store).1 =
          .ok (all.map fun entry => s.columnsOf entry.2) := by
  have whole : (store.table name).selected s none =
      (store.table name).entries.filter (Table.answers s) := by simp [Table.selected_eq]
  refine ⟨_, rfl, ?_, fun e memory => ⟨?_, fun pages enough => ?_⟩⟩
  · obtain ⟨visits, followed, run, long, quiet⟩ :=
      pageThrough_run accepted positive rounds idle ordered none
    refine ⟨visits, followed, run.ascends.1, fun visit there => ⟨run.short visit there,
      fun entry he => List.mem_filter.mp (run.listed visit there entry he)⟩,
      fun front visit back split => ?_, fun visit _ => visit.page_rows s, long,
      fun finished entry there => ?_, fun none => ?_⟩
    · refine (run.token_iff split).trans (exists_congr fun entry => ?_)
      simp only [Visit.feed, List.mem_filter, Option.all_none, true_and, and_assoc]
      rfl
    · have given : ∃ item ∈ visits.flatMap (·.found), item = entry :=
        run.complete finished (fun _ same => congrArg Prod.fst same) rfl fun visit hv =>
          ⟨entry, List.mem_filter.mpr (there visit hv), rfl⟩
      obtain ⟨_, member, rfl⟩ := given
      have nodup : (visits.flatMap (·.found)).Nodup := run.ascends.1.nodup
      rw [nodup.count, if_pos member]
    · obtain ⟨_, all, few⟩ := run.steady fun visit there =>
        congrArg (fun t : Table => t.entries.filter (Table.answers s)) (quiet none visit there)
      rw [KeyOrder.past_none] at all few
      refine ⟨quiet none, fun enough => long.elim id fun long => few.resolve_right ?_, all⟩
      rw [long]
      exact Nat.not_le.mpr enough
  · exact (Engine.reads_all memory accepted ordered).answer_eq idle
  · rw [← whole] at enough ⊢
    exact (Engine.reads_pages memory accepted ordered pages none enough).answer_eq idle

/-- Three rows are written before a page of one row is read, then the row on the page is deleted
and a row of another document is written between the two that are left. -/
def Sample.rowsWhilePaging : List (List (List Mutation)) :=
  let row (document : String) : Mutation := .insert ⟨document, ["n"], "n", some "v", none, none, 1⟩
  [[[row "a", row "b", row "d"]], [[.delete ⟨"a", [], .subtree, 2⟩], [row "c"]], [], []]

theorem pageThrough_exact_passing :
    Engine.Accepted Select.scan ∧ 0 < 1 ∧ ({} : MemoryStore).failure = none ∧
      (({} : MemoryStore).table ⟨"k", "t"⟩).Ordered ∧
      (({} : MemoryStore).applyEach ⟨"k", "t"⟩ (Sample.rowsWhilePaging.take 2).flatten).live
        ⟨"k", "t"⟩ "a" = [] ∧
      ∃ visits, pageThrough ⟨"k", "t"⟩ .scan 1 Sample.rowsWhilePaging none {} =
          .ok (visits.map fun visit => (visit.table, visit.page .scan)) ∧
        (visits.map fun visit => ((visit.page .scan).rows.map (·.document), visit.paging.isSome)) =
          [(["a"], true), (["b"], true), (["c"], true), (["d"], false)] ∧
        Visit.Finished visits ∧
        ((visits.flatMap (·.found)).Pairwise fun a b => b.1.isAfter a.1 = true) ∧
        ∀ entry, (∀ visit ∈ visits,
            entry ∈ visit.table.entries ∧ Table.answers .scan entry = true) →
          (visits.flatMap (·.found)).count entry = 1 := by
  have accepted : Engine.Accepted Select.scan := Engine.accepted_of_allowed rfl
  have ordered : (({} : MemoryStore).table ⟨"k", "t"⟩).Ordered := ⟨.nil, List.forall_mem_nil _⟩
  obtain ⟨_, _, ⟨visits, followed, ascending, _, _, _, _, once, _⟩, _⟩ :=
    pageThrough_exact ⟨"k", "t"⟩ .scan accepted 1 Nat.one_pos {} rfl ordered Sample.rowsWhilePaging
  have pages : (pageThrough ⟨"k", "t"⟩ .scan 1 Sample.rowsWhilePaging none {}).toOption.map
      (fun turns => turns.map fun turn => (turn.2.rows.map (·.document), turn.2.paging.isSome)) =
      some [(["a"], true), (["b"], true), (["c"], true), (["d"], false)] := by decide +kernel
  rw [followed] at pages
  have told := List.map_map.symm.trans (Option.some.inj pages)
  have finished : Visit.Finished visits := by
    have ends := congrArg List.getLast? told
    rw [List.getLast?_map] at ends
    obtain ⟨visit, last, ended⟩ := Option.map_eq_some_iff.mp ends
    have none : visit.paging.isSome = false := congrArg Prod.snd ended
    exact ⟨visit, last, by simpa using none⟩
  exact ⟨accepted, Nat.one_pos, rfl, ordered, by decide +kernel, visits, followed, told, finished,
    ascending, once finished⟩

end MemoryStore

end LeafStore
