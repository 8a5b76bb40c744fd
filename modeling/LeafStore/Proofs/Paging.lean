import LeafStore.Proofs.SearchAnswers
/-!
Paging of searches. A client that follows the tokens of pages is given each document that it could
have been given at every one of its requests, and no document twice, whatever is written meanwhile.
-/
namespace LeafStore

open Found (ofMatching)

namespace Query

variable {width : Nat} {t : Table}

def documents (q : Query) (t : Table) : List (String × Json) :=
  (t.matching q).map fun document => (document.1, q.value document)

@[simp] theorem documents_ids (q : Query) (t : Table) : (q.documents t).map (·.1) = t.ids q := by
  rw [documents, List.map_map]
  rfl

theorem documents_ascending (wellFormed : t.WellFormed width) (q : Query) :
    Sorted.Ascending (q.documents t) :=
  List.pairwise_map.mpr (wellFormed.ordered.leaves_ascending.filter _)

def order : KeyOrder String := .ofLT String.lt_irrefl String.lt_trans

theorem ascends_iff {documents : List (String × Json)} :
    order.Ascends Prod.fst documents ↔ Sorted.Ascending documents :=
  KeyOrder.ascends_ofLT String.lt_irrefl String.lt_trans Prod.fst

theorem documents_past (filter : Filter) (fields : Option Projection) (size : Nat)
    (after : Option String) (t : Table) : Query.documents ⟨filter, fields, size, after⟩ t =
      order.past Prod.fst after (Query.documents ⟨filter, fields, size, none⟩ t) := by
  have whole : ∀ after : Option String, Query.documents ⟨filter, fields, size, after⟩ t =
      order.past Prod.fst after ((t.leaves.filter
        (Query.mk filter fields size none).hits).map fun document =>
          (document.1, (Query.mk filter fields size none).value document)) := by
    intro after
    rw [KeyOrder.past, List.filter_map, List.filter_filter]
    rfl
  rw [whole after, whole none, KeyOrder.past_none]

theorem page_cases (q : Query) (positive : 0 < q.pageSize) (t : Table) :
    (q.documents t).length ≤ q.pageSize ∧
        (ofMatching q (t.matching q)).page = ⟨q.documents t, none⟩ ∨
      ∃ first last rest, q.documents t = first ++ last :: rest ∧ rest ≠ [] ∧
        first.length + 1 = q.pageSize ∧
        (ofMatching q (t.matching q)).page =
          ⟨first ++ [last], some (PageToken.encode last.1)⟩ := by
  have length : (q.documents t).length = (t.matching q).length := List.length_map ..
  have taken : (ofMatching q (t.matching q)).documents = (q.documents t).take q.pageSize :=
    List.map_take
  rcases take_cases q.pageSize positive (q.documents t) with
    few | ⟨first, last, rest, split, others, full, cut⟩
  · have done : (ofMatching q (t.matching q)).more = false :=
      decide_eq_false (Nat.not_lt.mpr (length ▸ few))
    rw [Found.page, taken, done, List.take_of_length_le few]
    exact .inl ⟨few, rfl⟩
  · have longer : q.pageSize < (q.documents t).length := by
      have past := List.length_pos_iff.mpr others
      rw [split, List.length_append, List.length_cons]
      omega
    have more : (ofMatching q (t.matching q)).more = true := decide_eq_true (length ▸ longer)
    refine .inr ⟨first, last, rest, split, others, full, ?_⟩
    rw [Found.page, taken, more, cut, List.getLast?_concat]
    rfl

theorem page_of_fits {q : Query} (positive : 0 < q.pageSize)
    (fits : (q.documents t).length ≤ q.pageSize) :
    (ofMatching q (t.matching q)).page = ⟨q.documents t, none⟩ := by
  rcases q.page_cases positive t with ⟨_, whole⟩ | ⟨first, last, rest, split, more, full, _⟩
  · exact whole
  · have length := congrArg List.length split
    have others := List.length_pos_iff.mpr more
    rw [List.length_append, List.length_cons] at length
    omega

theorem documents_resumed (wellFormed : t.WellFormed width) {filter : Filter}
    {fields : Option Projection} {size : Nat} {after : Option String}
    {first rest : List (String × Json)} {last : String × Json}
    (split : Query.documents ⟨filter, fields, size, after⟩ t = first ++ last :: rest) :
    Query.documents ⟨filter, fields, size, some last.1⟩ t = rest := by
  rw [documents_past] at split ⊢
  exact (ascends_iff.mpr (documents_ascending wellFormed _)).past_resumed split

theorem length_kept (cells : String → List Cell) (keep : Leaves → Bool) {entries : Table}
    (filled : ∀ entry ∈ entries, keep (entry.1, cells entry.1) = true → 1 ≤ entry.2.rows.length) :
    ((entries.map fun entry => (entry.1, cells entry.1)).filter keep).length ≤
      entries.rowCount := by
  induction entries with
  | nil => exact Nat.le_refl _
  | cons entry rest ih =>
    obtain ⟨here, others⟩ := List.forall_mem_cons.mp filled
    have rows : Table.rowCount (entry :: rest) = entry.2.rows.length + Table.rowCount rest := by
      simp [Table.rowCount]
    have less := ih others
    rw [rows, List.map_cons, List.filter_cons]
    split
    · rename_i kept
      have one := here kept
      rw [List.length_cons]
      omega
    · omega

theorem documents_length (wellFormed : t.WellFormed width) (q : Query) :
    (q.documents t).length ≤ t.rowCount := by
  rw [documents, List.length_map]
  refine length_kept t.cells _ fun entry there found => ?_
  refine Nat.one_le_iff_ne_zero.mpr fun none => ?_
  have empty : t.live entry.1 = [] := by
    rw [← wellFormed.ordered.live_of_mem there, Partition.live, List.eq_nil_of_length_eq_zero none]
    rfl
  have hit : q.hits (entry.1, t.cells entry.1) = true := (Bool.and_eq_true_iff.mp found).2
  rw [hits, (wellFormed.live_eq_nil_iff entry.1).mp empty] at hit
  cases hit

end Query

/-- One request of a client: the state that it finds, and the page that answers it. -/
structure Turn where
  store : MemoryStore
  page : SearchPage

namespace Turn

def ids (turn : Turn) : List String := turn.page.documents.map (·.1)

def Finished (turns : List Turn) : Prop :=
  ∃ turn, turns.getLast? = some turn ∧ turn.page.pageState = none

variable {width : Nat} {name : TableName} {filter : Filter} {fields : Option Projection}
  {size : Nat} {after : Option String} {turns : List Turn}

variable (name filter fields size) in
/-- What a search is to find at each request, by id. -/
def feed : Feed Turn (String × Json) String where
  listing turn := Query.documents ⟨filter, fields, size, none⟩ (turn.store.table name)
  given := (·.page.documents)
  token := (·.page.pageState)
  key := Prod.fst
  order := Query.order

@[simp] theorem feed_left (turn : Turn) : (feed name filter fields size).left after turn =
    Query.documents ⟨filter, fields, size, after⟩ (turn.store.table name) :=
  (Query.documents_past ..).symm

section Page

variable {store : MemoryStore} (wellFormed : (store.table name).WellFormed width)
include wellFormed

theorem feed_ascends (page : SearchPage) :
    (feed name filter fields size).order.Ascends Prod.fst
      ((feed name filter fields size).listing ⟨store, page⟩) :=
  Query.ascends_iff.mpr (Query.documents_ascending wellFormed _)

theorem run_last
    (few : (Query.documents ⟨filter, fields, size, after⟩ (store.table name)).length ≤ size) :
    (feed name filter fields size).Run size after
      [⟨store, ⟨Query.documents ⟨filter, fields, size, after⟩ (store.table name), none⟩⟩] :=
  .last (feed_ascends wellFormed _) (by rwa [feed_left]) (feed_left ⟨store, ⟨_, none⟩⟩).symm rfl

theorem run_next {first rest : List (String × Json)} {last : String × Json}
    (split : Query.documents ⟨filter, fields, size, after⟩ (store.table name) =
      first ++ last :: rest) (more : rest ≠ []) (full : first.length + 1 = size)
    (others : (feed name filter fields size).Run size (some last.1) turns) :
    (feed name filter fields size).Run size after
      (⟨store, ⟨first ++ [last], some (PageToken.encode last.1)⟩⟩ :: turns) :=
  .next (feed_ascends wellFormed _) ((feed_left ⟨store, ⟨_, _⟩⟩).trans split) more full rfl
    (Option.some_ne_none _) others

end Page

theorem ids_ascending (h : (feed name filter fields size).Run size after turns) :
    (turns.flatMap ids).Pairwise (· < ·) := by
  have ascends := Query.ascends_iff.mp h.ascends.1
  exact List.map_flatMap ▸ List.pairwise_map.mpr ascends

theorem complete (h : (feed name filter fields size).Run size none turns)
    (wellFormed : ∀ turn ∈ turns, (turn.store.table name).WellFormed width)
    (finished : Finished turns) {id : String}
    (meets : ∀ turn ∈ turns, turn.store.Meets name ⟨filter, fields, size, none⟩ id) :
    id ∈ turns.flatMap ids := by
  obtain ⟨document, given, rfl⟩ := h.complete finished (P := (·.1 = id)) (fun _ named => named) rfl
    fun turn there => by
      have found := (MemoryStore.mem_ids (wellFormed turn there) _ id).mpr (meets turn there)
      rw [← Query.documents_ids] at found
      exact List.mem_map.mp found
  exact List.map_flatMap ▸ List.mem_map_of_mem given

end Turn

namespace Service

variable {s : Service MemoryStore} {name : TableName} {filter : Filter} {fields : Option Projection}
  {size : Nat}

/-- A client that follows the tokens of pages from a token on, with writes that land before each of
its requests. It stops at a page without a token, or when no round is left. -/
def follow (s : Service MemoryStore) (name : TableName) (filter : Filter)
    (fields : Option Projection) (size : Nat) :
    (rounds : List (List WriteCall)) → (token : Option String) → MemoryStore →
    Except Error (List Turn)
  | [], _, _ => .ok []
  | landing :: rounds, token, store => do
    let found := s.writeAll landing store
    let (answer, left) := (s.searchAt name filter fields size token).run.run found
    let page ← answer
    match page.pageState with
    | none => pure [⟨found, page⟩]
    | some next => do
      let others ← s.follow name filter fields size rounds (some next) left
      pure (⟨found, page⟩ :: others)

variable (name filter fields) in
/-- Every request of a client is answered, with the documents that follow the page before. -/
theorem follow_pages (memory : s.store = MemoryStore.rowStore) (positive : 0 < size)
    (rounds : List (List WriteCall)) {before : List WriteCall} {store : MemoryStore}
    (holds : s.Holds before store) (distinct : DistinctTimes (before ++ rounds.flatten))
    (after : Option String) :
    ∃ turns, s.follow name filter fields size rounds (after.map PageToken.encode) store = .ok turns ∧
      (Turn.feed name filter fields size).Run size after turns ∧
      (∀ turn ∈ turns, (turn.store.table name).WellFormed s.config.maxDepth) ∧
      (Turn.Finished turns ∨ turns.length = rounds.length) ∧
      ((∀ landing ∈ rounds, landing = []) →
        ∀ turn ∈ turns, turn.store.table name = store.table name) := by
  induction rounds generalizing before store after with
  | nil =>
    exact ⟨[], rfl, .stopped after, List.forall_mem_nil _, .inr rfl, fun _ => List.forall_mem_nil _⟩
  | cons landing rounds ih =>
    rw [List.flatten_cons, ← List.append_assoc] at distinct
    have landed := holds.writeAll memory landing
    have wellFormed := landed.wellFormed (fun a ha b hb => distinct a (List.mem_append_left _ ha) b
      (List.mem_append_left _ hb)) name
    have answered : (s.searchAt name filter fields size (after.map PageToken.encode)).Reads
        (s.writeAll landing store) _ := reads_searchAt memory wellFormed PageToken.mapM_decode_encode
    obtain ⟨selects, run⟩ := answered (s.writeAll landing store) rfl landed.idle
    have quiet : (∀ round ∈ landing :: rounds, round = []) → s.writeAll landing store = store := by
      intro none
      rw [none landing (List.mem_cons_self ..)]
      rfl
    rw [follow]
    simp only [run]
    rcases Query.page_cases ⟨filter, fields, size, after⟩ positive
        ((s.writeAll landing store).table name) with
      ⟨few, all⟩ | ⟨first, last, rest, split, more, full, part⟩
    · rw [all]
      refine ⟨_, rfl, Turn.run_last wellFormed few, List.forall_mem_singleton.mpr wellFormed,
        .inl ⟨_, rfl, rfl⟩, fun none => ?_⟩
      exact List.forall_mem_singleton.mpr (by rw [quiet none])
    · -- The read has left the tables as they were, and the next writes land there.
      have left : s.Holds (before ++ landing)
          { s.writeAll landing store with selects := selects } := ⟨landed.idle, landed.tables⟩
      obtain ⟨turns, followed, run, formed, long, steady⟩ := ih left distinct (some last.1)
      rw [part]
      refine ⟨⟨s.writeAll landing store, ⟨first ++ [last], some (PageToken.encode last.1)⟩⟩ :: turns, ?_,
        Turn.run_next wellFormed split more full run, List.forall_mem_cons.mpr ⟨wellFormed, formed⟩,
        ?_, fun none => ?_⟩
      · show (s.follow name filter fields size rounds (some (PageToken.encode last.1)) _ >>= _) = _
        rw [show s.follow name filter fields size rounds (some (PageToken.encode last.1))
          { s.writeAll landing store with selects := selects } = _ from followed]
        rfl
      · refine long.imp (Iff.mpr ?_) (congrArg Nat.succ)
        exact (Turn.feed name filter fields size).finished_cons (Option.some_ne_none _)
      · have same := steady fun round there => none round (List.mem_cons_of_mem _ there)
        refine List.forall_mem_cons.mpr ⟨by rw [quiet none], fun turn there => ?_⟩
        rw [same turn there]
        show (s.writeAll landing store).table name = _
        rw [quiet none]

theorem prepareSearch_resumed {subject : Subject} {request : SearchRequest}
    (ok : s.prepareSearch subject name request = .ok ⟨filter, fields, size, none⟩) :
    request.pageState = none ∧ ∀ after : Option String,
      s.prepareSearch subject name { request with pageState := after.map PageToken.encode } =
        .ok ⟨filter, fields, size, after⟩ := by
  obtain ⟨_, mayRead, ok⟩ := bind_eq_ok ok
  obtain ⟨found, filtered, ok⟩ := bind_eq_ok ok
  obtain ⟨asked, projected, ok⟩ := bind_eq_ok ok
  obtain ⟨start, token, same⟩ := bind_eq_ok (mapError_eq_ok ok)
  cases same
  constructor
  · cases state : request.pageState with
    | none => rfl
    | some text =>
      rw [state, Option.mapM_some] at token
      obtain ⟨_, _, none⟩ := map_eq_ok token
      cases none
  · intro after
    rw [prepareSearch, mayRead, filtered, projected]
    show (Query.resuming (found.getD []) fields (s.config.pageSize request.pageSize)
      (after.map PageToken.encode)).mapError _ = _
    rw [Query.resuming_encode]
    rfl

theorem reads_searchFrom (memory : s.store = MemoryStore.rowStore) {base : MemoryStore}
    (wellFormed : (base.table name).WellFormed s.config.maxDepth) (positive : 0 < size)
    {subject : Subject} {request : SearchRequest}
    (prepared : ∀ after : Option String,
      s.prepareSearch subject name { request with pageState := after.map PageToken.encode } =
        .ok ⟨filter, fields, size, after⟩) (pages : Nat) (after : Option String)
    (enough : (Query.documents ⟨filter, fields, size, after⟩ (base.table name)).length < pages) :
    ∃ found, (s.searchFrom subject name request pages (after.map PageToken.encode)).Reads base
        (.ok found) ∧
      found.flatMap (·.documents) = Query.documents ⟨filter, fields, size, after⟩ (base.table name) := by
  induction pages generalizing after with
  | zero => exact absurd enough (Nat.not_lt_zero _)
  | succ pages ih =>
    have searched : (s.search subject name
        { request with pageState := after.map PageToken.encode }).Reads base
          (.ok (ofMatching ⟨filter, fields, size, after⟩
            ((base.table name).matching ⟨filter, fields, size, after⟩)).page) :=
      reads_search memory wellFormed (prepared after)
    rcases Query.page_cases ⟨filter, fields, size, after⟩ positive (base.table name) with
      ⟨_, all⟩ | ⟨first, last, rest, split, _, _, part⟩
    · rw [all] at searched
      exact ⟨_, searched.bind_ok (Access.reads_pure _), List.flatMap_singleton ..⟩
    · have rests := Query.documents_resumed wellFormed split
      -- The next page starts after a document, so fewer are left for the rounds that are left.
      have fewer : (Query.documents ⟨filter, fields, size, some last.1⟩ (base.table name)).length <
          pages := by
        rw [rests]
        rw [split, List.length_append, List.length_cons] at enough
        omega
      obtain ⟨found, others, whole⟩ := ih (some last.1) fewer
      rw [part] at searched
      refine ⟨⟨first ++ [last], some (PageToken.encode last.1)⟩ :: found, searched.bind_ok ?_, ?_⟩
      · exact Access.Reads.bind_ok (x := s.searchFrom subject name request pages
          (some (PageToken.encode last.1))) others (Access.reads_pure _)
      · rw [List.flatMap_cons, whole, rests, split]
        exact (List.append_cons first last rest).symm

theorem reads_searchAll (memory : s.store = MemoryStore.rowStore) {base : MemoryStore}
    (wellFormed : (base.table name).WellFormed s.config.maxDepth) (positive : 0 < size)
    {subject : Subject} {request : SearchRequest}
    (prepared : s.prepareSearch subject name request = .ok ⟨filter, fields, size, none⟩) :
    (s.searchAll subject name request).Reads base
      (.ok (Query.documents ⟨filter, fields, size, none⟩ (base.table name))) := by
  obtain ⟨start, resumed⟩ := prepareSearch_resumed prepared
  obtain ⟨found, read, whole⟩ := reads_searchFrom memory wellFormed positive resumed
    ((base.table name).rowCount + 1) none
    (Nat.lt_succ_of_le (Query.documents_length wellFormed _))
  have pages : (s.searchPages subject name request).Reads base (.ok found) := by
    unfold searchPages
    refine Access.reads_get fun state same => ?_
    have bound : s.store.pageBound name state = (base.table name).rowCount + 1 := by
      rw [memory, ← MemoryStore.table_congr same name]
      rfl
    rw [bound, start]
    exact read
  exact pages.bind_ok ((Access.reads_pure _).congr (congrArg Except.ok whole))

/-- A client that follows the tokens of pages is given ids in ascending order and no more on a page
than it asked for, and if it is not stopped early every document that it could have been given at
each of its requests, once. If nothing is written meanwhile it is given what one large page holds,
and so is a caller that asks for all pages. -/
theorem paging_exact (s : Service MemoryStore) (memory : s.store = MemoryStore.rowStore)
    (writes : List WriteCall) (rounds : List (List WriteCall))
    (distinct : DistinctTimes (writes ++ rounds.flatten)) (name : TableName) (filter : Filter)
    (fields : Option Projection) (size : Nat) (positive : 0 < size) :
    (∃ turns, s.follow name filter fields size rounds none (s.after writes) = .ok turns ∧
      (turns.flatMap Turn.ids).Pairwise (· < ·) ∧
      (∀ turn ∈ turns, turn.page.documents.length ≤ size) ∧
      (Turn.Finished turns ∨ turns.length = rounds.length) ∧
      (Turn.Finished turns → ∀ id,
        (∀ turn ∈ turns, turn.store.Meets name ⟨filter, fields, size, none⟩ id) →
          (turns.flatMap Turn.ids).count id = 1)) ∧
    ∃ all : List (String × Json),
      (∀ large, 0 < large → all.length ≤ large →
        ((s.engine.search name ⟨filter, fields, large, none⟩).run.run (s.after writes)).1 =
          .ok ⟨all, none⟩) ∧
      (∀ n, all.length < n → ∃ turns,
        s.follow name filter fields size (List.replicate n []) none (s.after writes) = .ok turns ∧
        Turn.Finished turns ∧ turns.flatMap (·.page.documents) = all) ∧
      ∀ subject request,
        s.prepareSearch subject name request = .ok ⟨filter, fields, size, none⟩ →
          ((s.searchAll subject name request).run.run (s.after writes)).1 = .ok all := by
  have holds := after_holds memory writes
  have wellFormed := holds.wellFormed (fun a ha b hb => distinct a (List.mem_append_left _ ha) b
    (List.mem_append_left _ hb)) name
  constructor
  · obtain ⟨turns, followed, run, formed, long, _⟩ :=
      follow_pages name filter fields memory positive rounds holds distinct none
    have ascending := Turn.ids_ascending run
    refine ⟨turns, followed, ascending, run.short, long, fun finished id meets => ?_⟩
    have nodup : (turns.flatMap Turn.ids).Nodup := ascending.imp Sorted.ne_of_lt
    rw [nodup.count, if_pos (Turn.complete run formed finished meets)]
  · refine ⟨Query.documents ⟨filter, fields, size, none⟩ ((s.after writes).table name), ?_, ?_, ?_⟩
    · intro large some fits
      rw [(Engine.reads_search (e := s.engine) memory wellFormed _).answer_eq holds.idle]
      exact congrArg Except.ok (Query.page_of_fits (q := ⟨filter, fields, large, none⟩) some fits)
    · intro n enough
      have quiet : ∀ landing ∈ List.replicate n ([] : List WriteCall), landing = [] := fun _ there =>
        List.eq_of_mem_replicate there
      have still : DistinctTimes (writes ++ (List.replicate n ([] : List WriteCall)).flatten) := by
        rw [List.flatten_eq_nil_iff.mpr quiet, List.append_nil]
        exact fun a ha b hb => distinct a (List.mem_append_left _ ha) b (List.mem_append_left _ hb)
      obtain ⟨turns, followed, run, _, long, same⟩ :=
        follow_pages name filter fields memory positive _ holds still none
      obtain ⟨_, whole, few⟩ := run.steady fun turn there =>
        congrArg (Query.documents ⟨filter, fields, size, none⟩) (same quiet turn there)
      rw [KeyOrder.past_none] at whole few
      have finished : Turn.Finished turns := by
        rcases long with finished | long
        · exact finished
        · refine few.resolve_right fun few => ?_
          rw [long, List.length_replicate] at few
          exact Nat.not_le.mpr enough few
      exact ⟨turns, followed, finished, whole finished⟩
    · intro subject request prepared
      exact (reads_searchAll memory wellFormed positive prepared).answer_eq holds.idle

/-- Three documents with a flag that is set, of which one is deleted while a client reads pages of one
document, and another one is written. -/
def Sample.flags : List WriteCall :=
  [⟨⟨"", ""⟩, ⟨"k", "t"⟩, "a", [], Path.valid_root, .put "\x7b\"on\":true\x7d", 1⟩,
    ⟨⟨"", ""⟩, ⟨"k", "t"⟩, "b", [], Path.valid_root, .put "\x7b\"on\":true\x7d", 2⟩,
    ⟨⟨"", ""⟩, ⟨"k", "t"⟩, "c", [], Path.valid_root, .put "\x7b\"on\":true\x7d", 3⟩]

def Sample.writesBetweenPages : List (List WriteCall) :=
  [[], [⟨⟨"", ""⟩, ⟨"k", "t"⟩, "b", [], Path.valid_root, .delete, 4⟩,
    ⟨⟨"", ""⟩, ⟨"k", "t"⟩, "d", [], Path.valid_root, .put "\x7b\"on\":true\x7d", 5⟩], [], []]

theorem paging_exact_flags :
    (sample.after (Sample.flags ++ Sample.writesBetweenPages.flatten)).live ⟨"k", "t"⟩ "b" = [] ∧
      ∃ turns,
        sample.follow ⟨"k", "t"⟩ Sample.flagSet none 1 Sample.writesBetweenPages none
          (sample.after Sample.flags) = .ok turns ∧
        (turns.flatMap Turn.ids).Pairwise (· < ·) ∧
        (∀ turn ∈ turns, turn.page.documents.length ≤ 1) ∧
        (Turn.Finished turns → ∀ id,
          (∀ turn ∈ turns, turn.store.Meets ⟨"k", "t"⟩ ⟨Sample.flagSet, none, 1, none⟩ id) →
            (turns.flatMap Turn.ids).count id = 1) := by
  obtain ⟨⟨turns, followed, ascending, short, _, once⟩, _⟩ :=
    paging_exact sample rfl Sample.flags Sample.writesBetweenPages (.of_nodup (by decide))
      ⟨"k", "t"⟩ Sample.flagSet none 1 Nat.one_pos
  exact ⟨by decide +kernel, turns, followed, ascending, short, once⟩

end Service

end LeafStore
