import LeafStore.Proofs.Histories
import LeafStore.Proofs.PageTokens
import LeafStore.Proofs.Searches
/-!
Answers of a search. A page holds the next documents that the filter accepts after the one that its
token names, in the order of their ids, and says whether there are more.
-/
namespace LeafStore

open Found (ofMatching)

/-- A search is to find a document: it has rows, comes after the page before, and the filter accepts
its leaves. -/
def MemoryStore.Meets (store : MemoryStore) (name : TableName) (q : Query) (id : String) : Prop :=
  store.live name id ≠ [] ∧ q.after.all (· < id) = true ∧
    ∃ cells, (store.live name id).mapM Row.decode = .ok cells ∧ q.filter.accepts cells = true

structure Answer (store : MemoryStore) (name : TableName) (q : Query) (ids : List String)
    (page : SearchPage) : Prop where
  documents : page.documents.map (·.1) = ids.take q.pageSize
  values : ∀ document ∈ page.documents,
    Assembly.ofRows Path.root q.fields (store.live name document.1) = .ok (some document.2)
  token : page.pageState =
    if q.pageSize < ids.length then (ids.take q.pageSize).getLast?.map PageToken.encode else none

namespace Answer

variable {store : MemoryStore} {name : TableName} {q : Query} {ids : List String}
  {page : SearchPage}

theorem more_iff (h : Answer store name q ids page) (positive : 0 < q.pageSize) :
    page.pageState.isSome = true ↔ q.pageSize < ids.length := by
  rw [h.token]
  constructor
  · intro some
    by_cases more : q.pageSize < ids.length
    · exact more
    · rw [if_neg more] at some
      cases some
  · intro more
    have filled : ids.take q.pageSize ≠ [] := by
      intro none
      have short := congrArg List.length none
      rw [List.length_take, List.length_nil] at short
      omega
    rw [if_pos more, Option.isSome_map, List.getLast?_isSome]
    exact filled

end Answer

namespace Table

variable {width : Nat} {t : Table}

def ids (t : Table) (q : Query) : List String := (t.matching q).map (·.1)

theorem WellFormed.ids_ascending (h : t.WellFormed width) (q : Query) :
    (t.ids q).Pairwise (· < ·) :=
  List.pairwise_map.mpr (h.ordered.leaves_ascending.filter _)

end Table

namespace MemoryStore

variable {store : MemoryStore} {name : TableName} {width : Nat}

theorem mem_ids (wellFormed : (store.table name).WellFormed width) (q : Query) (id : String) :
    id ∈ (store.table name).ids q ↔ store.Meets name q id := by
  have found : id ∈ (store.table name).ids q ↔
      (id, (store.table name).cells id) ∈ (store.table name).matching q := by
    refine Iff.trans List.mem_map ⟨?_, fun there => ⟨_, there, rfl⟩⟩
    rintro ⟨document, there, rfl⟩
    have cells := ((wellFormed.mem_matching q document).mp there).1
    rwa [← cells]
  have filled : store.live name id ≠ [] ↔ ((store.table name).cells id).isEmpty = false := by
    rw [List.isEmpty_eq_false_iff]
    exact not_congr (wellFormed.live_eq_nil_iff id)
  rw [found, wellFormed.mem_matching, Meets, filled, Query.hits]
  constructor
  · rintro ⟨_, after, hit⟩
    obtain ⟨some, accepted⟩ := Bool.and_eq_true_iff.mp hit
    exact ⟨by simpa using some, after, _, wellFormed.decode_live id, accepted⟩
  · rintro ⟨some, after, cells, decoded, accepted⟩
    have same : cells = (store.table name).cells id := by
      have read := wellFormed.decode_live id
      rw [MemoryStore.live] at decoded
      rw [decoded] at read
      exact Except.ok.inj read
    rw [same] at accepted
    exact ⟨rfl, after, by simp [some, accepted]⟩

theorem page_answers (wellFormed : (store.table name).WellFormed width) (q : Query) :
    Answer store name q ((store.table name).ids q)
      (ofMatching q ((store.table name).matching q)).page where
  documents := by
    simp only [Found.page, ofMatching, List.map_map, Table.ids, ← List.map_take]
    rfl
  values := by
    intro document there
    obtain ⟨leaves, taken, rfl⟩ := List.mem_map.mp there
    obtain ⟨cells, _, hit⟩ :=
      (wellFormed.mem_matching q leaves).mp (List.mem_of_mem_take taken)
    have filled : leaves.2 ≠ [] := by
      intro none
      simp [Query.hits, none] at hit
    have consistent : Path.Consistent (leaves.2.map (·.path)) := by
      rw [cells]
      exact wellFormed.consistent leaves.1
    rw [Assembly.ofRows, MemoryStore.live, wellFormed.decode_live, ← cells]
    exact Found.assemble_root q consistent filled
  token := by
    simp only [Found.page, ofMatching, Table.ids, List.length_map, ← List.map_take,
      List.getLast?_map, Option.map_map, decide_eq_true_eq]
    rfl

end MemoryStore

namespace Query

variable {filter : Filter} {fields : Option Projection} {size : Nat} {after : Option String}

/-- A search goes on after the document that its token names, whatever the padding of the token. -/
theorem resuming_eq_ok {token : Option String} (decoded : token.mapM PageToken.decode = .ok after) :
    Query.resuming filter fields size token = .ok ⟨filter, fields, size, after⟩ := by
  cases token with
  | none =>
    cases decoded
    rfl
  | some text =>
    obtain ⟨id, named, same⟩ := map_eq_ok decoded
    have read : Query.readToken text = .ok id := by
      rw [Query.readToken, named]
      rfl
    rw [Query.resuming, Option.mapM_some, read, ← same]
    rfl

theorem resuming_encode : Query.resuming filter fields size (after.map PageToken.encode) =
    .ok ⟨filter, fields, size, after⟩ := resuming_eq_ok PageToken.mapM_decode_encode

end Query

namespace Service

variable {s : Service MemoryStore} {name : TableName} {filter : Filter} {fields : Option Projection}
  {size : Nat}

def searchAt (s : Service MemoryStore) (name : TableName) (filter : Filter)
    (fields : Option Projection) (size : Nat) (token : Option String) :
    Access MemoryStore SearchPage := do
  let q ← Access.filter (Query.resuming filter fields size token)
  s.engine.search name q

section Token

variable {token after : Option String}

theorem reads_searchAt (memory : s.store = MemoryStore.rowStore) {base : MemoryStore}
    (wellFormed : (base.table name).WellFormed s.config.maxDepth)
    (decoded : token.mapM PageToken.decode = .ok after) :
    (s.searchAt name filter fields size token).Reads base
      (.ok (ofMatching ⟨filter, fields, size, after⟩
        ((base.table name).matching ⟨filter, fields, size, after⟩)).page) := by
  rw [searchAt, Query.resuming_eq_ok decoded]
  exact (Access.reads_ofExcept _).bind_ok (Engine.reads_search (e := s.engine) memory wellFormed _)

theorem reads_search (memory : s.store = MemoryStore.rowStore) {base : MemoryStore}
    (wellFormed : (base.table name).WellFormed s.config.maxDepth) {subject : Subject}
    {request : SearchRequest} {q : Query} (prepared : s.prepareSearch subject name request = .ok q) :
    (s.search subject name request).Reads base
      (.ok (ofMatching q ((base.table name).matching q)).page) := by
  rw [search, prepared]
  exact (Access.reads_ofExcept _).bind_ok (Engine.reads_search (e := s.engine) memory wellFormed _)

theorem prepareSearch_eq_ok {subject : Subject} {request : SearchRequest}
    (granted : s.checkRead subject name = .ok ())
    (filtered : (s.readFilter request.filter).map (·.getD []) = .ok filter)
    (projected : readFields request.fields = .ok fields)
    (decoded : request.pageState.mapM PageToken.decode = .ok after) :
    s.prepareSearch subject name request =
      .ok ⟨filter, fields, s.config.pageSize request.pageSize, after⟩ := by
  obtain ⟨found, read, same⟩ := map_eq_ok filtered
  rw [prepareSearch, granted, read, projected]
  show (Query.resuming (found.getD []) fields _ _).mapError _ = _
  rw [same, Query.resuming_eq_ok decoded]
  rfl

end Token

/-- After any writes at distinct times a search finds exactly the documents that meet its filter and
come after the one that its token names. It finds the same whether the whole table is scanned or
candidates are looked at, and this is the answer to a request for it. -/
theorem search_answers (s : Service MemoryStore) (memory : s.store = MemoryStore.rowStore)
    (writes : List WriteCall) (distinct : DistinctTimes writes) (name : TableName) (filter : Filter)
    (fields : Option Projection) (size : Nat) (positive : 0 < size) (token after : Option String)
    (decoded : token.mapM PageToken.decode = .ok after) :
    ∃ ids page, ids.Pairwise (· < ·) ∧
      (∀ id, id ∈ ids ↔ (s.after writes).Meets name ⟨filter, fields, size, after⟩ id) ∧
      Answer (s.after writes) name ⟨filter, fields, size, after⟩ ids page ∧
      (page.pageState.isSome = true ↔ size < ids.length) ∧
      ((s.searchAt name filter fields size token).run.run (s.after writes)).1 = .ok page ∧
      (∀ subject request, s.checkRead subject name = .ok () →
        (s.readFilter request.filter).map (·.getD []) = .ok filter →
        readFields request.fields = .ok fields → s.config.pageSize request.pageSize = size →
        request.pageState = token →
          ((s.search subject name request).run.run (s.after writes)).1 = .ok page) ∧
      ((s.engine.fullScan name ⟨filter, fields, size, after⟩).run.run (s.after writes)).1.map
        Found.page = .ok page ∧
      (filter.isFullScan = false →
        ((s.engine.candidateSearch name ⟨filter, fields, size, after⟩).run.run
          (s.after writes)).1.map Found.page = .ok page) := by
  have idle := (after_holds memory writes).idle
  have wellFormed := after_wellFormed memory distinct name
  have answers := MemoryStore.page_answers wellFormed ⟨filter, fields, size, after⟩
  refine ⟨_, _, wellFormed.ids_ascending _, MemoryStore.mem_ids wellFormed _, answers,
    answers.more_iff positive, ?_, ?_, ?_, ?_⟩
  · exact (reads_searchAt memory wellFormed decoded).answer_eq idle
  · rintro subject request granted filtered projected rfl rfl
    have prepared := prepareSearch_eq_ok granted filtered projected decoded
    exact (reads_search memory wellFormed prepared).answer_eq idle
  · rw [(Engine.reads_fullScan (e := s.engine) memory wellFormed _).answer_eq idle]
    rfl
  · intro narrow
    rw [(Engine.reads_candidateSearch (e := s.engine) memory wellFormed _ narrow).answer_eq idle]
    rfl

def Sample.flagged : List WriteCall :=
  [⟨⟨"", ""⟩, ⟨"k", "t"⟩, "b", [], Path.valid_root, .put "\x7b\"on\":true\x7d", 1⟩,
    ⟨⟨"", ""⟩, ⟨"k", "t"⟩, "c", [], Path.valid_root, .put "\x7b\"on\":true\x7d", 2⟩,
    ⟨⟨"", ""⟩, ⟨"k", "t"⟩, "a", [], Path.valid_root, .put "null", 3⟩,
    ⟨⟨"", ""⟩, ⟨"k", "t"⟩, "d", [], Path.valid_root, .put "\x7b\"on\":true\x7d", 4⟩]

def Sample.nextFlagged : SearchRequest where
  filter := some "\x7b\"on\":\x7b\"$eq\":true\x7d\x7d"
  pageSize := some 1
  pageState := some "Yg=="

def Sample.flagSet : Filter := [⟨[.exact (.field "on")], [.eq (.bool true)]⟩]

theorem search_answers_flagged :
    Sample.nextFlagged.pageState.mapM PageToken.decode = .ok (some "b") ∧
      ∃ ids page, "b" ∉ ids ∧ "c" ∈ ids ∧ "d" ∈ ids ∧
        Answer (sample.after Sample.flagged) ⟨"k", "t"⟩ ⟨Sample.flagSet, none, 1, some "b"⟩ ids
          page ∧
        ((sample.searchAt ⟨"k", "t"⟩ Sample.flagSet none 1 (some "Yg==")).run.run
          (sample.after Sample.flagged)).1 = .ok page ∧
        ((sample.search ⟨"", ""⟩ ⟨"k", "t"⟩ Sample.nextFlagged).run.run
          (sample.after Sample.flagged)).1 = .ok page := by
  have decoded : Sample.nextFlagged.pageState.mapM PageToken.decode = .ok (some "b") :=
    eq_ok_of_toOption (by decide +kernel)
  obtain ⟨ids, page, _, members, answer, _, searched, requested, _⟩ :=
    search_answers sample rfl Sample.flagged (.of_nodup (by decide)) ⟨"k", "t"⟩ Sample.flagSet none
      1 Nat.one_pos (some "Yg==") (some "b") decoded
  refine ⟨decoded, ids, page, fun there => ?_, (members "c").mpr ?_, (members "d").mpr ?_, answer,
    searched, ?_⟩
  · exact absurd ((members "b").mp there).2.1 (by decide)
  · exact ⟨by decide, rfl, _, by rfl, by rfl⟩
  · exact ⟨by decide, rfl, _, by rfl, by rfl⟩
  · exact requested ⟨"", ""⟩ Sample.nextFlagged rfl (eq_ok_of_toOption (by decide +kernel)) rfl rfl
      rfl

end Service

end LeafStore
