import LeafStore.Proofs.Candidates
import LeafStore.Proofs.Found
import LeafStore.Proofs.Reads
import LeafStore.Proofs.WellFormed
/-!
Searches of the memory store. Whether the whole table is scanned or candidates are read one by one,
a search finds the documents whose leaves the filter accepts.
-/
namespace LeafStore

namespace Table

def leaves (t : Table) : List Leaves := t.map fun entry => (entry.1, t.cells entry.1)

/-- The documents that a search finds, in the order of their ids. -/
def matching (t : Table) (q : Query) : List Leaves :=
  t.leaves.filter fun document => q.after.all (· < document.1) && q.hits document

variable {width : Nat} {t : Table}

theorem WellFormed.sound (h : t.WellFormed width) (id : String) : Leaves.Sound (id, t.cells id) :=
  ⟨h.about id, h.valid id, h.consistent id⟩

theorem Ordered.live_of_mem (h : t.Ordered) {entry : String × Partition} (there : entry ∈ t) :
    entry.2.live = t.live entry.1 := by
  have found := (h.documents.lookup_eq_some_iff entry.1 entry.2).mpr there
  simp [live, partition, found]

theorem WellFormed.mem_matching (h : t.WellFormed width) (q : Query) (document : Leaves) :
    document ∈ t.matching q ↔ document.2 = t.cells document.1 ∧
      q.after.all (· < document.1) = true ∧ q.hits document = true := by
  unfold matching leaves
  rw [List.mem_filter, List.mem_map, Bool.and_eq_true]
  constructor
  · rintro ⟨⟨entry, _, rfl⟩, matched⟩
    exact ⟨rfl, matched⟩
  · rintro ⟨same, matched⟩
    refine ⟨?_, matched⟩
    have filled : t.live document.1 ≠ [] := by
      intro none
      have rows := h.rows document.1
      rw [none, ← same] at rows
      have empty := List.map_eq_nil_iff.mp rows.symm
      simp [Query.hits, empty] at matched
    cases found : t.lookup document.1 with
    | none => exact absurd (by simp [live, partition, found, Partition.live]) filled
    | some p =>
      exact ⟨_, (h.ordered.documents.lookup_eq_some_iff _ _).mp found, Prod.ext rfl same.symm⟩

theorem Ordered.leaves_ascending (h : t.Ordered) : Sorted.Ascending t.leaves :=
  List.pairwise_map.mpr h.documents

theorem WellFormed.rows_of_documents (h : t.WellFormed width) (about : String → Bool) :
    (t.entries.filter fun entry => about entry.1.1).map (·.2) =
      Leaves.rows width ((t.leaves.filter fun document => about document.1).filter
        fun document => !document.2.isEmpty) := by
  have chosen : t.leaves.filter (fun document => about document.1) =
      (t.filter fun entry => about entry.1).map fun entry => (entry.1, t.cells entry.1) := by
    rw [leaves, List.filter_map]
    rfl
  rw [entries_filter, entries_rows, chosen]
  have each : ∀ documents : Table, (∀ entry ∈ documents, entry ∈ t) →
      documents.flatMap (fun entry => entry.2.live) =
        Leaves.rows width ((documents.map fun entry => (entry.1, t.cells entry.1)).filter
          fun document => !document.2.isEmpty) := by
    intro documents
    induction documents with
    | nil => exact fun _ => rfl
    | cons entry rest ih =>
      intro inside
      have here := h.ordered.live_of_mem (inside entry (List.mem_cons_self ..))
      rw [List.flatMap_cons, ih fun other ho => inside other (List.mem_cons_of_mem _ ho), here,
        h.rows, List.map_cons, List.filter_cons]
      cases cells : t.cells entry.1 with
      | nil => rfl
      | cons cell more => rfl
  exact each _ fun entry he => (List.mem_filter.mp he).1

end Table

namespace Engine

open Access (Reads)
open Found (ofMatching)

variable {base : MemoryStore} {e : Engine MemoryStore} {name : TableName} {width : Nat}
  {q : Query}

def scanSelect (q : Query) : Select := { Select.scan with after := q.after }

theorem reads_scanPages (memory : e.store = MemoryStore.rowStore)
    (ordered : (base.table name).Ordered) (pages : Nat) (resume : Option Table.Key)
    (enough : ((base.table name).selected (scanSelect q) resume).length < pages)
    {scan final : Scan}
    (folded : (((base.table name).selected (scanSelect q) resume).map (·.2)).foldlM (Scan.row q) scan =
      .ok final) :
    (e.scanPages name q pages (resume.map Table.Key.token) scan).Reads base (.ok final) := by
  induction pages generalizing resume scan with
  | zero => exact absurd enough (Nat.not_lt_zero _)
  | succ pages ih =>
    have accepted : Accepted (scanSelect q) := accepted_of_allowed rfl
    have page := reads_page base name memory accepted resume
    rw [scanPages]
    rcases Table.cut_cases (e.pageOf (scanSelect q) resume) _ rfl
        ((base.table name).selected (scanSelect q) resume) with
      all | ⟨first, last, rest, split, part⟩
    · have read : Access.Reads base (Access.row (List.foldlM (Scan.row q) scan
          (((base.table name).selected (scanSelect q) resume).map (·.2)))) (.ok final) := by
        rw [folded]
        exact Access.reads_ofExcept _
      rw [all] at page
      refine page.bind_ok (read.bind_ok ?_)
      split <;> exact Access.reads_pure final
    · rw [split, List.map_append, List.map_cons, List.append_cons, List.foldlM_append] at folded
      obtain ⟨middle, before, after⟩ := bind_eq_ok folded
      have read : Access.Reads base (Access.row (List.foldlM (Scan.row q) scan
          ((first ++ [last]).map (·.2)))) (.ok middle) := by
        rw [List.map_append, List.map_singleton, before]
        exact Access.reads_ofExcept _
      rw [part] at page
      refine page.bind_ok (read.bind_ok ?_)
      split
      · rename_i full
        -- The page to be answered is full, so the rows that are left change nothing.
        rw [Scan.foldlM_full full] at after
        cases after
        exact Access.reads_pure _
      · have rests := ordered.selected_after (scanSelect q) resume split
        have fewer : ((base.table name).selected (scanSelect q) (some last.1)).length < pages := by
          rw [split, List.length_append, List.length_cons] at enough
          rw [rests]
          omega
        exact ih (some last.1) fewer (by rw [rests]; exact after)

/-- A scan of the whole table finds the documents that match. -/
theorem reads_fullScan (memory : e.store = MemoryStore.rowStore)
    (wellFormed : (base.table name).WellFormed width) (q : Query) :
    (e.fullScan name q).Reads base (.ok (ofMatching q ((base.table name).matching q))) := by
  have about : ((base.table name).selected (scanSelect q) none).map (·.2) =
      Leaves.rows width (((base.table name).leaves.filter fun document =>
        q.after.all (· < document.1)).filter fun document => !document.2.isEmpty) := by
    have answers : Table.answers (scanSelect q) = fun entry => q.after.all (· < entry.1.1) := by
      funext entry
      simp [Table.answers, scanSelect, Select.scan, Select.accepts]
    rw [Table.selected_eq, KeyOrder.past_none, answers]
    exact wellFormed.rows_of_documents fun id => q.after.all (· < id)
  have found : Scan.outcome q {} (((base.table name).selected (scanSelect q) none).map (·.2)) =
      .ok (ofMatching q ((base.table name).matching q)) := by
    rw [about, Scan.outcome_all]
    · rw [List.filter_filter, List.filter_filter, Table.matching]
      congr 2
      refine List.filter_congr fun document _ => ?_
      unfold Query.hits
      cases document.2.isEmpty <;> cases q.after.all (· < document.1) <;> simp
    · intro document there
      obtain ⟨entry, _, rfl⟩ := List.mem_map.mp (List.mem_filter.mp (List.mem_filter.mp there).1).1
      exact wellFormed.sound entry.1
    · intro document there none
      simp [none] at there
    · exact ((wellFormed.ordered.leaves_ascending.filter _).filter _).imp Sorted.ne_of_lt
  obtain ⟨final, folded, finished⟩ := bind_eq_ok found
  unfold fullScan
  refine Access.reads_get fun state same => ?_
  have enough := enough_pages memory same name (scanSelect q)
  refine (reads_scanPages memory wellFormed.ordered _ none enough folded).bind_ok ?_
  rw [finished]
  exact Access.reads_ofExcept _

theorem reads_leaves (memory : e.store = MemoryStore.rowStore)
    (wellFormed : (base.table name).WellFormed width) (id : String) :
    (e.documentRows name id Path.root >>= decodeRows).Reads base
      (.ok ((base.table name).cells id)) := by
  have rows := reads_documentRows (e := e) memory wellFormed.ordered id Path.root
  have whole : ((base.table name).live id).filter
      ((Select.ofDocument id).below Path.root).accepts =
        ((base.table name).cells id).map (Cell.row width) := by
    rw [wellFormed.rows id]
    refine List.filter_eq_self.mpr fun row there => ?_
    obtain ⟨cell, hc, rfl⟩ := List.mem_map.mp there
    have owner : id = (cell.row width).document := (wellFormed.about id cell hc).symm
    simp [Select.accepts, Select.below, Select.ofDocument, Select.pathTests, Path.columns,
      Path.root, ← owner]
  rw [whole] at rows
  have decoded : (decodeRows (((base.table name).cells id).map (Cell.row width))).Reads base
      (.ok ((base.table name).cells id)) := by
    rw [decodeRows, Row.mapM_decode_rows (wellFormed.valid id)]
    exact Access.reads_ofExcept _
  exact rows.bind_ok decoded

theorem reads_checkCandidates (memory : e.store = MemoryStore.rowStore)
    (wellFormed : (base.table name).WellFormed width) (q : Query) (ids : List String)
    (matching : List Leaves) :
    (e.checkCandidates name q ids (ofMatching q matching)).Reads base
      (.ok (ofMatching q (matching ++
        (ids.map fun id => (id, (base.table name).cells id)).filter q.hits))) := by
  induction ids generalizing matching with
  | nil =>
    rw [List.map_nil, List.filter_nil, List.append_nil]
    exact Access.reads_pure _
  | cons id rest ih =>
    have parts : ((id :: rest).map fun id => (id, (base.table name).cells id)).filter q.hits =
        [(id, (base.table name).cells id)].filter q.hits ++
          (rest.map fun id => (id, (base.table name).cells id)).filter q.hits := by
      rw [← List.filter_append, List.map_cons, List.singleton_append]
    have leaves := reads_leaves (e := e) memory wellFormed id
    have offered := Found.offer_eq q matching (id, (base.table name).cells id)
      (wellFormed.consistent id)
    have looked : Access.Reads base
        (Access.row ((ofMatching q matching).offer q id ((base.table name).cells id)))
        (.ok (ofMatching q (matching ++ [(id, (base.table name).cells id)].filter q.hits))) := by
      rw [offered]
      exact Access.reads_ofExcept _
    rw [checkCandidates, ← bind_assoc, parts, ← List.append_assoc]
    refine leaves.bind_ok (looked.bind_ok ?_)
    split
    · rename_i full
      rw [Found.ofMatching_append full]
      exact Access.reads_pure _
    · exact ih _

def candidateIds (t : Table) (s : Select) : List String :=
  Sorted.ofKeys ((t.entries.filter (Table.answers s)).map fun entry =>
    (s.columnsOf entry.2).document)

theorem reads_candidates (memory : e.store = MemoryStore.rowStore)
    (ordered : (base.table name).Ordered) {s : Select} (accepted : Accepted s) :
    (e.candidates name s).Reads base (.ok (candidateIds (base.table name) s)) := by
  unfold candidates
  refine (reads_all memory accepted ordered).bind_ok ((Access.reads_pure _).congr ?_)
  rw [List.map_map]
  rfl

/-- A document with a leaf that meets a condition is among the candidates of the condition. -/
theorem mem_candidateIds {t : Table} (wellFormed : t.WellFormed width) {c : Condition}
    {p : Predicate} (pushed : c.pushdown? = some p) {id : String}
    (meets : c.holds (t.cells id) = true) : id ∈ candidateIds t (c.candidateSelect width p) := by
  obtain ⟨cell, hc, meets⟩ := List.any_eq_true.mp meets
  have passes := Condition.candidateSelect_accepts pushed (wellFormed.valid id cell hc) width meets
  have live : cell.row width ∈ t.live id := by
    rw [wellFormed.rows id]
    exact List.mem_map.mpr ⟨cell, hc, rfl⟩
  obtain ⟨⟨columns, row⟩, stored, same⟩ := List.mem_map.mp live
  obtain rfl : row = cell.row width := same
  have entry := (wellFormed.ordered.mem_entries id columns _).mpr stored
  refine (Sorted.mem_ofKeys _ _).mpr (List.mem_map.mpr ⟨_, List.mem_filter.mpr ⟨entry, ?_⟩, ?_⟩)
  · simpa [Table.answers, Condition.candidateSelect] using passes
  · exact (wellFormed.about id cell hc)

theorem mem_common {α : Type} [BEq α] [LawfulBEq α] {sets : List (List α)} (some : sets ≠ [])
    (key : α) : key ∈ common sets ↔ ∀ set ∈ sets, key ∈ set := by
  cases sets with
  | nil => exact absurd rfl some
  | cons first others => simp [common]

theorem common_ascending {α : Type} [BEq α] [LT α] {sets : List (List α)}
    (ascending : ∀ set ∈ sets, set.Pairwise (· < ·)) : (common sets).Pairwise (· < ·) := by
  cases sets with
  | nil => exact List.Pairwise.nil
  | cons first others => exact (ascending first (List.mem_cons_self ..)).filter _

theorem candidateSelects_ne_nil {f : Filter} (narrow : f.isFullScan = false) (maxDepth : Nat) :
    f.candidateSelects maxDepth ≠ [] := by
  obtain ⟨c, hc, pushes⟩ := List.all_eq_false.mp narrow
  cases pushed : c.pushdown? with
  | none => exact absurd (by rw [pushed]; rfl) pushes
  | some p =>
    have select : c.candidates? maxDepth = some (c.candidateSelect maxDepth p) := by
      rw [Condition.candidates?, pushed]
      rfl
    exact List.ne_nil_of_mem (List.mem_filterMap.mpr ⟨c, hc, select⟩)

/-- Among the candidates of all conditions, those that match are the documents that match. -/
theorem candidates_matching {t : Table} (wellFormed : t.WellFormed width) (q : Query)
    (narrow : q.filter.isFullScan = false) :
    (((common ((q.filter.candidateSelects width).map (candidateIds t))).filter fun id =>
      q.after.all (· < id)).map fun id => (id, t.cells id)).filter q.hits = t.matching q := by
  have ascending : (common ((q.filter.candidateSelects width).map (candidateIds t))).Pairwise
      (· < ·) := by
    refine common_ascending fun set there => ?_
    obtain ⟨s, _, rfl⟩ := List.mem_map.mp there
    exact Sorted.ofKeys_ascending _
  have nonempty : (q.filter.candidateSelects width).map (candidateIds t) ≠ [] := fun none =>
    candidateSelects_ne_nil narrow width (List.map_eq_nil_iff.mp none)
  refine Sorted.Ascending.ext ?_ (wellFormed.ordered.leaves_ascending.filter _) fun document => ?_
  · refine List.Pairwise.filter _ (List.pairwise_map.mpr ?_)
    exact ascending.filter _
  · have accepted : q.hits document = true → document.2 = t.cells document.1 →
        document.1 ∈ common ((q.filter.candidateSelects width).map (candidateIds t)) := by
      intro hit same
      refine (mem_common nonempty _).mpr fun set there => ?_
      obtain ⟨s, hs, rfl⟩ := List.mem_map.mp there
      obtain ⟨c, hc, select⟩ := List.mem_filterMap.mp hs
      obtain ⟨p, pushed, rfl⟩ := Option.map_eq_some_iff.mp select
      refine mem_candidateIds wellFormed pushed ?_
      rw [← same]
      exact List.all_eq_true.mp (Bool.and_eq_true_iff.mp hit).2 c hc
    show _ ↔ document ∈ t.matching q
    rw [wellFormed.mem_matching q document]
    simp only [List.mem_filter, List.mem_map]
    constructor
    · rintro ⟨⟨id, ⟨_, after⟩, rfl⟩, hit⟩
      exact ⟨rfl, after, hit⟩
    · rintro ⟨same, after, hit⟩
      exact ⟨⟨document.1, ⟨accepted hit same, after⟩, Prod.ext rfl same.symm⟩, hit⟩

theorem reads_candidateSearch (memory : e.store = MemoryStore.rowStore)
    (wellFormed : (base.table name).WellFormed e.config.maxDepth) (q : Query)
    (narrow : q.filter.isFullScan = false) :
    (e.candidateSearch name q).Reads base (.ok (ofMatching q ((base.table name).matching q))) := by
  have sets : ((q.filter.candidateSelects e.config.maxDepth).mapM (e.candidates name)).Reads base
      (.ok ((q.filter.candidateSelects e.config.maxDepth).map (candidateIds (base.table name)))) :=
    Access.reads_mapM fun s hs => by
      obtain ⟨c, _, select⟩ := List.mem_filterMap.mp hs
      obtain ⟨p, _, rfl⟩ := Option.map_eq_some_iff.mp select
      exact reads_candidates memory wellFormed.ordered (accepted_of_allowed rfl)
  have none : ofMatching q [] = {} := by simp [ofMatching]
  have looked := reads_checkCandidates memory wellFormed q
    ((common ((q.filter.candidateSelects e.config.maxDepth).map
      (candidateIds (base.table name)))).filter fun id => q.after.all (· < id)) []
  rw [List.nil_append, candidates_matching wellFormed q narrow, none] at looked
  exact sets.bind_ok looked

theorem reads_search (memory : e.store = MemoryStore.rowStore)
    (wellFormed : (base.table name).WellFormed e.config.maxDepth) (q : Query) :
    (e.search name q).Reads base (.ok (ofMatching q ((base.table name).matching q)).page) := by
  unfold search
  cases plan : q.filter.isFullScan with
  | true =>
    exact (reads_fullScan memory wellFormed q).bind_ok (Access.reads_pure _)
  | false =>
    exact (reads_candidateSearch memory wellFormed q plan).bind_ok (Access.reads_pure _)

end Engine

end LeafStore
