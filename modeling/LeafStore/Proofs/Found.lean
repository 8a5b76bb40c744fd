import LeafStore.Proofs.Assembly
import LeafStore.Proofs.Rows
import LeafStore.Search
/-!
What a search finds. Both kinds of search look at documents one after the other; what they have
found is a function of the documents looked at, and stays as it is once the page is full and one
more was found.
-/
namespace LeafStore

abbrev Leaves := String × List Cell

namespace Query

def hits (q : Query) (document : Leaves) : Bool :=
  !document.2.isEmpty && q.filter.accepts document.2

def value (q : Query) (document : Leaves) : Json :=
  match Assembly.assemble Path.root q.fields document.2 with
  | .ok (some json) => json
  | _ => .object []

end Query

namespace Found

/-- The first of the documents that match, as many as fit on a page, and whether that is all. -/
def ofMatching (q : Query) (matching : List Leaves) : Found where
  documents := (matching.take q.pageSize).map fun document => (document.1, q.value document)
  more := q.pageSize < matching.length

theorem ofMatching_append {q : Query} {matching : List Leaves}
    (full : (ofMatching q matching).more = true) (others : List Leaves) :
    ofMatching q (matching ++ others) = ofMatching q matching := by
  have long : q.pageSize < matching.length := of_decide_eq_true full
  have longer : q.pageSize < (matching ++ others).length := by
    rw [List.length_append]
    omega
  simp only [ofMatching, List.take_append_of_le_length (Nat.le_of_lt long), long, longer]

theorem below_root (cells : List Cell) :
    Assembly.below Path.root cells = cells.map fun cell => (cell.path, cell.leaf) := by
  simp [Assembly.below]

theorem assemble_root (q : Query) {document : Leaves}
    (consistent : Path.Consistent (document.2.map (·.path))) (filled : document.2 ≠ []) :
    Assembly.assemble Path.root q.fields document.2 = .ok (some (q.value document)) := by
  obtain ⟨json, assembled⟩ := Assembly.assemble_ok Path.root q.fields consistent
  have some : json.isSome = true := by
    have there : (Assembly.below Path.root document.2).isEmpty = false := by
      rw [below_root]
      cases cells : document.2 with
      | nil => exact absurd cells filled
      | cons cell rest => rfl
    simp only [Assembly.assemble, there, Bool.false_eq_true, if_false] at assembled
    split at assembled
    · cases assembled
      rfl
    · obtain ⟨built, _, rfl⟩ := map_eq_ok assembled
      rfl
  obtain ⟨found, rfl⟩ := Option.isSome_iff_exists.mp some
  simp only [Query.value, assembled]

theorem offer_eq (q : Query) (matching : List Leaves) (document : Leaves)
    (consistent : Path.Consistent (document.2.map (·.path))) :
    (ofMatching q matching).offer q document.1 document.2 =
      .ok (ofMatching q (matching ++ [document].filter q.hits)) := by
  have passed : (document.2.isEmpty || !q.filter.accepts document.2) = !q.hits document := by
    simp [Query.hits]
  cases hit : q.hits document with
  | false =>
    simp only [offer, passed, hit, Bool.not_false, if_true, List.filter_cons, Bool.false_eq_true,
      if_false, List.filter_nil, List.append_nil]
  | true =>
    have filled : document.2 ≠ [] := by
      intro none
      simp [Query.hits, none] at hit
    have assembled := assemble_root q consistent filled
    have length : (ofMatching q matching).documents.length = min q.pageSize matching.length := by
      simp [ofMatching]
    simp only [offer, passed, hit, Bool.not_true, Bool.false_eq_true, if_false, length,
      List.filter_cons, if_true, List.filter_nil, assembled, map_ok, Option.getD_some]
    by_cases full : q.pageSize ≤ matching.length
    · have more : q.pageSize < (matching ++ [document]).length := by
        rw [List.length_append, List.length_singleton]
        omega
      rw [if_pos (Nat.min_eq_left full)]
      simp only [ofMatching, List.take_append_of_le_length full, more, decide_true]
    · have room : min q.pageSize matching.length ≠ q.pageSize := by omega
      have fits : (matching ++ [document]).length ≤ q.pageSize := by
        rw [List.length_append, List.length_singleton]
        omega
      have few : matching.length ≤ q.pageSize := by omega
      have notMore : ¬ q.pageSize < matching.length := by omega
      have notMore' : ¬ q.pageSize < (matching ++ [document]).length := by omega
      rw [if_neg room]
      simp only [ofMatching, List.take_of_length_le few, List.take_of_length_le fits,
        List.map_append, List.map_cons, List.map_nil, notMore, notMore']

end Found

structure Leaves.Sound (document : Leaves) : Prop where
  about : ∀ cell ∈ document.2, cell.document = document.1
  valid : ∀ cell ∈ document.2, cell.path.Valid
  consistent : Path.Consistent (document.2.map (·.path))

def Leaves.rows (width : Nat) (documents : List Leaves) : List Row :=
  documents.flatMap fun document => document.2.map (Cell.row width)

theorem Leaves.rows_cons (width : Nat) (id : String) (cell : Cell) (more : List Cell)
    (rest : List Leaves) : Leaves.rows width ((id, cell :: more) :: rest) =
      cell.row width :: (more.map (Cell.row width) ++ Leaves.rows width rest) := rfl

namespace Scan

open Found (ofMatching offer_eq ofMatching_append)

variable {q : Query} {width : Nat}

/-- What a scan has found when these are all rows that are left. -/
def outcome (q : Query) (scan : Scan) (rows : List Row) : Except RowError Found :=
  rows.foldlM (Scan.row q) scan >>= Scan.finish q

@[simp] theorem outcome_cons {scan next : Scan} {row : Row} (rows : List Row)
    (h : scan.row q row = .ok next) : scan.outcome q (row :: rows) = next.outcome q rows := by
  simp only [outcome, List.foldlM_cons, h]
  rfl

theorem foldlM_full {scan : Scan} (full : scan.found.more = true) (rows : List Row) :
    rows.foldlM (Scan.row q) scan = .ok scan := by
  induction rows with
  | nil => rfl
  | cons first rest ih =>
    have still : scan.row q first = .ok scan := by
      unfold Scan.row
      rw [if_pos full]
    rw [List.foldlM_cons, still]
    exact ih

theorem outcome_full {scan : Scan} (full : scan.found.more = true) (rows : List Row) :
    scan.outcome q rows = .ok scan.found := by
  rw [outcome, foldlM_full full]
  exact if_pos full

theorem outcome_document {found : Found} (room : found.more = false) (document : Leaves)
    {cells : List Cell} (about : ∀ cell ∈ cells, cell.document = document.1)
    (valid : ∀ cell ∈ cells, cell.path.Valid) (rows : List Row) :
    outcome q ⟨found, some document⟩ (cells.map (Cell.row width) ++ rows) =
      outcome q ⟨found, some (document.1, document.2 ++ cells)⟩ rows := by
  induction cells generalizing document with
  | nil => rw [List.append_nil, List.map_nil, List.nil_append]
  | cons cell rest ih =>
    have here : Scan.row q ⟨found, some document⟩ (cell.row width) =
        .ok ⟨found, some (document.1, document.2 ++ [cell])⟩ := by
      have same := (about cell (List.mem_cons_self ..)).symm
      simp only [Scan.row, room, Bool.false_eq_true, if_false,
        Row.decode_row (valid cell (List.mem_cons_self ..)), ok_bind, same, if_true]
      rfl
    have next := ih (document.1, document.2 ++ [cell])
      (fun c hc => about c (List.mem_cons_of_mem _ hc))
      fun c hc => valid c (List.mem_cons_of_mem _ hc)
    rw [List.map_cons, List.cons_append, outcome_cons _ here, next]
    simp

theorem outcome_next {current : Leaves} (sound : current.Sound) (matching : List Leaves)
    (room : (ofMatching q matching).more = false) {cell : Cell} (valid : cell.path.Valid)
    (other : current.1 ≠ cell.document) (rows : List Row) :
    outcome q ⟨ofMatching q matching, some current⟩ (cell.row width :: rows) =
      outcome q ⟨ofMatching q (matching ++ [current].filter q.hits), some (cell.document, [cell])⟩
        rows := by
  refine outcome_cons rows ?_
  simp only [Scan.row, room, Bool.false_eq_true, if_false, Row.decode_row valid, ok_bind,
    other, offer_eq q matching current sound.consistent]
  rfl

theorem outcome_rows {documents : List Leaves} {current : Leaves} (sound : current.Sound)
    (others : ∀ document ∈ documents, document.Sound)
    (filled : ∀ document ∈ documents, document.2 ≠ [])
    (apart : (current :: documents).Pairwise fun a b => a.1 ≠ b.1) (matching : List Leaves) :
    outcome q ⟨ofMatching q matching, some current⟩ (Leaves.rows width documents) =
      .ok (ofMatching q (matching ++ (current :: documents).filter q.hits)) := by
  induction documents generalizing current matching with
  | nil =>
    -- Once more documents match than fit on the page, what was found is final.
    cases full : (ofMatching q matching).more with
    | true => rw [ofMatching_append full, outcome_full full]
    | false =>
      have last := offer_eq q matching current sound.consistent
      show (if (ofMatching q matching).more then _ else _) = _
      rw [full]
      exact last
  | cons document rest ih =>
    cases full : (ofMatching q matching).more with
    | true => rw [ofMatching_append full, outcome_full full]
    | false =>
      obtain ⟨id, cells⟩ := document
      have here := others (id, cells) (List.mem_cons_self ..)
      have differ : current.1 ≠ id := List.rel_of_pairwise_cons apart (List.mem_cons_self ..)
      cases cells with
      | nil => exact absurd rfl (filled (id, []) (List.mem_cons_self ..))
      | cons cell more =>
        have owner : cell.document = id := here.about cell (List.mem_cons_self ..)
        have parts : (current :: (id, cell :: more) :: rest).filter q.hits =
            [current].filter q.hits ++ ((id, cell :: more) :: rest).filter q.hits := by
          rw [← List.filter_append, List.singleton_append]
        rw [Leaves.rows_cons, outcome_next sound matching full
          (here.valid cell (List.mem_cons_self ..)) (owner ▸ differ), owner, parts, ← List.append_assoc]
        cases next : (ofMatching q (matching ++ [current].filter q.hits)).more with
        | true => rw [ofMatching_append next, outcome_full next]
        | false =>
          rw [outcome_document next (id, [cell])
            (fun c hc => here.about c (List.mem_cons_of_mem _ hc))
            fun c hc => here.valid c (List.mem_cons_of_mem _ hc)]
          exact ih here (fun d hd => others d (List.mem_cons_of_mem _ hd))
            (fun d hd => filled d (List.mem_cons_of_mem _ hd)) apart.tail _

theorem outcome_all {documents : List Leaves} (sound : ∀ document ∈ documents, document.Sound)
    (filled : ∀ document ∈ documents, document.2 ≠ [])
    (apart : documents.Pairwise fun a b => a.1 ≠ b.1) :
    outcome q {} (Leaves.rows width documents) =
      .ok (ofMatching q (documents.filter q.hits)) := by
  have none : ofMatching q [] = {} := by simp [ofMatching]
  cases documents with
  | nil =>
    rw [List.filter_nil, none]
    rfl
  | cons document rest =>
    obtain ⟨id, cells⟩ := document
    have here := sound (id, cells) (List.mem_cons_self ..)
    cases cells with
    | nil => exact absurd rfl (filled (id, []) (List.mem_cons_self ..))
    | cons cell more =>
      have owner : cell.document = id := here.about cell (List.mem_cons_self ..)
      have first : Scan.row q {} (cell.row width) = .ok ⟨{}, some (id, [cell])⟩ := by
        simp only [Scan.row, Bool.false_eq_true, if_false,
          Row.decode_row (here.valid cell (List.mem_cons_self ..)), ok_bind, owner]
        rfl
      have begun : outcome q ⟨ofMatching q [], some (id, cell :: more)⟩ (Leaves.rows width rest) =
          .ok (ofMatching q ([] ++ ((id, cell :: more) :: rest).filter q.hits)) := outcome_rows here
        (fun d hd => sound d (List.mem_cons_of_mem _ hd))
        (fun d hd => filled d (List.mem_cons_of_mem _ hd)) apart []
      rw [none, List.nil_append] at begun
      rw [Leaves.rows_cons, outcome_cons _ first, outcome_document rfl (id, [cell])
        (fun c hc => here.about c (List.mem_cons_of_mem _ hc))
        fun c hc => here.valid c (List.mem_cons_of_mem _ hc)]
      exact begun

end Scan

end LeafStore
