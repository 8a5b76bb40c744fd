import LeafStore.Proofs.Accesses
/-!
Sets of rows that assemble. Rows in any order have a value exactly if all of them can be read and the
paths that are asked for are those of the leaves of one document; rows of several documents are
assembled document by document.
-/
namespace LeafStore

namespace Assembly

/-! Leaves that build a value part. -/

theorem kinds_of_container {place : Path} {kinds : List Segment}
    {parts : Except RowError (List (Segment × Json))} {v : Json}
    (ok : container place kinds parts = .ok v) {s t : Segment} (hs : s ∈ kinds) (ht : t ∈ kinds) :
    s.isIndex = t.isIndex := by
  obtain ⟨_, _, ⟨all, _⟩ | ⟨_, none, _⟩⟩ := container_eq_ok ok
  · exact (List.all_eq_true.mp all s hs).trans (List.all_eq_true.mp all t ht).symm
  · have field : ∀ s ∈ kinds, s.isIndex = false := fun s hs => by
      simpa using List.any_eq_false.mp none s hs
    exact (field s hs).trans (field t ht).symm

/-- Groups of leaves that part within, with segments of one kind, part from each other. -/
theorem parted_of_groups {branch : Branch} (ordered : Ordered branch)
    (deep : ∀ entry ∈ branch, entry.1 ≠ [])
    (kinds : ∀ a ∈ groups branch, ∀ b ∈ groups branch, a.1.isIndex = b.1.isIndex)
    (within : ∀ part ∈ groups branch, Parted part.2) : Parted branch := by
  rw [← spread_groups deep]
  refine spread_pairwise (fun s p q parts => .inl ⟨rfl, parts⟩) within ?_
  exact (groups_ascending ordered).imp_of_mem fun ha hb less p q =>
    .inr ⟨Sorted.ne_of_lt less, kinds _ ha _ hb⟩

theorem parted_of_build {height : Nat} {place : Path} {branch : Branch} {v : Json}
    (built : build height place branch = .ok v) (ordered : Ordered branch)
    (fits : ∀ entry ∈ branch, entry.1.length ≤ height) : Parted branch := by
  induction height generalizing place branch v with
  | zero =>
    match branch, built with
    | [], _ => exact List.Pairwise.nil
    | [([], _)], _ => exact List.pairwise_singleton ..
    | (segment :: path, leaf) :: rest, _ =>
      exact absurd (fits _ (List.mem_cons_self ..)) (Nat.not_succ_le_zero _)
  | succ height ih =>
    match branch, built with
    | [], _ => exact List.Pairwise.nil
    | [([], _)], _ => exact List.pairwise_singleton ..
    | (segment :: path, leaf) :: rest, built =>
      rw [build] at built
      obtain ⟨found, read, _⟩ := container_eq_ok built
      refine parted_of_groups ordered ordered.deep (fun a ha b hb => ?_) fun part hp => ?_
      · exact kinds_of_container built (List.mem_map_of_mem ha) (List.mem_map_of_mem hb)
      · obtain ⟨_, _, here⟩ := exists_mem_of_mapM_eq_ok read hp
        obtain ⟨json, below, _⟩ := map_eq_ok here
        exact ih below (ordered.group hp) (length_of_group fits hp)

theorem exists_buildAll_eq_ok_iff {branch : Branch} :
    (∃ v, buildAll branch = .ok v) ↔ Parted branch := by
  refine ⟨fun ⟨v, built⟩ => ?_, buildAll_ok⟩
  have perm := inOrder_perm branch
  refine (perm.pairwise_iff fun parts => parts.symm).mp ?_
  exact parted_of_build built (inOrder_sorted branch) fun entry he =>
    length_le_height (perm.subset he)

/-! The leaves that are asked for. -/

/-- A path is at the base or below it, and below one of the fields there if some are asked for. -/
def asked (base : Path) (fields : Option Projection) (path : Path) : Bool :=
  base.isPrefixOf path && fields.all fun list => list.any fun field =>
    (base ++ field).isPrefixOf path

theorem asked_append (base : Path) (fields : Option Projection) (rest : Path) :
    asked base fields (base ++ rest) = fields.all fun list => list.includes rest := by
  have within : ∀ field : Path, (base ++ field).isPrefixOf (base ++ rest) = field.isPrefixOf rest := by
    intro field
    rw [Bool.eq_iff_iff, List.isPrefixOf_iff_prefix, List.isPrefixOf_iff_prefix,
      List.prefix_append_right_inj]
  have here : base.isPrefixOf (base ++ rest) = true :=
    List.isPrefixOf_iff_prefix.mpr (List.prefix_append base rest)
  rw [asked, here, Bool.true_and]
  cases fields with
  | none => rfl
  | some list => simp only [Option.all_some, Projection.includes, within]

theorem projected_below (base : Path) (fields : Option Projection) (cells : List Cell) :
    projected fields (below base cells) =
      below base (cells.filter fun cell => asked base fields cell.path) := by
  have filtered : ∀ branch : Branch, projected fields branch =
      branch.filter fun entry => fields.all fun list => list.includes entry.1 := by
    intro branch
    cases fields with
    | none => exact (List.filter_eq_self.mpr fun _ _ => rfl).symm
    | some list => rfl
  rw [filtered, below, below, List.filter_filterMap, List.filterMap_filter]
  refine congrArg (List.filterMap · cells) (funext fun cell => ?_)
  cases found : base.below? cell.path with
  | none => simp
  | some rest =>
    rw [(below?_eq_some_iff base cell.path rest).mp found, asked_append]
    simp [Option.filter]

theorem parted_below_iff {base : Path} {cells : List Cell}
    (under : ∀ cell ∈ cells, base <+: cell.path) :
    Parted (below base cells) ↔ Path.Consistent (cells.map (·.path)) := by
  refine ⟨fun parted => ?_, below_parted base⟩
  rw [Path.consistent_iff]
  refine List.pairwise_map.mpr ((List.pairwise_filterMap.mp parted).imp_of_mem fun {a b} ha hb h => ?_)
  obtain ⟨p, hp⟩ := under a ha
  obtain ⟨q, hq⟩ := under b hb
  have here := h (p, a.leaf) (by simp [← hp]) (q, b.leaf) (by simp [← hq])
  rw [← hp, ← hq]
  exact (Path.parts_append_left_iff base p q).mpr here

theorem parted_kept_iff (base : Path) (fields : Option Projection) (cells : List Cell) :
    Parted (projected fields (below base cells)) ↔
      Path.Consistent ((cells.map (·.path)).filter (asked base fields)) := by
  rw [projected_below, parted_below_iff fun cell hc => ?_, List.filter_map]
  · rfl
  · have kept := (List.mem_filter.mp hc).2
    exact List.isPrefixOf_iff_prefix.mp (Bool.and_eq_true_iff.mp kept).1

/-- Leaves have a value, or none at all, exactly if those asked for can stand together. -/
theorem exists_assemble_eq_ok_iff {base : Path} {fields : Option Projection} {cells : List Cell} :
    (∃ v, assemble base fields cells = .ok v) ↔
      Path.Consistent ((cells.map (·.path)).filter (asked base fields)) := by
  rw [← parted_kept_iff, ← exists_buildAll_eq_ok_iff]
  unfold assemble
  dsimp only
  split
  · rename_i empty
    refine ⟨fun _ => ?_, fun _ => ⟨_, rfl⟩⟩
    rw [List.isEmpty_iff.mp empty]
    exact exists_buildAll_eq_ok_iff.mpr (by cases fields <;> exact List.Pairwise.nil)
  · split
    · rename_i empty
      refine ⟨fun _ => ?_, fun _ => ⟨_, rfl⟩⟩
      rw [List.isEmpty_iff.mp empty]
      exact exists_buildAll_eq_ok_iff.mpr List.Pairwise.nil
    · constructor
      · rintro ⟨_, ok⟩
        obtain ⟨v, built, _⟩ := map_eq_ok ok
        exact ⟨v, built⟩
      · rintro ⟨v, built⟩
        exact ⟨some v, by rw [built]; rfl⟩

theorem assemble_eq_none_iff {base : Path} {fields : Option Projection} {cells : List Cell} :
    assemble base fields cells = .ok none ↔ ∀ cell ∈ cells, ¬ base <+: cell.path := by
  have off : (below base cells).isEmpty = true ↔ ∀ cell ∈ cells, ¬ base <+: cell.path := by
    rw [List.isEmpty_iff, List.eq_nil_iff_forall_not_mem]
    constructor
    · rintro none cell hc ⟨rest, place⟩
      exact none (rest, cell.leaf) (mem_below.mpr ⟨cell, hc, place.symm, rfl⟩)
    · intro off entry he
      obtain ⟨cell, hc, place, _⟩ := mem_below.mp he
      exact off cell hc ⟨entry.1, place.symm⟩
  rw [← off]
  unfold assemble
  dsimp only
  split
  · rename_i empty
    exact ⟨fun _ => empty, fun _ => rfl⟩
  · rename_i filled
    refine ⟨fun ok => ?_, fun empty => absurd empty filled⟩
    split at ok
    · cases ok
    · obtain ⟨_, _, same⟩ := map_eq_ok ok
      cases same

theorem Parted.distinct {branch : Branch} (parted : Parted branch) : Distinct branch :=
  parted.imp fun {a b} parts same =>
    parts.not_prefix ⟨[], (List.append_nil a.1).trans (show a.1 = b.1 from same)⟩

theorem assemble_perm_eq_ok {base : Path} {fields : Option Projection} {a b : List Cell}
    (perm : a.Perm b) {v : Option Json} (ok : assemble base fields b = .ok v) :
    assemble base fields a = .ok v := by
  have branches : (below base a).Perm (below base b) := perm.filterMap _
  have kept : (projected fields (below base a)).Perm (projected fields (below base b)) := by
    cases fields with
    | none => exact branches
    | some list => exact branches.filter _
  have parted : Parted (projected fields (below base b)) :=
    (parted_kept_iff ..).mpr (exists_assemble_eq_ok_iff.mp ⟨v, ok⟩)
  have distinct := parted.distinct
  unfold assemble at ok ⊢
  simp only [List.isEmpty_iff, branches.isEmpty_eq, kept.isEmpty_eq, buildAll_perm distinct kept] at ok ⊢
  exact ok

/-! Rows of several documents. -/

theorem document_of_decode {row : Row} {cell : Cell} (ok : row.decode = .ok cell) :
    cell.document = row.document := by
  obtain ⟨_, _, ok⟩ := bind_eq_ok ok
  obtain ⟨_, _, ok⟩ := bind_eq_ok ok
  cases ok
  rfl

theorem decode_document {rows : List Row} {cells : List Cell}
    (read : rows.mapM Row.decode = .ok cells) (id : String) :
    (rows.filter (·.document = id)).mapM Row.decode = .ok (cells.filter (·.document = id)) := by
  induction rows generalizing cells with
  | nil =>
    cases read
    rfl
  | cons row rest ih =>
    rw [List.mapM_cons] at read
    obtain ⟨cell, here, read⟩ := bind_eq_ok read
    obtain ⟨others, later, read⟩ := bind_eq_ok read
    cases read
    rw [List.filter_cons, List.filter_cons, document_of_decode here]
    split
    · rw [List.mapM_cons, here, ih later]
      rfl
    · exact ih later

/-- Leaves by their documents: each document has its own, in the order in which they come. -/
structure Grouped (cells : List Cell) (map : List (String × List Cell)) : Prop where
  ascending : Sorted.Ascending map
  own : ∀ id found, map.lookup id = some found ↔
    found = cells.filter (·.document = id) ∧ found ≠ []

theorem Grouped.getD {cells : List Cell} {map : List (String × List Cell)} (h : Grouped cells map)
    (id : String) : (map.lookup id).getD [] = cells.filter (·.document = id) := by
  cases lookup : map.lookup id with
  | some found => exact ((h.own id found).mp lookup).1
  | none =>
    apply Classical.byContradiction
    intro filled
    rw [(h.own id _).mpr ⟨rfl, fun empty => filled empty.symm⟩] at lookup
    cases lookup

theorem Grouped.add {cells : List Cell} {map : List (String × List Cell)} (h : Grouped cells map)
    (cell : Cell) :
    Grouped (cells ++ [cell]) (Sorted.update cell.document [] (· ++ [cell]) map) := by
  refine ⟨Sorted.update_ascending h.ascending .., fun id found => ?_⟩
  rw [List.filter_append]
  by_cases same : id = cell.document
  · subst same
    have here : [cell].filter (·.document = cell.document) = [cell] := by simp
    rw [Sorted.lookup_update_self h.ascending, h.getD, here, Option.some_inj]
    constructor
    · rintro rfl
      exact ⟨rfl, by simp⟩
    · exact fun own => own.1.symm
  · have other : [cell].filter (·.document = id) = [] := by
      simpa using fun h => same h.symm
    rw [Sorted.lookup_update_of_ne h.ascending same, h.own, other, List.append_nil]

theorem grouped_byDocument (cells : List Cell) : Grouped cells (byDocument cells) := by
  have run : ∀ (rest before : List Cell) (map : List (String × List Cell)), Grouped before map →
      Grouped (before ++ rest)
        (rest.foldl (fun map cell => Sorted.update cell.document [] (· ++ [cell]) map) map) := by
    intro rest
    induction rest with
    | nil => exact fun before map h => (List.append_nil before).symm ▸ h
    | cons cell rest ih =>
      intro before map h
      rw [List.append_cons]
      exact ih _ _ (h.add cell)
  refine run cells [] [] ⟨List.Pairwise.nil, fun id found => ?_⟩
  exact ⟨fun there => (by cases there), fun own => absurd own.1 own.2⟩

variable {base : Path} {fields : Option Projection} {rows : List Row}

theorem ofRows_own {cells : List Cell} (read : rows.mapM Row.decode = .ok cells) (id : String) :
    ofRows base fields (rows.filter (·.document = id)) =
      assemble base fields (cells.filter (·.document = id)) := by
  rw [ofRows, decode_document read id]
  rfl

theorem ofManyRows_of_each
    (each : ∀ id, ∃ v, ofRows base fields (rows.filter (·.document = id)) = .ok v) :
    ∃ found, ofManyRows base fields rows = .ok found ∧ Sorted.Ascending found ∧
      ∀ id json, (id, json) ∈ found ↔
        ofRows base fields (rows.filter (·.document = id)) = .ok (some json) := by
  obtain ⟨cells, read⟩ := exists_mapM_eq_ok rows fun row hr => by
    obtain ⟨v, ok⟩ := each row.document
    obtain ⟨cells, own, _⟩ := bind_eq_ok ok
    obtain ⟨cell, _, here⟩ := exists_mem_of_mapM_eq_ok own
      (List.mem_filter.mpr ⟨hr, decide_eq_true rfl⟩)
    exact ⟨cell, here⟩
  -- The values are chosen at once, so that one list has the value of every document.
  obtain ⟨value, values⟩ := Classical.skolem.mp each
  obtain ⟨ascending, own⟩ := grouped_byDocument cells
  have parts : ∀ part ∈ byDocument cells, assemble base fields part.2 = .ok (value part.1) := by
    intro part hp
    obtain ⟨same, _⟩ := (own part.1 part.2).mp ((ascending.lookup_eq_some_iff ..).mpr hp)
    rw [same, ← ofRows_own read]
    exact values part.1
  have built : (byDocument cells).mapM (fun part =>
      (assemble base fields part.2).map fun json => json.map (part.1, ·)) =
        .ok ((byDocument cells).map fun part => (value part.1).map (part.1, ·)) :=
    mapM_eq_ok fun part hp => by rw [parts part hp]; rfl
  refine ⟨(byDocument cells).filterMap fun part => (value part.1).map (part.1, ·), ?_, ?_, ?_⟩
  · simp only [ofManyRows, read, ok_bind, built, List.filterMap_map]
    rfl
  · refine ascending.filterMap fun made => ?_
    obtain ⟨_, _, rfl⟩ := Option.map_eq_some_iff.mp made
    rfl
  · intro id json
    rw [values, Except.ok.injEq, List.mem_filterMap]
    constructor
    · rintro ⟨part, _, there⟩
      obtain ⟨_, here, same⟩ := Option.map_eq_some_iff.mp there
      cases same
      exact here
    · intro here
      have filled : cells.filter (·.document = id) ≠ [] := by
        intro empty
        have ok := values id
        rw [ofRows_own read, empty, here] at ok
        cases ok
      have there := (ascending.lookup_eq_some_iff ..).mp ((own id _).mpr ⟨rfl, filled⟩)
      exact ⟨_, there, by rw [here]; rfl⟩

theorem ofManyRows_of_error {id : String} {cause : RowError}
    (failed : ofRows base fields (rows.filter (·.document = id)) = .error cause) :
    ∃ cause, ofManyRows base fields rows = .error cause := by
  cases many : ofManyRows base fields rows with
  | error cause => exact ⟨cause, rfl⟩
  | ok found =>
    obtain ⟨cells, read, many⟩ := bind_eq_ok many
    obtain ⟨listed, built, _⟩ := bind_eq_ok many
    obtain ⟨ascending, own⟩ := grouped_byDocument cells
    rw [ofRows_own read] at failed
    have filled : cells.filter (·.document = id) ≠ [] := by
      intro empty
      rw [empty] at failed
      cases failed
    have there := (ascending.lookup_eq_some_iff ..).mp ((own id _).mpr ⟨rfl, filled⟩)
    obtain ⟨_, _, here⟩ := exists_mem_of_mapM_eq_ok built there
    obtain ⟨_, assembled, _⟩ := map_eq_ok here
    rw [failed] at assembled
    cases assembled

theorem exists_ofRows_eq_ok_iff : (∃ v, ofRows base fields rows = .ok v) ↔
    ∃ cells, rows.mapM Row.decode = .ok cells ∧
      Path.Consistent ((cells.map (·.path)).filter (asked base fields)) := by
  rw [ofRows, exists_bind_eq_ok_iff]
  exact exists_congr fun cells => and_congr_right fun _ => exists_assemble_eq_ok_iff

theorem ofRows_perm_eq_ok {others : List Row} (perm : others.Perm rows) {v : Option Json}
    (ok : ofRows base fields rows = .ok v) : ofRows base fields others = .ok v := by
  obtain ⟨cells, read, ok⟩ := bind_eq_ok ok
  obtain ⟨found, read', perm'⟩ := mapM_perm perm read
  rw [ofRows, read']
  exact assemble_perm_eq_ok perm' ok

/-- Assembling rows asks no path for a segment that it does not have. It gives a value, or none where
no row is below the base, exactly if all rows can be read and the paths that are asked for can stand
together, and complains about the stored rows otherwise; the order of the rows makes no difference.
Rows of several documents assemble if those of each do, and then to the values of the documents in
the order of their ids. -/
theorem ofRows_exact (base : Path) (fields : Option Projection) (rows : List Row) :
    ofRowsAt base fields rows = some (ofRows base fields rows) ∧
    ((∃ v, ofRows base fields rows = .ok v) ↔
      ∃ cells, rows.mapM Row.decode = .ok cells ∧
        Path.Consistent ((cells.map (·.path)).filter (asked base fields))) ∧
    (ofRows base fields rows = .ok none ↔
      ∃ cells, rows.mapM Row.decode = .ok cells ∧ ∀ cell ∈ cells, ¬ base <+: cell.path) ∧
    ((¬ ∃ v, ofRows base fields rows = .ok v) →
      ∃ cause, (ofRows base fields rows).mapError Error.corruptRow = .error (.corruptRow cause)) ∧
    (∀ others v, others.Perm rows → ofRows base fields rows = .ok v →
      ofRows base fields others = .ok v) ∧
    (∀ id cause, ofRows base fields (rows.filter (·.document = id)) = .error cause →
      ∃ cause, (ofManyRows base fields rows).mapError Error.corruptRow =
        .error (.corruptRow cause)) ∧
    ((∀ id, ∃ v, ofRows base fields (rows.filter (·.document = id)) = .ok v) →
      ∃ found, ofManyRows base fields rows = .ok found ∧ Sorted.Ascending found ∧
        ∀ id json, (id, json) ∈ found ↔
          ofRows base fields (rows.filter (·.document = id)) = .ok (some json)) := by
  refine ⟨ofRowsAt_eq base fields rows, exists_ofRows_eq_ok_iff, ?_, ?_,
    fun others v perm ok => ofRows_perm_eq_ok perm ok, ?_, ofManyRows_of_each⟩
  · constructor
    · intro ok
      obtain ⟨cells, read, ok⟩ := bind_eq_ok ok
      exact ⟨cells, read, assemble_eq_none_iff.mp ok⟩
    · rintro ⟨cells, read, off⟩
      rw [ofRows, read]
      exact assemble_eq_none_iff.mpr off
  · intro failed
    cases result : ofRows base fields rows with
    | ok v => exact absurd ⟨v, result⟩ failed
    | error cause => exact ⟨cause, rfl⟩
  · intro id cause failed
    obtain ⟨cause, many⟩ := ofManyRows_of_error failed
    exact ⟨cause, by rw [many]; rfl⟩

def Sample.overlapping : List Cell :=
  [⟨"d", [.field "a", .field "b"], .null, 1⟩, ⟨"d", [.field "a"], .bool true, 1⟩]

theorem overlapping_valid : ∀ cell ∈ Sample.overlapping, cell.path.Valid := by
  have valid : Path.Valid [.field "a", .field "b"] :=
    Path.ofDotted_valid "a.b" rfl
  exact List.forall_mem_cons.mpr ⟨valid, List.forall_mem_singleton.mpr fun s hs =>
    valid s (List.mem_of_mem_take (i := 1) hs)⟩

/-- The leaves overlap in one document, and another is read with it. -/
theorem ofRows_exact_overlapping :
    (∃ cause, (ofRows [] none (Sample.overlapping.map (Cell.row 2))).mapError Error.corruptRow =
      .error (.corruptRow cause)) ∧
    ∃ cause, (ofManyRows [] none (Cell.row 2 ⟨"c", [], .null, 1⟩ ::
      Sample.overlapping.map (Cell.row 2))).mapError Error.corruptRow = .error (.corruptRow cause) := by
  obtain ⟨_, accepted, _, refused, _⟩ := ofRows_exact [] none (Sample.overlapping.map (Cell.row 2))
  have failed : ¬ ∃ v, ofRows [] none (Sample.overlapping.map (Cell.row 2)) = .ok v := by
    intro ok
    obtain ⟨cells, read, consistent⟩ := accepted.mp ok
    rw [Row.mapM_decode_rows overlapping_valid] at read
    cases read
    have apart := List.rel_of_pairwise_cons consistent.apart (List.mem_cons_self ..)
    exact apart.2 ⟨[.field "b"], rfl⟩
  refine ⟨refused failed, ?_⟩
  obtain ⟨_, _, _, _, _, many, _⟩ :=
    ofRows_exact [] none (Cell.row 2 ⟨"c", [], .null, 1⟩ :: Sample.overlapping.map (Cell.row 2))
  cases own : ofRows [] none (Sample.overlapping.map (Cell.row 2)) with
  | ok v => exact absurd ⟨v, own⟩ failed
  | error cause => exact many "d" cause own

end Assembly

end LeafStore
