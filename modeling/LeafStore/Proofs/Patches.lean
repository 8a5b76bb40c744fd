import LeafStore.Proofs.ReadAnswers
/-!
Patches. A patch sets the members that it names and leaves the others as they are; beside its path
it does what a put does.
-/
namespace LeafStore

namespace Json

def merge (old members : List (String × Json)) : List (String × Json) :=
  members.foldl (fun map member => Sorted.insert member.1 member.2 map) old

theorem merge_ascending {old : List (String × Json)} (ascending : Sorted.Ascending old)
    (members : List (String × Json)) : Sorted.Ascending (merge old members) := by
  induction members generalizing old with
  | nil => exact ascending
  | cons member rest ih => exact ih (Sorted.insert_ascending ascending member.1 member.2)

theorem lookup_merge {old members : List (String × Json)} (ascending : Sorted.Ascending old)
    (distinct : Sorted.Ascending members) (name : String) :
    (merge old members).lookup name = (members.lookup name).or (old.lookup name) := by
  induction distinct generalizing old with
  | nil => rfl
  | @cons member rest before _ ih =>
    show (merge (Sorted.insert member.1 member.2 old) rest).lookup name = _
    rw [ih (Sorted.insert_ascending ascending _ _), Sorted.lookup_insert ascending, List.lookup_cons]
    cases same : name == member.1 with
    | false => rfl
    | true =>
      have none : rest.lookup name = none := by
        rw [List.lookup_eq_none_iff]
        intro other ho
        simpa [eq_of_beq same] using Sorted.ne_of_lt (before other ho)
      rw [none]
      rfl

@[simp] theorem lookup_normalMembers (members : List (String × Json)) (name : String) :
    (normalMembers members).lookup name = (members.lookup name).map normal := by
  induction members with
  | nil => rfl
  | cons member rest ih =>
    rw [normalMembers, List.lookup_cons, List.lookup_cons, ih]
    cases name == member.1 <;> rfl

theorem lookup_memberParts (members : List (String × Json)) (name : String) :
    ((memberParts members).map fun p => (p.1, p.2.leaves)).lookup (.field name) =
      (members.lookup name).map leaves := by
  induction members with
  | nil => rfl
  | cons member rest ih =>
    have same : (Segment.field name == .field member.1) = (name == member.1) := by
      rw [Bool.eq_iff_iff, beq_iff_eq, beq_iff_eq, Segment.field.injEq]
    rw [memberParts, List.map_cons, List.map_cons, List.lookup_cons, List.lookup_cons, same]
    cases name == member.1 with
    | true => rfl
    | false => exact ih

theorem pick_leaves {members : List (String × Json)} (filled : members ≠ [])
    (ascending : Sorted.Ascending members) (name : String) :
    Assembly.pick (.field name) (Json.object members).leaves =
      ((members.lookup name).map leaves).getD [] := by
  rcases (Json.object members).leaf_or_parts with ⟨_, _, _, none⟩ | ⟨_, _, leaves⟩
  · exact absurd (List.map_eq_nil_iff.mp none) filled
  · have parts : Sorted.Ascending ((Json.object members).parts.map fun p => (p.1, p.2.leaves)) :=
      List.pairwise_map.mpr (List.pairwise_map.mpr ascending)
    rw [leaves, Assembly.pick_spread parts]
    exact congrArg (Option.getD · []) (lookup_memberParts members name)

end Json

namespace Limits

/-- What the deletions of a patch cover: at and below its path all but the other members, and what
cannot stand beside them. -/
theorem patch_covers_iff {limits : Limits} {document : String} {path : Path} {time : Int}
    {batch : Batch} {members : List (String × Json)}
    (put : limits.put document path (.object members) true time = .ok batch) (hp : path.Valid)
    {q : Path} (hq : q.Valid) (width : Nat) :
    (∃ d ∈ batch.deletions, d.covers (q.padded width) = true) ↔
      (∃ rest, q = path ++ rest ∧
        ∀ name tail, rest = .field name :: tail → name ∈ members.map (·.1)) ∨
      ¬ path <+: q ∧ ¬ path.Parts q := by
  obtain ⟨_, deletions, _, cleared, rfl⟩ := put_eq_ok put
  obtain ⟨names, named, rfl⟩ := map_eq_ok (show (patchedNames (.object members)).map _ = _ from cleared)
  obtain ⟨_, same, _, rfl⟩ := patchedNames_eq_ok named
  cases same
  simp only [List.mem_append, or_and_right, exists_or]
  rw [merging_covers_iff document _ _ hp hq, ancestorDeletions_covers_iff document _ hp hq]

/-- Beside its path a write deletes what cannot stand there, whether it is a put or a patch. -/
theorem put_covers_beside_iff {limits : Limits} {document : String} {path : Path} {time : Int}
    {batch : Batch} {value : Json} {patching : Bool}
    (put : limits.put document path value patching time = .ok batch) (hp : path.Valid) {q : Path}
    (hq : q.Valid) (beside : ¬ path <+: q) (width : Nat) :
    (∃ d ∈ batch.deletions, d.covers (q.padded width) = true) ↔ ¬ path.Parts q := by
  cases patching with
  | false =>
    obtain ⟨_, _, _, cleared, rfl⟩ := put_eq_ok put
    cases cleared
    exact replacement_covers_iff document _ hp hq width
  | true =>
    obtain ⟨_, deletions, _, cleared, made⟩ := put_eq_ok put
    obtain ⟨names, named, _⟩ := map_eq_ok (show (patchedNames value).map _ = _ from cleared)
    obtain ⟨members, rfl, _, _⟩ := patchedNames_eq_ok named
    rw [patch_covers_iff put hp hq]
    refine ⟨fun covered => ?_, fun joined => .inr ⟨beside, joined⟩⟩
    rcases covered with ⟨rest, rfl, _⟩ | ⟨_, joined⟩
    · exact absurd (List.prefix_append _ _) beside
    · exact joined

theorem put_of_patch {limits : Limits} {document : String} {path : Path} {time : Int}
    {batch : Batch} {value : Json} (ok : limits.put document path value true time = .ok batch) :
    ∃ other, limits.put document path value false time = .ok other := by
  obtain ⟨_, room, ok⟩ := bind_eq_ok ok
  obtain ⟨rows, walked, _⟩ := bind_eq_ok ok
  exact ⟨_, by rw [put, room, mapError_eq_ok walked]; rfl⟩

end Limits

namespace Assembly

theorem perm_of_mem_iff {a b : Branch} (ha : Distinct a) (hb : Distinct b)
    (same : ∀ entry, entry ∈ a ↔ entry ∈ b) : a.Perm b := by
  have nodup : ∀ {branch : Branch}, Distinct branch → branch.Nodup := fun h =>
    h.imp fun differ same => differ (congrArg Prod.fst same)
  exact (List.perm_ext_iff_of_nodup (nodup ha) (nodup hb)).mpr same

end Assembly

namespace Table

theorem Legible.mem_cells {width : Nat} {t : Table} (h : t.Legible width) (document : String)
    {cell : Cell} (valid : cell.path.Valid) :
    cell ∈ t.cells document ↔ cell.row width ∈ t.live document := by
  rw [h.rows]
  refine ⟨fun there => List.mem_map.mpr ⟨cell, there, rfl⟩, fun live => ?_⟩
  obtain ⟨other, there, same⟩ := List.mem_map.mp live
  rwa [← row_inj (h.valid document other there) valid same]

end Table

namespace Service

open Assembly (below pick)

variable {s : Service MemoryStore} {writes : List WriteCall} {call : WriteCall} {batch : Batch}
  {members : List (String × Json)}

def leavesAt (s : Service MemoryStore) (writes : List WriteCall) (call : WriteCall) : List Cell :=
  ((s.after writes).table call.table).cells call.document

theorem leavesAt_distinct (memory : s.store = MemoryStore.rowStore) (writes : List WriteCall)
    (call : WriteCall) (path : Path) : Assembly.Distinct (below path (s.leavesAt writes call)) :=
  Assembly.below_distinct path ((after_legible memory writes call.table).distinct call.document)

theorem mem_leavesAt (memory : s.store = MemoryStore.rowStore)
    (latest : s.Latest writes call batch) {cells : List Cell}
    (rows : batch.rows = cells.map (Cell.row s.config.maxDepth))
    (written : ∀ cell ∈ cells, cell.path.Valid) {cell : Cell} (valid : cell.path.Valid) :
    cell ∈ s.leavesAt (writes ++ [call]) call ↔ cell ∈ cells ∨ cell ∈ s.leavesAt writes call ∧
      ¬ ∃ d ∈ batch.deletions, d.covers (cell.path.padded s.config.maxDepth) = true := by
  unfold leavesAt
  rw [(after_legible memory _ _).mem_cells _ valid, (after_legible memory _ _).mem_cells _ valid]
  refine (latest.live_after memory _).trans (or_congr ?_ (and_congr_right fun _ => ?_))
  · rw [rows]
    refine ⟨fun there => ?_, fun there => List.mem_map.mpr ⟨cell, there, rfl⟩⟩
    obtain ⟨other, ho, same⟩ := List.mem_map.mp there
    exact Table.row_inj (written other ho) valid same ▸ ho
  · constructor
    · rintro uncovered ⟨d, hd, covered⟩
      exact Bool.false_ne_true ((uncovered d hd).symm.trans covered)
    · exact fun none d hd => Bool.eq_false_iff.mpr fun covered => none ⟨d, hd, covered⟩

theorem mem_below_patched (memory : s.store = MemoryStore.rowStore)
    (latest : s.Latest writes call batch)
    (put : s.config.limits.put call.document call.path (.object members) true call.time = .ok batch)
    (entry : Path × Leaf) :
    entry ∈ below call.path (s.leavesAt (writes ++ [call]) call) ↔
      entry ∈ (Json.object members).leaves ∨
        entry ∈ below call.path (s.leavesAt writes call) ∧
          ∃ name rest, entry.1 = .field name :: rest ∧ name ∉ members.map (·.1) := by
  obtain ⟨_, _, walked, _, made⟩ := Limits.put_eq_ok put
  have encodes := (Limits.rows_writes walked).encodes
  have written := encodes.cell_valid call.valid
  have leaves {cell : Cell} (valid : cell.path.Valid) :=
    mem_leavesAt memory latest (made ▸ encodes.rows) written valid
  -- Below the path of the patch only the members that it does not name are spared.
  have spared : ∀ rest, Path.Valid (call.path ++ rest) →
      ((¬ ∃ d ∈ batch.deletions,
          d.covers (Path.padded (call.path ++ rest) s.config.maxDepth) = true) ↔
        ∃ name tail, rest = .field name :: tail ∧ name ∉ members.map (·.1)) := by
    intro rest valid
    rw [Limits.patch_covers_iff put call.valid valid]
    simp only [List.append_cancel_left_eq, List.prefix_append, not_true, false_and, or_false]
    grind
  constructor
  · intro there
    obtain ⟨cell, hc, place, leaf⟩ := Assembly.mem_below.mp there
    have valid := (after_legible memory _ _).valid _ cell hc
    rcases (leaves valid).mp hc with new | ⟨old, uncovered⟩
    · obtain ⟨e, he, rfl⟩ := List.mem_map.mp new
      obtain rfl : e = entry := Prod.ext (List.append_cancel_left place) leaf
      exact .inl he
    · rw [place] at uncovered valid
      exact .inr ⟨Assembly.mem_below.mpr ⟨cell, old, place, leaf⟩, (spared _ valid).mp uncovered⟩
  · rintro (new | ⟨old, fresh⟩)
    · have there : (⟨call.document, call.path ++ entry.1, entry.2, call.time⟩ : Cell) ∈
          Limits.Target.cells ⟨call.document, call.time⟩ call.path (Json.object members).leaves :=
        List.mem_map.mpr ⟨entry, new, rfl⟩
      exact Assembly.mem_below.mpr ⟨_, (leaves (written _ there)).mpr (.inl there), rfl, rfl⟩
    · obtain ⟨cell, hc, place, leaf⟩ := Assembly.mem_below.mp old
      have valid := (after_legible memory _ _).valid _ cell hc
      refine Assembly.mem_below.mpr ⟨cell, (leaves valid).mpr (.inr ⟨hc, ?_⟩), place, leaf⟩
      rw [place] at valid ⊢
      exact (spared _ valid).mpr fresh

/-- At the members that a patch names its values are read, and at the others what was there. -/
theorem assemble_member (memory : s.store = MemoryStore.rowStore)
    (latest : s.Latest writes call batch)
    (put : s.config.limits.put call.document call.path (.object members) true call.time = .ok batch)
    (filled : members ≠ []) (addressable : (Json.object members).Addressable) (name : String) :
    Assembly.assemble (call.path.child (.field name)) none (s.leavesAt (writes ++ [call]) call) =
      match members.lookup name with
      | some v => .ok (some v.normal)
      | none => Assembly.assemble (call.path.child (.field name)) none (s.leavesAt writes call) := by
  obtain ⟨_, _, ascending, parts⟩ := addressable
  have ascending := ascending members rfl
  have apart := fun writes => leavesAt_distinct memory writes call (call.path.child (.field name))
  have members_after : ∀ entry, entry ∈ below (call.path.child (.field name))
      (s.leavesAt (writes ++ [call]) call) ↔
        entry ∈ ((members.lookup name).map Json.leaves).getD [] ∨
          entry ∈ below (call.path.child (.field name)) (s.leavesAt writes call) ∧
            name ∉ members.map (·.1) := by
    intro entry
    rw [Assembly.below_child, Assembly.below_child, Assembly.mem_pick, Assembly.mem_pick,
      mem_below_patched memory latest put, ← Json.pick_leaves filled ascending,
      Assembly.mem_pick]
    simp
  have listed : ∀ v, members.lookup name = some v ↔ (name, v) ∈ members :=
    ascending.lookup_eq_some_iff name
  cases lookup : members.lookup name with
  | some v =>
    have there := (listed v).mp lookup
    have addressable : v.Addressable := parts (.field name, v) (List.mem_map.mpr ⟨_, there, rfl⟩)
    refine assemble_leaves addressable _ (Assembly.perm_of_mem_iff (apart _) ?_ fun entry => ?_)
    · exact addressable.leaves_ascending.imp Sorted.ne_of_lt
    · have named : name ∈ members.map (·.1) := List.mem_map.mpr ⟨_, there, rfl⟩
      simp [members_after entry, lookup, named]
  | none =>
    refine Assembly.assemble_perm (apart _)
      (Assembly.perm_of_mem_iff (apart _) (apart _) fun entry => ?_)
    have fresh : name ∉ members.map (·.1) := by
      intro named
      obtain ⟨⟨_, v⟩, there, rfl⟩ := List.mem_map.mp named
      rw [(listed v).mpr there] at lookup
      cases lookup
    simp [members_after entry, lookup, fresh]

/-- Where there was an object, the members of the patch are set in it. -/
theorem assemble_merged (memory : s.store = MemoryStore.rowStore)
    (latest : s.Latest writes call batch)
    (put : s.config.limits.put call.document call.path (.object members) true call.time = .ok batch)
    (filled : members ≠ []) (addressable : (Json.object members).Addressable)
    {old : List (String × Json)}
    (read : Assembly.assemble call.path none (s.leavesAt writes call) = .ok (some (.object old))) :
    Assembly.assemble call.path none (s.leavesAt (writes ++ [call]) call) =
      .ok (some (.object (Json.merge old (Json.normalMembers members)))) := by
  have distinct := fun writes => leavesAt_distinct memory writes call call.path
  have entries := mem_below_patched memory latest put
  have each := assemble_member memory latest put filled addressable
  obtain ⟨ascending, before⟩ := Assembly.assemble_members (distinct writes) read
  have fields : ∀ entry ∈ below call.path (s.leavesAt (writes ++ [call]) call),
      ∃ name rest, entry.1 = .field name :: rest := by
    intro entry there
    rcases (entries entry).mp there with new | ⟨_, name, rest, place, _⟩
    · obtain ⟨name, rest, _, place⟩ := Limits.mem_leaves_object filled new
      exact ⟨name, rest, place⟩
    · exact ⟨name, rest, place⟩
  have occupied : below call.path (s.leavesAt (writes ++ [call]) call) ≠ [] := by
    obtain ⟨entry, there⟩ := List.exists_mem_of_ne_nil _ (Json.object members).leaves_ne_nil
    exact List.ne_nil_of_mem ((entries entry).mpr (.inl there))
  obtain ⟨found, object⟩ := Assembly.assemble_object (distinct _) occupied fields fun name => by
    rw [each name]
    cases members.lookup name with
    | some v => exact ⟨_, rfl⟩
    | none => exact ⟨_, before name⟩
  obtain ⟨ordered, after⟩ := Assembly.assemble_members (distinct _) object
  obtain ⟨_, _, names, _⟩ := addressable
  have set : Sorted.Ascending (Json.normalMembers members) := by
    rw [Json.normalMembers_eq]
    exact List.pairwise_map.mpr (names members rfl)
  -- Both have their names in order, so it is enough that they agree at each name.
  rw [object, ordered.ext_lookup (Json.merge_ascending ascending _) fun name => ?_]
  have here := (after name).symm.trans (each name)
  rw [Json.lookup_merge ascending set, Json.lookup_normalMembers]
  cases lookup : members.lookup name with
  | some v =>
    rw [lookup] at here
    exact Except.ok.inj here
  | none =>
    rw [lookup, before name] at here
    exact Except.ok.inj here

/-- Where there was no object, the members of the patch are all there is. -/
theorem assemble_replaced (memory : s.store = MemoryStore.rowStore)
    (latest : s.Latest writes call batch)
    (put : s.config.limits.put call.document call.path (.object members) true call.time = .ok batch)
    (addressable : (Json.object members).Addressable) {before : Option Json}
    (read : Assembly.assemble call.path none (s.leavesAt writes call) = .ok before)
    (other : ∀ old, before ≠ some (.object old)) :
    Assembly.assemble call.path none (s.leavesAt (writes ++ [call]) call) =
      .ok (some (.object (Json.normalMembers members))) := by
  have distinct := fun writes => leavesAt_distinct memory writes call call.path
  refine assemble_leaves addressable call.path (Assembly.perm_of_mem_iff (distinct _)
    (addressable.leaves_ascending.imp Sorted.ne_of_lt) fun entry => ?_)
  refine (mem_below_patched memory latest put entry).trans (or_iff_left ?_)
  rintro ⟨old, name, rest, place, _⟩
  obtain ⟨path, leaf⟩ := entry
  obtain rfl : path = .field name :: rest := place
  rw [Assembly.assemble_eq, if_neg (List.ne_nil_of_mem old)] at read
  obtain ⟨v, built, rfl⟩ := map_eq_ok read
  obtain ⟨members, object⟩ := Assembly.buildAll_below_field (distinct writes) built old
  exact other members (congrArg some object)

theorem prepare_put_of_patch {payload : String} (action : call.action = .patch payload)
    (prepared : s.prepare call = .ok batch) :
    ∃ other, s.prepare { call with action := .put payload } = .ok other := by
  obtain ⟨subject, table, document, path, valid, _, time⟩ := call
  obtain rfl : _ = WriteAction.patch payload := action
  obtain ⟨_, mayDelete, prepared⟩ := bind_eq_ok prepared
  obtain ⟨_, mayModify, prepared⟩ := bind_eq_ok prepared
  obtain ⟨_, named, prepared⟩ := bind_eq_ok prepared
  obtain ⟨value, read, prepared⟩ := bind_eq_ok prepared
  obtain ⟨other, put⟩ := Limits.put_of_patch prepared
  refine ⟨other, ?_⟩
  show s.prepareChange subject table document path payload false time = _
  rw [prepareChange, mayDelete, mayModify, named, read]
  exact put

theorem live_after_beside (memory : s.store = MemoryStore.rowStore)
    (latest : s.Latest writes call batch) (kept : call.action ≠ .delete) {row : Row} {q : Path}
    (columns : Path.ofColumns row.segments = .ok q) (beside : ¬ call.path <+: q) :
    row ∈ (s.after (writes ++ [call])).live call.table call.document ↔
      row ∈ (s.after writes).live call.table call.document ∧ call.path.Parts q := by
  obtain ⟨_, _, value, _, _, put⟩ := (prepare_eq_ok latest.prepared).resolve_right
    fun delete => kept delete.1
  have new : row ∉ batch.rows := by
    intro there
    obtain ⟨_, _, other, read, below⟩ := rows_below put row there
    rw [columns] at read
    exact beside (Except.ok.inj read ▸ below)
  refine (latest.live_after memory row).trans ((or_iff_right new).trans ?_)
  refine and_congr_right fun old => ?_
  obtain ⟨path, valid, segments⟩ := (after_legible memory writes _).mem_live old
  rw [segments, Path.ofColumns_padded valid] at columns
  obtain rfl := Except.ok.inj columns
  rw [segments, ← Classical.not_not (a := Path.Parts _ _),
    ← Limits.put_covers_beside_iff put call.valid valid beside s.config.maxDepth]
  simp

theorem live_after_unnamed (memory : s.store = MemoryStore.rowStore)
    (latest : s.Latest writes call batch)
    (put : s.config.limits.put call.document call.path (.object members) true call.time = .ok batch)
    (filled : members ≠ []) {name : String} (fresh : name ∉ members.map (·.1)) {row : Row} {q : Path}
    (columns : Path.ofColumns row.segments = .ok q) (below : call.path.child (.field name) <+: q) :
    row ∈ (s.after (writes ++ [call])).live call.table call.document ↔
      row ∈ (s.after writes).live call.table call.document := by
  obtain ⟨rest, rfl⟩ := below
  have new : row ∉ batch.rows := by
    obtain ⟨_, _, walked, _, rfl⟩ := Limits.put_eq_ok put
    have encodes := (Limits.rows_writes walked).encodes
    intro there
    rw [encodes.rows] at there
    obtain ⟨cell, hc, rfl⟩ := List.mem_map.mp there
    have valid := encodes.cell_valid call.valid cell hc
    obtain ⟨entry, he, rfl⟩ := List.mem_map.mp hc
    obtain ⟨other, tail, named, place⟩ := Limits.mem_leaves_object filled he
    have same := Except.ok.inj ((Path.ofColumns_padded valid s.config.maxDepth).symm.trans columns)
    rw [place, Path.child, List.append_assoc] at same
    cases List.append_cancel_left same
    exact fresh named
  refine (latest.live_after memory row).trans ((or_iff_right new).trans ?_)
  refine and_iff_left_of_imp fun old d hd => Bool.eq_false_iff.mpr fun covered => ?_
  obtain ⟨path, valid, segments⟩ := (after_legible memory writes _).mem_live old
  rw [segments, Path.ofColumns_padded valid] at columns
  obtain rfl := Except.ok.inj columns
  rw [segments] at covered
  rcases (Limits.patch_covers_iff put call.valid valid _).mp ⟨d, hd, covered⟩ with
    ⟨tail, split, named⟩ | ⟨off, _⟩
  · rw [Path.child, List.append_assoc] at split
    exact fresh (named name rest (List.append_cancel_left split).symm)
  · exact off (List.append_assoc .. ▸ List.prefix_append _ _)

theorem rows_beside (memory : s.store = MemoryStore.rowStore)
    (latest : s.Latest writes call batch) {payload : String}
    (action : call.action = .patch payload) {place : Path} (valid : place.Valid)
    (notBelow : ¬ call.path <+: place) (notAbove : ¬ place <+: call.path) :
    ((s.after (writes ++ [call])).live call.table call.document).filter
        ((Select.ofDocument call.document).below place).accepts =
      ((s.after (writes ++ [{ call with action := .put payload }])).live call.table
        call.document).filter ((Select.ofDocument call.document).below place).accepts := by
  obtain ⟨_, prepared⟩ := prepare_put_of_patch action latest.prepared
  have legible := fun writes => after_legible (s := s) memory writes call.table
  refine Sorted.eq_of_mem_iff Row.segments (((legible _).ascending _).filter _)
    (((legible _).ascending _).filter _) fun row => ?_
  rw [List.mem_filter, List.mem_filter]
  refine and_congr_left fun found => ?_
  have off : ∀ writes, row ∈ (s.after writes).live call.table call.document →
      ∃ q, Path.ofColumns row.segments = .ok q ∧ ¬ call.path <+: q := by
    intro writes live
    obtain ⟨q, hq, segments⟩ := (legible writes).mem_live live
    have leads := ((Select.below_accepts_iff ..).mp found).2
    rw [segments, Path.columns_prefix_padded_iff valid hq] at leads
    refine ⟨q, segments ▸ Path.ofColumns_padded hq _, fun below => ?_⟩
    exact (List.prefix_or_prefix_of_prefix below leads).elim notBelow notAbove
  -- A put in place of the patch is as late as it is, so either state is left by a latest write.
  have instead : s.Latest writes { call with action := .put payload } _ :=
    ⟨latest.newest, latest.late, prepared⟩
  have patched {q : Path} (columns : Path.ofColumns row.segments = .ok q) :=
    live_after_beside memory latest (action ▸ WriteAction.noConfusion) columns
  have put {q : Path} (columns : Path.ofColumns row.segments = .ok q) :=
    live_after_beside memory instead WriteAction.noConfusion columns
  constructor
  · intro live
    obtain ⟨q, columns, beside⟩ := off _ live
    exact (put columns beside).mpr ((patched columns beside).mp live)
  · intro live
    obtain ⟨q, columns, beside⟩ := off _ live
    exact (patched columns beside).mpr ((put columns beside).mp live)

/-- A patch that is later than all before it sets its members in the object at its path, or replaces
what else is there. The rows of other members stay, and beside the path it does what a put does. -/
theorem patch_merges (s : Service MemoryStore) (memory : s.store = MemoryStore.rowStore)
    (writes : List WriteCall) (call : WriteCall)
    (newest : ∀ earlier ∈ writes, earlier.time < call.time)
    (late : Limits.earliestTime < call.time) (payload : String)
    (action : call.action = .patch payload) (answer : Int)
    (succeeds : ((s.write call).run.run (s.after writes)).1 = .ok answer) :
    ∃ members, Json.ofText .document payload = .ok (.object members) ∧ members ≠ [] ∧
      (∀ subject before,
        ((s.get subject call.table call.document { path := call.path }).run.run
          (s.after writes)).1 = .ok before →
        ∃ response,
          ((s.get subject call.table call.document { path := call.path }).run.run
            (s.after (writes ++ [call]))).1 = .ok (some response) ∧
          ((∃ found old, before = some found ∧ found.data = .object old ∧
              response.data = .object (Json.merge old (Json.normalMembers members))) ∨
            (∀ found old, before = some found → found.data ≠ .object old) ∧
              response.data = (Json.object members).normal)) ∧
      (∀ name row q, name ∉ members.map (·.1) → Path.ofColumns row.segments = .ok q →
        call.path.child (.field name) <+: q →
        (row ∈ (s.after (writes ++ [call])).live call.table call.document ↔
          row ∈ (s.after writes).live call.table call.document)) ∧
      ∀ subject (request : ReadRequest), request.path.Valid → ¬ call.path <+: request.path →
        ¬ request.path <+: call.path →
        ((s.get subject call.table call.document request).run.run
            (s.after (writes ++ [call]))).1 =
          ((s.get subject call.table call.document request).run.run
            (s.after (writes ++ [{ call with action := .put payload }]))).1 := by
  obtain ⟨batch, prepared⟩ := prepared_of_write succeeds
  have latest : s.Latest writes call batch := ⟨newest, late, prepared⟩
  have kept : call.action ≠ .delete := action ▸ WriteAction.noConfusion
  obtain ⟨patching, payload', value, change, spelled, put⟩ :=
    (prepare_eq_ok prepared).resolve_right fun delete => kept delete.1
  obtain ⟨rfl, rfl⟩ : patching = true ∧ payload' = payload := by
    rw [action] at change
    cases patching with
    | true => exact ⟨rfl, (WriteAction.patch.inj change).symm⟩
    | false => cases change
  obtain ⟨rows, _, walked, cleared, _⟩ := Limits.put_eq_ok put
  obtain ⟨_, named, _⟩ := map_eq_ok (show (Limits.patchedNames value).map _ = _ from cleared)
  obtain ⟨members, rfl, filled, _⟩ := Limits.patchedNames_eq_ok named
  have addressable := (Limits.rows_writes walked).addressable (Json.ofText_canonical spelled)
  have idle := fun writes => (after_holds (s := s) memory writes).idle
  have legible := fun writes => after_legible (s := s) memory writes call.table
  refine ⟨members, spelled, filled, fun subject before ok => ?_, fun name row q fresh columns below =>
    live_after_unnamed memory latest put filled fresh columns below,
    fun subject request valid notBelow notAbove => ?_⟩
  · rw [get_path memory (idle _) (legible _) call.valid] at ok
    obtain ⟨plan, asked, ok⟩ := bind_eq_ok ok
    obtain ⟨found, assembled, rfl⟩ := map_eq_ok ok
    have assembled := mapError_eq_ok assembled
    rw [get_path memory (idle _) (legible _) call.valid, asked]
    by_cases object : ∃ old, found = some (.object old)
    · obtain ⟨old, rfl⟩ := object
      have merged := assemble_merged memory latest put filled addressable assembled
      unfold leavesAt at merged
      rw [merged]
      exact ⟨_, rfl, .inl ⟨_, old, rfl, rfl, rfl⟩⟩
    · have other : ∀ old, found ≠ some (.object old) := fun old same => object ⟨old, same⟩
      have replaced := assemble_replaced memory latest put addressable assembled other
      unfold leavesAt at replaced
      rw [replaced]
      refine ⟨_, rfl, .inr ⟨fun response old same data => ?_, rfl⟩⟩
      obtain ⟨json, rfl, rfl⟩ := Option.map_eq_some_iff.mp same
      exact other old (congrArg some data)
  · exact get_congr memory (idle _) (idle _) (legible _).ordered (legible _).ordered subject
      (rows_beside memory latest action valid notBelow notAbove)

def Sample.memberWithSibling : List WriteCall :=
  [⟨⟨"", ""⟩, ⟨"k", "t"⟩, "d", [], Path.valid_root,
    .put "\x7b\"m\":\x7b\"b\":1,\"c\":[]\x7d,\"z\":null\x7d", 4⟩]

def Sample.memberPatch : WriteCall :=
  ⟨⟨"", ""⟩, ⟨"k", "t"⟩, "d", [.field "m"], Path.ofDotted_valid "m" rfl,
    .patch "\x7b\"b\":\x7b\"x\":2.0\x7d\x7d", 5⟩

/-- The member of the patch is set in the object at its path, and the other one stays. -/
theorem patch_merges_amending :
    ((sample.after (Sample.memberWithSibling ++ [Sample.memberPatch])).live ⟨"k", "t"⟩ "d").map
        (·.segments) =
        [["m", "b", "x"], ["m", "c", ""], ["z", "", ""]] ∧
      ∃ members, Json.ofText .document "\x7b\"b\":\x7b\"x\":2.0\x7d\x7d" = .ok (.object members) ∧
        ∀ found old,
          ((sample.get ⟨"", ""⟩ ⟨"k", "t"⟩ "d" { path := [.field "m"] }).run.run
            (sample.after Sample.memberWithSibling)).1 = .ok (some found) →
          found.data = .object old →
          ∃ response,
            ((sample.get ⟨"", ""⟩ ⟨"k", "t"⟩ "d" { path := [.field "m"] }).run.run
              (sample.after (Sample.memberWithSibling ++ [Sample.memberPatch]))).1 =
                .ok (some response) ∧
            response.data = .object (Json.merge old (Json.normalMembers members)) := by
  obtain ⟨members, spelled, _, gets, _, _⟩ := patch_merges sample rfl
    Sample.memberWithSibling Sample.memberPatch (by decide)
    (by decide) _ rfl 5 (eq_ok_of_toOption (by decide +kernel))
  refine ⟨by decide +kernel, members, spelled, fun found old ok object => ?_⟩
  obtain ⟨response, read, ⟨_, _, same, data, merged⟩ | ⟨other, _⟩⟩ := gets ⟨"", ""⟩ (some found) ok
  · cases same
    cases object.symm.trans data
    exact ⟨response, read, merged⟩
  · exact absurd object (other found old rfl)

end Service

end LeafStore
