import LeafStore.Proofs.DottedPaths
import LeafStore.Proofs.Positions
import LeafStore.Proofs.ReadAnswers
/-!
Times of leaves. After a run of writes each live leaf has the time of the last write that put it
there, and a value has the time of its latest leaf.
-/
namespace LeafStore

namespace WriteAction

theorem change_inj {patching patching' : Bool} {payload payload' : String}
    (same : change patching payload = change patching' payload') : payload = payload' := by
  cases patching <;> cases patching' <;> cases same <;> rfl

theorem change_ne_delete {patching : Bool} {payload : String} :
    change patching payload ≠ .delete := by
  cases patching <;> exact fun same => by cases same

end WriteAction

/-- A put or patch of a value that, placed at the path of the write, has a leaf at a path. -/
def WriteCall.PutsLeaf (call : WriteCall) (path : Path) : Prop :=
  ∃ patching payload value rest w leaf, call.action = .change patching payload ∧
    Json.ofText .document payload = .ok value ∧ path = call.path ++ rest ∧
    value.at? rest = some w ∧ Leaf.ofJson? w = some leaf

namespace Service

section Prepared

variable {σ : Type} {s : Service σ} {call : WriteCall} {batch : Batch}

theorem putsLeaf_iff (prepared : s.prepare call = .ok batch) {path : Path} :
    call.PutsLeaf path ↔ path.Valid ∧
      ∃ leaf, Cell.row s.config.maxDepth ⟨call.document, path, leaf, call.time⟩ ∈ batch.rows := by
  rcases prepare_eq_ok prepared with ⟨patching, payload, value, action, read, put⟩ | ⟨action, delete⟩
  · obtain ⟨rows, _, walked, _, rfl⟩ := Limits.put_eq_ok put
    obtain ⟨encodes, addressable⟩ := Limits.rows_writes walked
    have addressable := addressable (Json.ofText_canonical read)
    constructor
    · rintro ⟨patching', payload', value', rest, w, leaf, action', read', rfl, there, isLeaf⟩
      obtain rfl := WriteAction.change_inj (action'.symm.trans action)
      obtain rfl : value' = value := Except.ok.inj (read'.symm.trans read)
      have cell : (⟨call.document, call.path ++ rest, leaf, call.time⟩ : Cell) ∈
          Limits.Target.cells ⟨call.document, call.time⟩ call.path value'.leaves :=
        List.mem_map.mpr ⟨(rest, leaf), addressable.mem_leaves_iff.mpr ⟨w, there, isLeaf⟩, rfl⟩
      refine ⟨encodes.cell_valid call.valid _ cell, leaf, ?_⟩
      rw [encodes.rows]
      exact List.mem_map.mpr ⟨_, cell, rfl⟩
    · rintro ⟨valid, leaf, there⟩
      rw [encodes.rows] at there
      obtain ⟨cell, hc, same⟩ := List.mem_map.mp there
      obtain rfl := Table.row_inj (encodes.cell_valid call.valid cell hc) valid same
      obtain ⟨⟨rest, leaf⟩, entry, same⟩ := List.mem_map.mp hc
      obtain ⟨-, rfl, rfl, -⟩ := Cell.mk.inj same
      obtain ⟨w, position, isLeaf⟩ := addressable.mem_leaves_iff.mp entry
      exact ⟨patching, payload, value, rest, w, _, action, read, rfl, position, isLeaf⟩
  · rw [Limits.delete_eq_ok delete]
    constructor
    · rintro ⟨_, _, _, _, _, _, action', _⟩
      exact absurd (action'.symm.trans action) WriteAction.change_ne_delete
    · rintro ⟨_, _, there⟩
      cases there

end Prepared

/-- Every write of a run is answered with a time, in the state that those before it leave. -/
def Succeed (s : Service MemoryStore) (calls : List WriteCall) : Prop :=
  ∀ before call later, calls = before ++ call :: later →
    ∃ time, ((s.write call).run.run (s.after before)).1 = .ok time

variable {s : Service MemoryStore} {calls : List WriteCall} {name : TableName} {document : String}

theorem Succeed.prepared (succeed : s.Succeed calls) {call : WriteCall} (there : call ∈ calls) :
    ∃ batch, s.prepare call = .ok batch := by
  obtain ⟨before, later, split⟩ := List.append_of_mem there
  obtain ⟨time, answer⟩ := succeed before call later split
  exact prepared_of_write answer

theorem succeed_iff (memory : s.store = MemoryStore.rowStore) :
    s.Succeed calls ↔ ∀ call ∈ calls, (s.prepare call).toOption.isSome = true := by
  constructor
  · intro succeed call there
    obtain ⟨batch, prepared⟩ := succeed.prepared there
    rw [prepared]
    rfl
  · intro prepared before call later split
    obtain ⟨batch, there⟩ := Option.isSome_iff_exists.mp
      (prepared call (split ▸ List.mem_append_right _ (List.mem_cons_self ..)))
    rw [run_write memory (eq_ok_of_toOption there) (after_holds memory before).idle]
    exact ⟨_, rfl⟩

theorem cells_survive (memory : s.store = MemoryStore.rowStore) {cell : Cell}
    (live : cell ∈ ((s.after calls).table name).cells document) :
    cell.document = document ∧ cell.path.Valid ∧
      Survives ((s.batches name calls).flatMap Batch.mutations) (cell.row s.config.maxDepth) := by
  have sound : ∀ b ∈ s.batches name calls, ∃ cells, b.Sound s.config.maxDepth cells := by
    intro b hb
    obtain ⟨_, _, _, prepared⟩ := mem_batches.mp hb
    exact (s.prepare_sound prepared).2.2
  obtain ⟨about, valid, _, survives⟩ :=
    (((after_holds memory calls).tables name).live_cells sound document).2 cell live
  exact ⟨about, valid, survives⟩

/-- A live leaf has the time of a write that put it there, and no later write did. -/
theorem last_put (memory : s.store = MemoryStore.rowStore) (succeed : s.Succeed calls)
    (increasing : calls.Pairwise (·.time < ·.time)) {cell : Cell}
    (live : cell ∈ ((s.after calls).table name).cells document) :
    ∃ before call later, calls = before ++ call :: later ∧ call.table = name ∧
      call.document = document ∧ call.PutsLeaf cell.path ∧
      ((s.write call).run.run (s.after before)).1 = .ok cell.writeTime ∧
      ∀ other ∈ later, other.table = name → other.document = document →
        ¬ other.PutsLeaf cell.path := by
  obtain ⟨rfl, valid, survives⟩ := cells_survive memory live
  obtain ⟨batch, hb, written⟩ := List.mem_flatMap.mp survives.written
  obtain ⟨call, hc, rfl, prepared⟩ := mem_batches.mp hb
  obtain ⟨owner, time, cells, sound⟩ := s.prepare_sound prepared
  have new : cell.row s.config.maxDepth ∈ batch.rows := by
    simpa [Batch.mutations] using written
  have here : cell.document = call.document := (sound.owner _ written).trans owner
  have now : cell.writeTime = call.time := (sound.rowTime _ new).trans time
  obtain ⟨before, later, split⟩ := List.append_of_mem hc
  refine ⟨before, call, later, split, rfl, here.symm, ?_, ?_, ?_⟩
  · refine (putsLeaf_iff prepared).mpr ⟨valid, cell.leaf, ?_⟩
    rw [← here, ← now]
    exact new
  · rw [run_write memory prepared (after_holds memory before).idle, now, ← time]
  · -- A later put of the leaf would have a row in the same place, written after this one.
    intro other later' sameTable sameDocument puts
    have there : other ∈ calls := split ▸ List.mem_append_right _ (List.mem_cons_of_mem _ later')
    obtain ⟨otherBatch, otherPrepared⟩ := succeed.prepared there
    obtain ⟨_, leaf, row⟩ := (putsLeaf_iff otherPrepared).mp puts
    have arrived : otherBatch ∈ s.batches call.table calls :=
      mem_batches.mpr ⟨other, there, sameTable, otherPrepared⟩
    have older : other.time ≤ cell.writeTime := survives.newest _
      (List.mem_flatMap.mpr ⟨otherBatch, arrived, List.mem_append_right _
        (List.mem_map.mpr ⟨_, row, rfl⟩)⟩) sameDocument rfl
    rw [split, List.pairwise_append, List.pairwise_cons] at increasing
    have after : call.time < other.time := increasing.2.1.1 other later'
    omega

/-- The leaves that the last write of a run puts are live. -/
theorem live_of_puts (memory : s.store = MemoryStore.rowStore) (succeed : s.Succeed calls)
    (increasing : calls.Pairwise (·.time < ·.time)) {before : List WriteCall} {call : WriteCall}
    (last : calls = before ++ [call]) (late : Limits.earliestTime < call.time) {path : Path}
    (puts : call.PutsLeaf path) :
    ∃ cell ∈ ((s.after calls).table call.table).cells call.document, cell.path = path := by
  subst last
  obtain ⟨batch, prepared⟩ :=
    succeed.prepared (List.mem_append_right before (List.mem_cons_self (a := call)))
  obtain ⟨valid, leaf, new⟩ := (putsLeaf_iff prepared).mp puts
  have newest : ∀ earlier ∈ before, earlier.time < call.time := fun earlier there =>
    (List.pairwise_append.mp increasing).2.2 earlier there call (List.mem_cons_self ..)
  have latest : s.Latest before call batch := ⟨newest, late, prepared⟩
  have live := (latest.live_after memory _).mpr (.inl new)
  have legible := after_legible memory (before ++ [call]) call.table
  rw [MemoryStore.live, legible.rows] at live
  obtain ⟨cell, hc, same⟩ := List.mem_map.mp live
  obtain rfl := Table.row_inj (legible.valid _ cell hc) valid same
  exact ⟨_, hc, rfl⟩

theorem reads_writeTimes (memory : s.store = MemoryStore.rowStore) {base : MemoryStore}
    (legible : (base.table name).Legible s.config.maxDepth) (subject : Subject)
    (document : String) {path : Path} (valid : path.Valid) :
    (s.writeTimes subject name document path).Reads base
      ((s.prepareTimes subject name document).map fun _ => timesByPath
        (((base.table name).cells document).filter fun cell => path <+: cell.path)) := by
  have rows := Engine.reads_documentRows (e := s.engine) memory legible.ordered document path
  rw [legible.live_below document valid] at rows
  have decoded := Row.mapM_decode_rows (legible.valid_below document path) s.config.maxDepth
  cases prepared : s.prepareTimes subject name document with
  | error cause =>
    rw [writeTimes, prepared]
    exact (Access.reads_ofExcept _).bind_error _
  | ok _ =>
    rw [writeTimes, prepared]
    refine (Access.reads_ofExcept _).bind_ok (rows.bind_ok ?_)
    rw [Engine.decodeRows, decoded]
    exact (Access.reads_ofExcept _).bind_ok (Access.reads_pure _)

theorem timesByPath_perm {cells : List Cell} (valid : ∀ cell ∈ cells, cell.path.Valid)
    (distinct : cells.Pairwise fun a b => a.path ≠ b.path) :
    (timesByPath cells).Perm (cells.map fun cell => (cell.path.dotted, cell.writeTime)) ∧
      ((timesByPath cells).map (·.1)).Nodup := by
  have keys : ((cells.map fun cell => (cell.path.dotted, cell.writeTime)).map (·.1)).Nodup := by
    rw [List.map_map]
    exact List.pairwise_map.mpr (distinct.imp_of_mem fun ha hb differ same =>
      differ (Path.dotted_inj (valid _ ha) (valid _ hb) same))
  have perm := Sorted.ofPairs_perm keys
  exact ⟨perm, (perm.map _).nodup_iff.mpr keys⟩

/-- A get without a condition that finds a value has found leaves, and has the time of the latest. -/
theorem get_latest (memory : s.store = MemoryStore.rowStore) {base : MemoryStore}
    (idle : base.failure = none) (legible : (base.table name).Legible s.config.maxDepth)
    {subject : Subject} {request : ReadRequest} (valid : request.path.Valid)
    (unfiltered : ∀ filter, s.readFilter request.filter = .ok (some filter) → filter = [])
    {found : DocumentResponse}
    (answered : ((s.get subject name document request).run.run base).1 = .ok (some found)) :
    ∃ time, found.writeTime = some time ∧
      ((((base.table name).cells document).filter fun cell => request.path <+: cell.path).map
        (·.writeTime)).max? = some time := by
  rw [(reads_answer memory legible.ordered subject document request).answer_eq idle,
    MemoryStore.live, legible.live_below document valid] at answered
  obtain ⟨plan, prepared, answered⟩ := bind_eq_ok answered
  obtain ⟨fields, rfl⟩ := prepareRead_unfiltered unfiltered prepared
  obtain ⟨data, assembled, answered⟩ := bind_eq_ok answered
  obtain ⟨json, rfl, rfl⟩ := Option.map_eq_some_iff.mp (Except.ok.inj answered)
  generalize ((base.table name).cells document).filter _ = cells at assembled ⊢
  have filled : cells ≠ [] := by
    rintro rfl
    cases assembled
  have times : latest (cells.map (Cell.row s.config.maxDepth)) = (cells.map (·.writeTime)).max? := by
    rw [latest, List.map_map]
    rfl
  have some : (cells.map (·.writeTime)).max? ≠ none := fun none =>
    filled (List.map_eq_nil_iff.mp (List.max?_eq_none_iff.mp none))
  obtain ⟨time, there⟩ := Option.ne_none_iff_exists'.mp some
  exact ⟨time, times.trans there, there⟩

/-- After a run of writes the times of leaves tell its history. Each live leaf at a path or below it
has one entry, with the answer of the last write that put the leaf there; all leaves that the last
write of the run put are live; and a get of the path, whatever fields it asks for, has the latest of
these times. -/
theorem times_tell_history (s : Service MemoryStore) (memory : s.store = MemoryStore.rowStore)
    (calls : List WriteCall) (succeed : s.Succeed calls)
    (increasing : calls.Pairwise (·.time < ·.time)) (subject : Subject) (name : TableName)
    (document : String) (path : Path) (valid : path.Valid) :
    ∃ cells times, ((s.after calls).live name document).mapM Row.decode = .ok cells ∧
      ((s.writeTimes subject name document path).run.run (s.after calls)).1 =
        (s.prepareTimes subject name document).map (fun _ => times) ∧
      (times.map (·.1)).Nodup ∧
      times.Perm ((cells.filter fun cell => path <+: cell.path).map fun cell =>
        (cell.path.dotted, cell.writeTime)) ∧
      (∀ cell ∈ cells, ∃ before call later, calls = before ++ call :: later ∧
        call.table = name ∧ call.document = document ∧ call.PutsLeaf cell.path ∧
        ((s.write call).run.run (s.after before)).1 = .ok cell.writeTime ∧
        ∀ other ∈ later, other.table = name → other.document = document →
          ¬ other.PutsLeaf cell.path) ∧
      (∀ before call leafPath, calls = before ++ [call] → Limits.earliestTime < call.time →
        call.table = name → call.document = document → call.PutsLeaf leafPath →
        ∃ cell ∈ cells, cell.path = leafPath) ∧
      ∀ request found, request.path = path →
        (∀ filter, s.readFilter request.filter = .ok (some filter) → filter = []) →
        ((s.get subject name document request).run.run (s.after calls)).1 = .ok (some found) →
        ∃ time, found.writeTime = some time ∧ (times.map (·.2)).max? = some time := by
  have legible := after_legible memory calls name
  have idle := (after_holds memory calls).idle
  obtain ⟨perm, keys⟩ := timesByPath_perm (legible.valid_below document path)
    ((legible.distinct document).filter _)
  refine ⟨_, _, legible.decode_live document,
    (reads_writeTimes memory legible subject document valid).answer_eq idle, keys, perm,
    fun cell hc => last_put memory succeed increasing hc, ?_, ?_⟩
  · rintro before call leafPath last late rfl rfl puts
    exact live_of_puts memory succeed increasing last late puts
  rintro request found rfl unfiltered answered
  obtain ⟨time, reported, latest⟩ := get_latest memory idle legible valid unfiltered answered
  refine ⟨time, reported, ?_⟩
  have times := perm.map (·.2)
  rw [List.map_map] at times
  rw [List.max?_eq_some_iff] at latest ⊢
  exact ⟨times.mem_iff.mpr latest.1, fun other there => latest.2 other (times.mem_iff.mp there)⟩

theorem valid_patched : Path.Valid [.field "a"] := Path.ofDotted_valid "a" rfl

theorem valid_deleted : Path.Valid [.field "b"] := Path.ofDotted_valid "b" rfl

def Sample.rewritten : List WriteCall :=
  [⟨⟨"", ""⟩, ⟨"k", "t"⟩, "d", [], Path.valid_root,
      .put "\x7b\"a\":\x7b\"x\":1,\"y\":2\x7d,\"b\":[]\x7d", 3⟩,
    ⟨⟨"", ""⟩, ⟨"k", "t"⟩, "d", [.field "a"], valid_patched, .patch "\x7b\"y\":null\x7d", 5⟩,
    ⟨⟨"", ""⟩, ⟨"k", "t"⟩, "d", [.field "b"], valid_deleted, .delete, 6⟩]

theorem times_tell_history_rewritten :
    ((sample.writeTimes ⟨"", ""⟩ ⟨"k", "t"⟩ "d" []).run.run (sample.after Sample.rewritten)).1 =
        .ok [("a.x", 3), ("a.y", 5)] ∧
      ∃ found, ((sample.get ⟨"", ""⟩ ⟨"k", "t"⟩ "d" { fields := some "[\"a.x\"]" }).run.run
          (sample.after Sample.rewritten)).1 = .ok (some found) ∧
        found.data.compact = "\x7b\"a\":\x7b\"x\":1\x7d\x7d" ∧ found.writeTime = some 5 := by
  obtain ⟨_, times, _, answer, _, _, _, _, gets⟩ := times_tell_history sample rfl Sample.rewritten
    ((succeed_iff rfl).mpr (by decide +kernel)) (by decide) ⟨"", ""⟩ ⟨"k", "t"⟩ "d" [] Path.valid_root
  have here : ((sample.writeTimes ⟨"", ""⟩ ⟨"k", "t"⟩ "d" []).run.run
      (sample.after Sample.rewritten)).1 = .ok [("a.x", 3), ("a.y", 5)] :=
    eq_ok_of_toOption (by decide +kernel)
  obtain rfl : _ = times := Except.ok.inj (here.symm.trans answer)
  have data : ((sample.get ⟨"", ""⟩ ⟨"k", "t"⟩ "d" { fields := some "[\"a.x\"]" }).run.run
      (sample.after Sample.rewritten)).1.toOption.join.map (·.data.compact) =
        some "\x7b\"a\":\x7b\"x\":1\x7d\x7d" := by decide +kernel
  obtain ⟨found, there, same⟩ := Option.map_eq_some_iff.mp data
  have got := eq_ok_of_toOption (Option.join_eq_some_iff.mp there)
  obtain ⟨time, reported, latest⟩ := gets _ found rfl (fun _ none => by cases none) got
  exact ⟨here, found, got, same, reported.trans latest.symm⟩

end Service

end LeafStore
