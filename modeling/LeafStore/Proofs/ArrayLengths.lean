import LeafStore.Proofs.Acceptance
import LeafStore.Proofs.WriteTimes
/-!
Lengths of arrays. An array that is read is as long as its last item needs, and that item was put
there: by a write of a longer value, whose arrays are short enough, or by a write to a path through
the item itself, whose position nothing bounds but the columns.
-/
namespace LeafStore

open Assembly (Branch placeItems placeMembers below pick mem_pick mem_below)

namespace Json

theorem mem_of_lookup_eq_some {members : List (String × Json)} {name : String} {v : Json}
    (found : members.lookup name = some v) : (name, v) ∈ members := by
  obtain ⟨before, after, rfl, _⟩ := List.lookup_eq_some_iff.mp found
  exact List.mem_append_right _ (List.mem_cons_self ..)

theorem occurs_of_at? {v w : Json} {path : Path} (there : v.at? path = some w) : w.Occurs v := by
  induction path generalizing v with
  | nil =>
    cases there
    exact .here
  | cons segment rest ih =>
    rw [at?_cons, Option.bind_eq_some_iff] at there
    obtain ⟨part, step, below⟩ := there
    have inside := ih below
    cases v with
    | array items =>
      cases segment with
      | index position => exact .item (List.mem_of_getElem? step) inside
      | field name => cases step
    | object members =>
      cases segment with
      | index position => cases step
      | field name => exact .member (mem_of_lookup_eq_some step) inside
    | _ => cases segment <;> cases step

@[simp] theorem at?_append (v : Json) (p q : Path) : v.at? (p ++ q) = (v.at? p).bind (·.at? q) :=
  List.foldlM_append ..

/-- A path that goes on at a position goes on in an array that is longer. -/
theorem array_of_at? {v w : Json} {inner : Path} {position : Fin positionCount} {tail : Path}
    (there : v.at? (inner ++ .index position :: tail) = some w) :
    ∃ items, Occurs (.array items) v ∧ position.val < items.length := by
  rw [at?_append, Option.bind_eq_some_iff] at there
  obtain ⟨container, leads, there⟩ := there
  rw [at?_cons, Option.bind_eq_some_iff] at there
  obtain ⟨item, step, _⟩ := there
  cases container with
  | array items =>
    exact ⟨items, occurs_of_at? leads, (List.getElem?_eq_some_iff.mp step).1⟩
  | _ => cases step

end Json

namespace Assembly

theorem placeItems_append (parts : List (Segment × Json)) (position : Fin positionCount)
    (item : Json) :
    placeItems (parts ++ [(.index position, item)]) =
      (placeItems parts).take position ++
        List.replicate (position - (placeItems parts).length) .null ++ [item] := by
  rw [placeItems, List.foldl_append]
  rfl

theorem placeItems_length (parts : List (Segment × Json)) (position : Fin positionCount)
    (item : Json) : (placeItems (parts ++ [(.index position, item)])).length = position + 1 := by
  rw [placeItems_append]
  simp only [List.length_append, List.length_take, List.length_replicate, List.length_singleton]
  omega

theorem getElem?_place {placed : List Json} {position k : Nat} {item v : Json}
    (there : (placed.take position ++ List.replicate (position - placed.length) .null ++
      [item])[k]? = some v) :
    placed[k]? = some v ∨ v = .null ∨ k = position ∧ v = item := by
  have end_ : (placed.take position ++
      List.replicate (position - placed.length) Json.null).length = position := by
    simp only [List.length_append, List.length_take, List.length_replicate]
    omega
  rw [List.getElem?_append, end_, List.getElem?_append, List.getElem?_take,
    List.getElem?_replicate] at there
  grind

theorem mem_of_placeItems {parts : List (Segment × Json)}
    (indexes : ∀ part ∈ parts, part.1.isIndex = true) : ∀ k v, (placeItems parts)[k]? = some v →
      v = .null ∨ ∃ h : k < positionCount, (.index ⟨k, h⟩, v) ∈ parts := by
  unfold placeItems
  refine List.foldlRecOn (motive := fun placed : List Json => ∀ (k : Nat) (v : Json),
    placed[k]? = some v → v = .null ∨ ∃ h : k < positionCount, (.index ⟨k, h⟩, v) ∈ parts) parts _ ?_ ?_
  · intro k v there
    cases there
  · intro placed held part hp k v there
    obtain ⟨segment, item⟩ := part
    cases segment with
    | field name => cases indexes _ hp
    | index position =>
      rcases getElem?_place there with before | null | ⟨rfl, rfl⟩
      · exact held k v before
      · exact .inl null
      · exact .inr ⟨position.isLt, hp⟩

theorem toJson_eq_array {leaf : Leaf} {items : List Json} (same : leaf.toJson = .array items) :
    items = [] := by
  cases leaf with
  | emptyArray =>
    cases same
    rfl
  | number d =>
    have scalar : Json.ofDouble d ≠ .array items := by
      unfold Json.ofDouble
      split
      · exact fun same => by cases same
      · cases d.isFinite <;> exact fun same => by cases same
    exact absurd same scalar
  | _ => cases same

/-- An array of a value whose last item holds a leaf. -/
def EndsAtLeaf (items : List Json) (branch : Branch) (v : Json) : Prop :=
  ∃ place last, v.at? place = some (.array items) ∧ items.length = last.val + 1 ∧
    ∃ entry ∈ branch, place ++ [.index last] <+: entry.1

theorem EndsAtLeaf.deeper {items : List Json} {branch : Branch} {s : Segment} {v w : Json}
    (h : EndsAtLeaf items (pick s branch) w) (step : v.step? s = some w) :
    EndsAtLeaf items branch v := by
  obtain ⟨place, last, leads, length, entry, he, on⟩ := h
  refine ⟨s :: place, last, ?_, length, _, mem_pick.mp he, List.cons_prefix_cons.mpr ⟨rfl, on⟩⟩
  rw [Json.at?_cons, step]
  exact leads

theorem Values.endsAtLeaf {branch : Branch} {found : List (Segment × Json)}
    (values : Values branch found) (all : (found.map (·.1)).all Segment.isIndex = true)
    (filled : placeItems found ≠ []) :
    EndsAtLeaf (placeItems found) branch (.array (placeItems found)) := by
  rcases List.eq_nil_or_concat found with rfl | ⟨others, ⟨segment, item⟩, same⟩
  · exact absurd rfl filled
  · obtain rfl := same.trans List.concat_eq_append
    have listed : (segment, item) ∈ others ++ [(segment, item)] :=
      List.mem_append_right _ (List.mem_cons_self ..)
    cases segment with
    | field name =>
      cases List.all_eq_true.mp all (.field name) (List.mem_map.mpr ⟨_, listed, rfl⟩)
    | index last =>
      obtain ⟨entry, he⟩ := List.exists_mem_of_ne_nil _ ((values.segments _).mpr ⟨item, listed⟩)
      exact ⟨[], last, rfl, placeItems_length .., _, mem_pick.mp he, entry.1, rfl⟩

/-- Every array in a built value, unless it is empty, ends at a leaf that it was built from. -/
theorem endsAtLeaf_of_buildAll {v : Json} {items : List Json} (inside : Json.Occurs (.array items) v)
    {branch : Branch} (distinct : Distinct branch) (built : buildAll branch = .ok v)
    (filled : items ≠ []) : EndsAtLeaf items branch v := by
  induction inside generalizing branch with
  | here =>
    rcases buildAll_eq_ok distinct built with ⟨_, same⟩ | ⟨_, _, same⟩ | ⟨_, found, values, kind⟩
    · cases same
    · exact absurd (toJson_eq_array same.symm) filled
    · rcases kind with ⟨all, same⟩ | ⟨_, same⟩
      · cases same
        exact values.endsAtLeaf all filled
      · cases same
  | @item w others there inside ih =>
    rcases buildAll_eq_ok distinct built with ⟨_, same⟩ | ⟨_, _, same⟩ | ⟨_, found, values, kind⟩
    · cases same
    · rw [toJson_eq_array same.symm] at there
      cases there
    · rcases kind with ⟨all, same⟩ | ⟨_, same⟩
      · cases same
        obtain ⟨k, position⟩ := List.getElem?_of_mem there
        have indexes : ∀ part ∈ found, part.1.isIndex = true := fun part hp =>
          List.all_eq_true.mp all _ (List.mem_map.mpr ⟨part, hp, rfl⟩)
        -- What fills a gap is null, and no array is inside it.
        rcases mem_of_placeItems indexes k w position with rfl | ⟨bound, listed⟩
        · cases inside
        · have below := ih (pick_distinct distinct _) (values.built _ _ listed)
          exact below.deeper position
      · cases same
  | @member name w others there inside ih =>
    rcases buildAll_eq_ok distinct built with ⟨_, same⟩ | ⟨_, _, same⟩ | ⟨_, found, values, kind⟩
    · cases same
    · rw [toJson_eq_object same.symm] at there
      cases there
    · rcases kind with ⟨_, same⟩ | ⟨none, same⟩
      · cases same
      · cases same
        obtain ⟨ascending, lookup⟩ := lookup_placeMembers values.ascending fun part hp => by
          simpa using List.any_eq_false.mp none part.1 (List.mem_map.mpr ⟨part, hp, rfl⟩)
        have step := (ascending.lookup_eq_some_iff name w).mpr there
        have listed : (.field name, w) ∈ found :=
          (values.ascending.lookup_eq_some_iff _ _).mp ((lookup name).symm.trans step)
        have below := ih (pick_distinct distinct _) (values.built _ _ listed)
        exact below.deeper step

theorem endsAtLeaf_of_assemble {base : Path} {fields : Option Projection} {cells : List Cell}
    (distinct : Distinct (below base cells)) {v : Json}
    (ok : assemble base fields cells = .ok (some v)) {items : List Json}
    (inside : Json.Occurs (.array items) v) (filled : items ≠ []) :
    EndsAtLeaf items (below base cells) v := by
  unfold assemble at ok
  dsimp only at ok
  split at ok
  · cases ok
  · split at ok
    · cases ok
      cases inside with
      | member there => cases there
    · obtain ⟨_, built, same⟩ := map_eq_ok ok
      cases same
      have kept : projected fields (below base cells) ⊆ below base cells ∧
          Distinct (projected fields (below base cells)) := by
        cases fields with
        | none => exact ⟨List.Subset.refl _, distinct⟩
        | some fields => exact ⟨fun _ he => (List.mem_filter.mp he).1, distinct.filter _⟩
      obtain ⟨place, last, leads, length, entry, he, on⟩ :=
        endsAtLeaf_of_buildAll inside kept.2 built filled
      exact ⟨place, last, leads, length, entry, kept.1 he, on⟩

end Assembly

namespace Service

variable {s : Service MemoryStore} {calls : List WriteCall}

theorem items_of_prepared {call : WriteCall} {batch : Batch} (prepared : s.prepare call = .ok batch)
    {patching : Bool} {payload : String} (action : call.action = .change patching payload)
    {value : Json} (read : Json.ofText .document payload = .ok value) {items : List Json}
    (inside : Json.Occurs (.array items) value) :
    items.length ≤ min s.config.maxArrayLength positionCount := by
  rcases prepare_eq_ok prepared with ⟨_, _, _, action', read', put⟩ | ⟨action', _⟩
  · obtain rfl := WriteAction.change_inj (action'.symm.trans action)
    obtain rfl := Except.ok.inj (read'.symm.trans read)
    exact (Limits.exists_put_eq_ok_iff.mp ⟨batch, put⟩).1.arrays items inside
  · exact absurd (action.symm.trans action') WriteAction.change_ne_delete

/-- A write that puts a leaf below an item goes through the item itself, or it puts a whole array
that the limits allow. -/
theorem short_or_through {call : WriteCall} {batch : Batch} (prepared : s.prepare call = .ok batch)
    {place tail : Path} {last : Fin positionCount}
    (puts : call.PutsLeaf (place ++ .index last :: tail)) :
    last.val < min s.config.maxArrayLength positionCount ∨
      place ++ [.index last] <+: call.path := by
  obtain ⟨patching, payload, value, rest, w, leaf, action, read, split, there, _⟩ := puts
  have whole : ∀ inner, rest = inner ++ .index last :: tail →
      last.val < min s.config.maxArrayLength positionCount := by
    rintro inner rfl
    obtain ⟨items, inside, longer⟩ := Json.array_of_at? there
    exact Nat.lt_of_lt_of_le longer (items_of_prepared prepared action read inside)
  rcases List.append_eq_append_iff.mp split with ⟨inner, path, same⟩ | ⟨inner, _, same⟩
  · cases inner with
    | nil => exact .inl (whole [] same.symm)
    | cons segment inner =>
      obtain ⟨rfl, _⟩ := List.cons.inj same
      exact .inr ⟨inner, by rw [path, List.append_assoc, List.singleton_append]⟩
  · exact .inl (whole inner same)

/-- After a run of writes every array in the answer to a get without a condition is as short as the
limits say, or it has become longer because a write that put a value at its last position or below
it was sent there. -/
theorem get_arrays (s : Service MemoryStore) (memory : s.store = MemoryStore.rowStore)
    (calls : List WriteCall) (succeed : s.Succeed calls)
    (increasing : calls.Pairwise (·.time < ·.time)) (subject : Subject) (name : TableName)
    (document : String) (request : ReadRequest) (valid : request.path.Valid)
    (unfiltered : ∀ filter, s.readFilter request.filter = .ok (some filter) → filter = [])
    (found : DocumentResponse)
    (answered : ((s.get subject name document request).run.run (s.after calls)).1 =
      .ok (some found))
    (items : List Json) (inside : Json.Occurs (.array items) found.data) :
    items.length ≤ min s.config.maxArrayLength positionCount ∨
      ∃ call ∈ calls, ∃ patching payload place last, call.table = name ∧
        call.document = document ∧ call.action = .change patching payload ∧
        found.data.at? place = some (.array items) ∧ items.length = last + 1 ∧
        ∃ h : last < positionCount,
          request.path ++ place ++ [.index ⟨last, h⟩] <+: call.path := by
  have legible := after_legible memory calls name
  have idle := (after_holds memory calls).idle
  rw [(reads_answer memory legible.ordered subject document request).answer_eq idle] at answered
  obtain ⟨plan, prepared, answered⟩ := bind_eq_ok answered
  obtain ⟨fields, rfl⟩ := prepareRead_unfiltered unfiltered prepared
  obtain ⟨data, assembled, answered⟩ := bind_eq_ok answered
  obtain ⟨json, rfl, rfl⟩ := Option.map_eq_some_iff.mp (Except.ok.inj answered)
  have assembled := mapError_eq_ok assembled
  rw [MemoryStore.live, legible.ofRows_below document valid] at assembled
  by_cases filled : items = []
  · exact .inl (by rw [filled]; exact Nat.zero_le _)
  · obtain ⟨place, last, leads, length, entry, he, on⟩ := Assembly.endsAtLeaf_of_assemble
      (Assembly.below_distinct request.path (legible.distinct document)) assembled inside filled
    obtain ⟨cell, live, path, _⟩ := mem_below.mp he
    obtain ⟨before, call, later, split, table, same, puts, _⟩ :=
      last_put memory succeed increasing live
    have there : call ∈ calls := split ▸ List.mem_append_right _ (List.mem_cons_self ..)
    obtain ⟨batch, accepted⟩ := succeed.prepared there
    obtain ⟨tail, rest⟩ := on
    rw [path, ← rest, List.append_assoc, List.singleton_append, ← List.append_assoc] at puts
    rcases short_or_through accepted puts with short | through
    · exact .inl (length ▸ short)
    · obtain ⟨patching, payload, _, _, _, _, action, _⟩ := puts
      exact .inr ⟨call, there, patching, payload, place, last.val, table, same, action, leads,
        length, last.isLt, through⟩

def Sample.arraysOfOne : Service MemoryStore :=
  ⟨MemoryStore.rowStore, .allowAll, { maxDepth := 3, maxArrayLength := 1 }, rfl⟩

/-- One write, to the second position of an array that no write has begun. -/
def Sample.secondItemPut : List WriteCall :=
  [⟨⟨"", ""⟩, ⟨"k", "t"⟩, "d", [.index ⟨1, by decide⟩], List.forall_mem_singleton.mpr trivial,
    .put "true", 1⟩]

def arrayLength? : Json → Option Nat
  | .array items => some items.length
  | _ => none

theorem overlong_answer :
    ((Sample.arraysOfOne.get ⟨"", ""⟩ ⟨"k", "t"⟩ "d" {}).run.run
      (Sample.arraysOfOne.after Sample.secondItemPut)).1.toOption.join.bind
        (arrayLength? ·.data) = some 2 := by decide +kernel

theorem get_arrays_through :
    ∃ found, ((Sample.arraysOfOne.get ⟨"", ""⟩ ⟨"k", "t"⟩ "d" {}).run.run
        (Sample.arraysOfOne.after Sample.secondItemPut)).1 = .ok (some found) ∧
      ∀ items, Json.Occurs (.array items) found.data → items.length ≤ 1 ∨
        ∃ call ∈ Sample.secondItemPut, ∃ place last, items.length = last + 1 ∧
          ∃ h : last < positionCount, place ++ [.index ⟨last, h⟩] <+: call.path := by
  obtain ⟨found, there, _⟩ := Option.bind_eq_some_iff.mp overlong_answer
  have answered := eq_ok_of_toOption (Option.join_eq_some_iff.mp there)
  refine ⟨found, answered, fun items inside => ?_⟩
  have short := get_arrays Sample.arraysOfOne rfl Sample.secondItemPut
    ((succeed_iff rfl).mpr (by decide +kernel)) (by decide) ⟨"", ""⟩ ⟨"k", "t"⟩ "d" {}
      Path.valid_root (fun _ none => by cases none) found
    answered items inside
  refine short.imp (fun length => Nat.le_trans length (Nat.min_le_left ..)) ?_
  rintro ⟨call, there, _, _, place, last, _, _, _, _, length, bound, through⟩
  exact ⟨call, there, place, last, length, bound, through⟩

/-- A get answers with an array that is longer than the limit, filled up with null. -/
theorem get_overlong :
    Sample.arraysOfOne.Succeed Sample.secondItemPut ∧
      Sample.secondItemPut.Pairwise (·.time < ·.time) ∧
      ∃ found items, ((Sample.arraysOfOne.get ⟨"", ""⟩ ⟨"k", "t"⟩ "d" {}).run.run
          (Sample.arraysOfOne.after Sample.secondItemPut)).1 = .ok (some found) ∧
        Json.Occurs (.array items) found.data ∧
        Sample.arraysOfOne.config.maxArrayLength < items.length := by
  refine ⟨(succeed_iff rfl).mpr (by decide +kernel), by decide, ?_⟩
  obtain ⟨found, there, length⟩ := Option.bind_eq_some_iff.mp overlong_answer
  have answered := eq_ok_of_toOption (Option.join_eq_some_iff.mp there)
  unfold arrayLength? at length
  split at length
  · rename_i items data
    have two : items.length = 2 := Option.some.inj length
    exact ⟨found, items, answered, data ▸ .here, two ▸ Nat.lt_succ_self 1⟩
  · cases length

end Service

end LeafStore
