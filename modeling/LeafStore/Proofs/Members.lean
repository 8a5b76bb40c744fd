import LeafStore.Proofs.RoundTrip
/-!
Assembling member by member. The members of an assembled object are what the leaves below each of
them assemble to, and leaves below members only assemble to an object if each member assembles.
-/
namespace LeafStore

namespace Assembly

def pick (s : Segment) (branch : Branch) : Branch :=
  branch.filterMap fun entry => (Path.below? [s] entry.1).map fun rest => (rest, entry.2)

@[simp] theorem mem_pick {s : Segment} {branch : Branch} {entry : Path × Leaf} :
    entry ∈ pick s branch ↔ (s :: entry.1, entry.2) ∈ branch := by
  simp only [pick, List.mem_filterMap, Option.map_eq_some_iff, below?_eq_some_iff]
  constructor
  · rintro ⟨⟨path, leaf⟩, there, rest, place, rfl⟩
    exact (show path = s :: rest from place) ▸ there
  · exact fun there => ⟨_, there, entry.1, rfl, rfl⟩

theorem below_child (base : Path) (s : Segment) (cells : List Cell) :
    below (base.child s) cells = pick s (below base cells) := by
  unfold below pick
  rw [List.filterMap_filterMap]
  refine congrArg (List.filterMap · cells) (funext fun cell => ?_)
  apply Option.ext
  intro entry
  simp only [Option.map_eq_some_iff, Option.bind_eq_some_iff, below?_eq_some_iff, Path.child]
  constructor
  · rintro ⟨rest, place, rfl⟩
    exact ⟨_, ⟨s :: rest, by simpa using place, rfl⟩, rest, rfl, rfl⟩
  · rintro ⟨_, ⟨whole, place, rfl⟩, rest, same, rfl⟩
    have same : whole = s :: rest := same
    exact ⟨rest, by simp [place, same], rfl⟩

theorem pick_under (s t : Segment) (branch : Branch) :
    pick s (under t branch) = if s = t then branch else [] := by
  unfold pick under
  rw [List.filterMap_map]
  by_cases same : s = t <;> simp [same]

/-- Of leaves spread below segments of their own, those below one segment are its branch. -/
theorem pick_spread {parts : List (Segment × Branch)} (ascending : Sorted.Ascending parts)
    (s : Segment) : pick s (spread parts) = (parts.lookup s).getD [] := by
  induction ascending with
  | nil => rfl
  | @cons part rest before _ ih =>
    have split : pick s (spread (part :: rest)) = pick s (under part.1 part.2) ++ pick s (spread rest) :=
      List.filterMap_append
    rw [split, ih, pick_under]
    by_cases same : s = part.1
    · have none : rest.lookup s = none := by
        rw [List.lookup_eq_none_iff]
        intro other ho
        simpa [same] using Sorted.ne_of_lt (before other ho)
      rw [if_pos same, none, same, List.lookup_cons_self]
      simp
    · have differ : (s == part.1) = false := by simpa using same
      rw [if_neg same, List.lookup_cons, differ]
      rfl

theorem spread_groups {branch : Branch} (deep : ∀ entry ∈ branch, entry.1 ≠ []) :
    spread (groups branch) = branch := by
  induction branch with
  | nil => rfl
  | cons entry rest ih =>
    obtain ⟨path, leaf⟩ := entry
    have others := ih fun e he => deep e (List.mem_cons_of_mem _ he)
    cases path with
    | nil => exact absurd rfl (deep _ (List.mem_cons_self ..))
    | cons segment path =>
      cases found : groups rest with
      | nil =>
        rw [found] at others
        simp only [groups, found]
        rw [← others]
        rfl
      | cons first more =>
        obtain ⟨other, branch⟩ := first
        rw [found] at others
        simp only [groups, found]
        split
        · rename_i same
          subst same
          rw [← others]
          rfl
        · rw [← others]
          rfl

theorem Ordered.of_ascending {branch : Branch} (ascending : Sorted.Ascending branch) :
    Ordered branch :=
  ascending.imp fun less => List.lt_asymm less

theorem Ordered.deep {segment : Segment} {path : Path} {leaf : Leaf} {rest : Branch}
    (ordered : Ordered ((segment :: path, leaf) :: rest)) :
    ∀ entry ∈ (segment :: path, leaf) :: rest, entry.1 ≠ [] := by
  intro entry he none
  rcases List.mem_cons.mp he with rfl | he
  · cases none
  · exact List.rel_of_pairwise_cons ordered he (none ▸ List.Lex.nil)

/-- In ordered leaves those below one segment are next to each other. -/
theorem groups_ascending {branch : Branch} (ordered : Ordered branch) :
    Sorted.Ascending (groups branch) := by
  induction ordered with
  | nil => exact List.Pairwise.nil
  | @cons entry rest before _ ih =>
    obtain ⟨path, leaf⟩ := entry
    cases path with
    | nil => exact ih
    | cons segment path =>
      have notBefore : ∀ part ∈ groups rest, segment ≠ part.1 → segment < part.1 := by
        intro part hp differ
        obtain ⟨inner, hi⟩ := List.exists_mem_of_ne_nil _ (groups_nonempty rest part hp)
        have member := (groups_sublist rest part hp).subset (mem_under.mpr ⟨inner, hi, rfl⟩)
        have late : ¬ part.1 < segment := fun less => before _ member (List.Lex.rel less)
        exact Classical.byContradiction fun early =>
          differ (Segment.lt_trichotomy segment part.1 early late)
      cases found : groups rest with
      | nil => simp only [groups, found, Sorted.Ascending, List.pairwise_singleton]
      | cons first more =>
        obtain ⟨other, branch⟩ := first
        rw [found] at ih notBefore
        simp only [groups, found]
        split
        · rename_i same
          subst same
          exact List.Pairwise.cons (fun part hp => List.rel_of_pairwise_cons ih hp) ih.tail
        · rename_i differ
          have first : segment < other := notBefore _ (List.mem_cons_self ..) differ
          refine List.Pairwise.cons (fun part hp => ?_) ih
          rcases List.mem_cons.mp hp with rfl | hp
          · exact first
          · exact Segment.lt_trans first (List.rel_of_pairwise_cons ih hp)

/-! A value does not depend on the place and the height that it is built with. -/

theorem container_eq_ok {place : Path} {kinds : List Segment}
    {parts : Except RowError (List (Segment × Json))} {v : Json}
    (ok : container place kinds parts = .ok v) : ∃ found, parts = .ok found ∧
      (kinds.all Segment.isIndex = true ∧ v = .array (placeItems found) ∨
        kinds.all Segment.isIndex = false ∧ kinds.any Segment.isIndex = false ∧
          v = .object (placeMembers found)) := by
  unfold container at ok
  split at ok
  · rename_i all
    obtain ⟨found, read, rfl⟩ := map_eq_ok ok
    exact ⟨found, read, .inl ⟨all, rfl⟩⟩
  · rename_i notAll
    split at ok
    · cases ok
    · rename_i none
      obtain ⟨found, read, rfl⟩ := map_eq_ok ok
      exact ⟨found, read, .inr ⟨by simpa using notAll, by simpa using none, rfl⟩⟩

theorem container_congr {place : Path} {kinds : List Segment} {found : List (Segment × Json)}
    {v : Json} (ok : container place kinds (.ok found) = .ok v) (other : Path) :
    container other kinds (.ok found) = .ok v := by
  obtain ⟨_, same, ⟨all, rfl⟩ | ⟨notAll, none, rfl⟩⟩ := container_eq_ok ok
  · cases same
    simp only [container, all, if_true, map_ok]
  · cases same
    simp only [container, notAll, none, Bool.false_eq_true, if_false, map_ok]

theorem length_of_group {branch : Branch} {height : Nat}
    (fits : ∀ entry ∈ branch, entry.1.length ≤ height + 1) {part : Segment × Branch}
    (there : part ∈ groups branch) : ∀ entry ∈ part.2, entry.1.length ≤ height := by
  intro entry he
  have member := (groups_sublist branch part there).subset (mem_under.mpr ⟨entry, he, rfl⟩)
  exact Nat.le_of_succ_le_succ (fits _ member)

theorem build_congr {height : Nat} {place : Path} {branch : Branch} {v : Json}
    (built : build height place branch = .ok v)
    (fits : ∀ entry ∈ branch, entry.1.length ≤ height) {other : Nat}
    (fits' : ∀ entry ∈ branch, entry.1.length ≤ other) (elsewhere : Path) :
    build other elsewhere branch = .ok v := by
  -- Both heights have room for the paths, so they go down together.
  induction height generalizing place branch v other elsewhere with
  | zero =>
    match branch, built with
    | [], built => cases other <;> exact built
    | [([], leaf)], built => cases other <;> exact built
    | (segment :: path, leaf) :: rest, _ =>
      exact absurd (fits _ (List.mem_cons_self ..)) (Nat.not_succ_le_zero _)
  | succ height ih =>
    match branch, built with
    | [], built => cases other <;> exact built
    | [([], leaf)], built => cases other <;> exact built
    | (segment :: path, leaf) :: rest, built =>
      cases other with
      | zero => exact absurd (fits' _ (List.mem_cons_self ..)) (Nat.not_succ_le_zero _)
      | succ other =>
        rw [build] at built ⊢
        obtain ⟨found, read, _⟩ := container_eq_ok built
        have again : (groups ((segment :: path, leaf) :: rest)).mapM (fun part =>
            (build other (elsewhere.child part.1) part.2).map fun json => (part.1, json)) =
              .ok found := by
          refine mapM_eq_ok_of_imp (fun part hp value ok => ?_) read
          obtain ⟨json, here, rfl⟩ := map_eq_ok ok
          rw [ih here (length_of_group fits hp) (length_of_group fits' hp)]
          rfl
        rw [read] at built
        rw [again]
        exact container_congr built elsewhere

/-! Leaves in the order of their paths. -/

def Distinct (branch : Branch) : Prop := branch.Pairwise fun a b => a.1 ≠ b.1

theorem inOrder_ascending {branch : Branch} (distinct : Distinct branch) :
    Sorted.Ascending (inOrder branch) := by
  have apart : Distinct (inOrder branch) :=
    ((inOrder_perm branch).pairwise_iff fun differ => differ.symm).mpr distinct
  refine (inOrder_sorted branch).imp₂ (fun a b notAfter differ => ?_) apart
  exact (List.le_iff_lt_or_eq.mp notAfter).resolve_right differ

theorem pick_ascending {branch : Branch} (ascending : Sorted.Ascending branch) (s : Segment) :
    Sorted.Ascending (pick s branch) :=
  pairwise_below (fun _ _ => List.cons_lt_cons_self.mp) Prod.fst Prod.snd ascending

theorem pick_distinct {branch : Branch} (distinct : Distinct branch) (s : Segment) :
    Distinct (pick s branch) :=
  pairwise_below (fun _ _ differ same => differ (congrArg _ same)) Prod.fst Prod.snd
    distinct

theorem inOrder_pick {branch : Branch} (distinct : Distinct branch) (s : Segment) :
    inOrder (pick s branch) = pick s (inOrder branch) :=
  inOrder_eq ((inOrder_perm branch).symm.filterMap _)
    (pick_ascending (inOrder_ascending distinct) s)

theorem lookup_groups {branch : Branch} (ascending : Sorted.Ascending branch)
    (deep : ∀ entry ∈ branch, entry.1 ≠ []) (s : Segment) :
    pick s branch = ((groups branch).lookup s).getD [] := by
  have picked := pick_spread (groups_ascending (.of_ascending ascending)) s
  rwa [spread_groups deep] at picked

theorem lookup_mapM {parts : List (Segment × Branch)} {f : Segment × Branch → Except RowError Json}
    {found : List (Segment × Json)}
    (read : parts.mapM (fun part => (f part).map fun json => (part.1, json)) = .ok found) :
    found.map (·.1) = parts.map (·.1) ∧
      ∀ s branch, parts.lookup s = some branch →
        ∃ json, found.lookup s = some json ∧ f (s, branch) = .ok json := by
  induction parts generalizing found with
  | nil =>
    cases read
    exact ⟨rfl, fun _ _ there => by cases there⟩
  | cons part rest ih =>
    rw [List.mapM_cons] at read
    obtain ⟨_, here, read⟩ := bind_eq_ok read
    obtain ⟨json, built, rfl⟩ := map_eq_ok here
    obtain ⟨others, there, read⟩ := bind_eq_ok read
    cases read
    obtain ⟨keys, each⟩ := ih there
    refine ⟨by rw [List.map_cons, List.map_cons, keys], fun s branch found => ?_⟩
    rw [List.lookup_cons] at found ⊢
    split at found
    · rename_i same
      obtain rfl := eq_of_beq same
      cases found
      exact ⟨json, by simp, built⟩
    · rename_i differ
      simpa [differ] using each s branch found

theorem group_eq {branch : Branch} (distinct : Distinct branch)
    (deep : ∀ entry ∈ inOrder branch, entry.1 ≠ []) {part : Segment × Branch}
    (there : part ∈ groups (inOrder branch)) : part.2 = inOrder (pick part.1 branch) := by
  have ascending := inOrder_ascending distinct
  have lookup :=
    ((groups_ascending (.of_ascending ascending)).lookup_eq_some_iff part.1 part.2).mpr there
  rw [inOrder_pick distinct, lookup_groups ascending deep, lookup]
  rfl

theorem group_filled {branch : Branch} (distinct : Distinct branch)
    (deep : ∀ entry ∈ inOrder branch, entry.1 ≠ []) {part : Segment × Branch}
    (there : part ∈ groups (inOrder branch)) : pick part.1 branch ≠ [] := by
  intro none
  have perm := inOrder_perm (pick part.1 branch)
  rw [← group_eq distinct deep there, none] at perm
  exact groups_nonempty _ part there (List.perm_nil.mp perm)

/-- The leaves of a group build there what those below its segment build on their own. -/
theorem build_group {branch : Branch} (distinct : Distinct branch)
    (deep : ∀ entry ∈ inOrder branch, entry.1 ≠ []) {height : Nat} (place : Path)
    (fits : ∀ entry ∈ inOrder branch, entry.1.length ≤ height + 1) {part : Segment × Branch}
    (there : part ∈ groups (inOrder branch)) {v : Json} :
    build height place part.2 = .ok v ↔ buildAll (pick part.1 branch) = .ok v := by
  have same := group_eq distinct deep there
  have room : ∀ entry ∈ part.2, entry.1.length ≤ Assembly.height (pick part.1 branch) :=
    fun entry he => length_le_height ((inOrder_perm _).subset (same ▸ he))
  rw [buildAll, ← same]
  constructor
  · exact fun built => build_congr built (length_of_group fits there) room _
  · exact fun built => build_congr built room (length_of_group fits there) _

theorem container_fields {place : Path} {kinds : List Segment} (filled : kinds ≠ [])
    (fields : ∀ s ∈ kinds, s.isIndex = false) (found : List (Segment × Json)) :
    container place kinds (.ok found) = .ok (.object (placeMembers found)) := by
  obtain ⟨s, hs⟩ := List.exists_mem_of_ne_nil _ filled
  have notAll : kinds.all Segment.isIndex = false :=
    List.all_eq_false.mpr ⟨s, hs, by simp [fields s hs]⟩
  have none : kinds.any Segment.isIndex = false :=
    List.any_eq_false.mpr fun s hs => by simp [fields s hs]
  simp only [container, notAll, none, Bool.false_eq_true, if_false, map_ok]

theorem lookup_placeMembers {found : List (Segment × Json)} (ascending : Sorted.Ascending found)
    (fields : ∀ part ∈ found, part.1.isIndex = false) :
    Sorted.Ascending (placeMembers found) ∧
      ∀ name, (placeMembers found).lookup name = found.lookup (.field name) := by
  have named : ∀ part ∈ found, part.1 = .field part.1.column := by
    intro part hp
    have field := fields part hp
    cases kind : part.1 with
    | field name => rfl
    | index position =>
      rw [kind] at field
      cases field
  have sorted : Sorted.Ascending (found.map fun part => (part.1.column, part.2)) := by
    refine List.pairwise_map.mpr (ascending.imp_of_mem fun {a b} ha hb less => ?_)
    rw [named a ha, named b hb] at less
    exact less
  have placed : placeMembers found = found.map fun part => (part.1.column, part.2) :=
    Sorted.ofPairs_of_ascending sorted
  rw [placed]
  refine ⟨sorted, fun name => Option.ext fun json => ?_⟩
  rw [sorted.lookup_eq_some_iff, ascending.lookup_eq_some_iff, List.mem_map]
  constructor
  · rintro ⟨part, hp, same⟩
    cases same
    rw [← named part hp]
    exact hp
  · exact fun there => ⟨_, there, rfl⟩

/-- Values for the segments that leaves go on with, each built from the leaves below its segment. -/
structure Values (branch : Branch) (found : List (Segment × Json)) : Prop where
  ascending : Sorted.Ascending found
  segments : ∀ s, pick s branch ≠ [] ↔ ∃ json, (s, json) ∈ found
  built : ∀ s json, (s, json) ∈ found → buildAll (pick s branch) = .ok json

theorem values_of_mapM {branch : Branch} (distinct : Distinct branch)
    (deep : ∀ entry ∈ inOrder branch, entry.1 ≠ []) {height : Nat} {place : Path}
    (fits : ∀ entry ∈ inOrder branch, entry.1.length ≤ height + 1)
    {found : List (Segment × Json)}
    (read : (groups (inOrder branch)).mapM (fun part =>
      (build height (place.child part.1) part.2).map fun json => (part.1, json)) = .ok found) :
    Values branch found ∧ found.map (·.1) = (groups (inOrder branch)).map (·.1) := by
  have parts := groups_ascending (inOrder_sorted branch)
  obtain ⟨keys, each⟩ := lookup_mapM (f := fun part => build height (place.child part.1) part.2) read
  have sorted : Sorted.Ascending found := by
    have apart : (found.map (·.1)).Pairwise (· < ·) := keys ▸ List.pairwise_map.mpr parts
    exact List.pairwise_map.mp apart
  have listed : ∀ part ∈ groups (inOrder branch), ∃ json, (part.1, json) ∈ found ∧
      buildAll (pick part.1 branch) = .ok json := by
    intro part hp
    obtain ⟨json, there, built⟩ := each part.1 part.2 ((parts.lookup_eq_some_iff _ _).mpr hp)
    exact ⟨json, (sorted.lookup_eq_some_iff _ json).mp there,
      (build_group distinct deep _ fits hp).mp built⟩
  have from_group : ∀ s json, (s, json) ∈ found → ∃ part ∈ groups (inOrder branch), part.1 = s := by
    intro s json there
    have key : s ∈ (groups (inOrder branch)).map (·.1) := keys ▸ List.mem_map.mpr ⟨_, there, rfl⟩
    exact List.mem_map.mp key
  refine ⟨⟨sorted, fun s => ⟨fun filled => ?_, ?_⟩, fun s json there => ?_⟩, keys⟩
  · obtain ⟨entry, he⟩ := List.exists_mem_of_ne_nil _ filled
    have member := (inOrder_perm branch).mem_iff.mpr (mem_pick.mp he)
    rw [← spread_groups deep] at member
    obtain ⟨part, hp, under⟩ := List.mem_flatMap.mp member
    obtain ⟨_, _, same⟩ := mem_under.mp under
    obtain ⟨json, there, _⟩ := listed part hp
    exact ⟨json, (List.cons.inj (Prod.mk.inj same).1).1 ▸ there⟩
  · rintro ⟨json, there⟩
    obtain ⟨part, hp, rfl⟩ := from_group s json there
    exact group_filled distinct deep hp
  · obtain ⟨part, hp, rfl⟩ := from_group s json there
    obtain ⟨other, ho, built⟩ := listed part hp
    rwa [sorted.value_unique there ho]

/-- A value that was built is a leaf at the root, or it has the values of its parts. -/
theorem buildAll_eq_ok {branch : Branch} (distinct : Distinct branch) {v : Json}
    (built : buildAll branch = .ok v) :
    (branch = [] ∧ v = .null) ∨ (∃ leaf, branch = [([], leaf)] ∧ v = leaf.toJson) ∨
      (∀ entry ∈ branch, entry.1 ≠ []) ∧ ∃ found, Values branch found ∧
        ((found.map (·.1)).all Segment.isIndex = true ∧ v = .array (placeItems found) ∨
          (found.map (·.1)).any Segment.isIndex = false ∧ v = .object (placeMembers found)) := by
  have perm := inOrder_perm branch
  have ascending := inOrder_ascending distinct
  have fits : ∀ entry ∈ inOrder branch, entry.1.length ≤ height branch := fun entry he =>
    length_le_height (perm.subset he)
  have values := @values_of_mapM branch distinct
  unfold buildAll at built
  generalize height branch = height at built fits
  generalize inOrder branch = ordered at perm ascending fits built values
  match ordered, height, built with
  | [], 0, built | [], _ + 1, built =>
    cases built
    exact .inl ⟨List.nil_perm.mp perm, rfl⟩
  | [([], leaf)], 0, built | [([], leaf)], _ + 1, built =>
    cases built
    exact .inr (.inl ⟨leaf, List.perm_singleton.mp perm.symm, rfl⟩)
  | ([], _) :: _ :: _, 0, built | ([], _) :: _ :: _, _ + 1, built => cases built
  | (segment :: path, leaf) :: rest, 0, _ =>
    exact absurd (fits _ (List.mem_cons_self ..)) (Nat.not_succ_le_zero _)
  | (segment :: path, leaf) :: rest, height + 1, built =>
    have deep := Ordered.deep (.of_ascending ascending)
    rw [build] at built
    obtain ⟨found, read, kind⟩ := container_eq_ok built
    obtain ⟨parts, keys⟩ := values deep fits read
    rw [← keys] at kind
    refine .inr (.inr ⟨fun entry he => deep entry (perm.mem_iff.mpr he), found, parts, ?_⟩)
    exact kind.imp id And.right

theorem toJson_eq_object {leaf : Leaf} {members : List (String × Json)}
    (same : leaf.toJson = .object members) : members = [] := by
  cases leaf with
  | emptyObject =>
    cases same
    rfl
  | number d =>
    have scalar : ∀ members, Json.ofDouble d ≠ .object members := by
      intro members same
      unfold Json.ofDouble at same
      split at same
      · cases same
      · cases finite : d.isFinite <;> simp [finite] at same
    exact absurd same (scalar members)
  | _ => cases same

theorem Values.pick_eq_nil {branch : Branch} {found : List (Segment × Json)}
    (h : Values branch found) {s : Segment} (none : found.lookup s = none) : pick s branch = [] := by
  apply Classical.byContradiction
  intro filled
  obtain ⟨json, there⟩ := (h.segments s).mp filled
  rw [(h.ascending.lookup_eq_some_iff s json).mpr there] at none
  cases none

theorem buildAll_below_field {branch : Branch} (distinct : Distinct branch) {v : Json}
    (built : buildAll branch = .ok v) {name : String} {rest : Path} {leaf : Leaf}
    (there : (.field name :: rest, leaf) ∈ branch) : ∃ members, v = .object members := by
  rcases buildAll_eq_ok distinct built with ⟨rfl, _⟩ | ⟨_, rfl, _⟩ | ⟨_, found, values, kind⟩
  · cases there
  · cases List.mem_singleton.mp there
  · have inside : (rest, leaf) ∈ pick (.field name) branch := mem_pick.mpr there
    have picked : pick (.field name) branch ≠ [] := List.ne_nil_of_mem inside
    obtain ⟨json, listed⟩ := (values.segments _).mp picked
    rcases kind with ⟨all, _⟩ | ⟨_, rfl⟩
    · cases List.all_eq_true.mp all (.field name) (List.mem_map.mpr ⟨_, listed, rfl⟩)
    · exact ⟨_, rfl⟩

theorem buildAll_object {branch : Branch} (distinct : Distinct branch) (filled : branch ≠ [])
    (fields : ∀ entry ∈ branch, ∃ name rest, entry.1 = .field name :: rest)
    (members : ∀ name, pick (.field name) branch ≠ [] →
      ∃ v, buildAll (pick (.field name) branch) = .ok v) :
    ∃ found, buildAll branch = .ok (.object found) := by
  have perm := inOrder_perm branch
  have ascending := inOrder_ascending distinct
  have deep : ∀ entry ∈ inOrder branch, entry.1 ≠ [] := by
    intro entry he none
    obtain ⟨name, rest, place⟩ := fields entry (perm.subset he)
    cases none.symm.trans place
  have ordered : inOrder branch ≠ [] := fun none => filled (List.nil_perm.mp (none ▸ perm))
  have named : ∀ part ∈ groups (inOrder branch), ∃ name, part.1 = .field name := by
    intro part hp
    obtain ⟨inner, hi⟩ := List.exists_mem_of_ne_nil _ (groups_nonempty _ part hp)
    have member := (groups_sublist _ part hp).subset (mem_under.mpr ⟨inner, hi, rfl⟩)
    obtain ⟨name, rest, place⟩ := fields _ (perm.subset member)
    exact ⟨name, (List.cons.inj place).1⟩
  have fits : ∀ entry ∈ inOrder branch, entry.1.length ≤ height branch := fun entry he =>
    length_le_height (perm.subset he)
  obtain ⟨lower, room⟩ := exists_lower ordered deep fits
  rw [room] at fits
  obtain ⟨found, read⟩ := exists_mapM_eq_ok (f := fun part : Segment × Branch =>
      (build lower (Path.root.child part.1) part.2).map fun json => (part.1, json))
      (groups (inOrder branch)) fun part hp => by
    obtain ⟨name, segment⟩ := named part hp
    obtain ⟨v, built⟩ := members name (segment ▸ group_filled distinct deep hp)
    rw [← segment] at built
    exact ⟨(part.1, v), by rw [(build_group distinct deep _ fits hp).mpr built]; rfl⟩
  have kinds : ∀ s ∈ (groups (inOrder branch)).map (·.1), s.isIndex = false := by
    intro s hs
    obtain ⟨part, hp, rfl⟩ := List.mem_map.mp hs
    obtain ⟨name, segment⟩ := named part hp
    rw [segment]
    rfl
  have some : (groups (inOrder branch)).map (·.1) ≠ [] := by
    intro none
    refine ordered ?_
    rw [← spread_groups deep, List.map_eq_nil_iff.mp none]
    rfl
  refine ⟨placeMembers found, ?_⟩
  rw [buildAll, room, build_parts lower Path.root ordered deep, read]
  exact container_fields some kinds found

/-- Leaves at different paths build the same value in every order. -/
theorem buildAll_perm {a b : Branch} (distinct : Distinct b) (perm : a.Perm b) :
    buildAll a = buildAll b := by
  have ordered : inOrder a = inOrder b :=
    inOrder_eq (perm.trans (inOrder_perm b).symm) (inOrder_ascending distinct)
  have high : height a = height b :=
    (perm.map _).foldl_eq' (fun x _ y _ n => by omega) 0
  rw [buildAll, buildAll, ordered, high]

/-! The value at a path and the values of its members. -/

theorem mem_below {base : Path} {cells : List Cell} {entry : Path × Leaf} :
    entry ∈ below base cells ↔ ∃ cell ∈ cells, cell.path = base ++ entry.1 ∧ cell.leaf = entry.2 := by
  simp only [below, List.mem_filterMap, Option.map_eq_some_iff, below?_eq_some_iff]
  refine exists_congr fun cell => and_congr_right fun _ => ?_
  constructor
  · rintro ⟨rest, place, rfl⟩
    exact ⟨place, rfl⟩
  · rintro ⟨place, leaf⟩
    exact ⟨entry.1, place, Prod.ext rfl leaf⟩

theorem below_filter {base : Path} {keep : Cell → Bool} {cells : List Cell}
    (kept : ∀ cell ∈ cells, base <+: cell.path → keep cell = true) :
    below base (cells.filter keep) = below base cells := by
  induction cells with
  | nil => rfl
  | cons cell rest ih =>
    have others := ih fun c hc => kept c (List.mem_cons_of_mem _ hc)
    have split : ∀ cells : List Cell, below base (cell :: cells) =
        below base [cell] ++ below base cells := fun cells => List.filterMap_append (l := [cell])
    rw [List.filter_cons, split rest]
    split
    · rw [split, others]
    · rename_i passed
      have off : below base [cell] = [] := by
        refine List.eq_nil_iff_forall_not_mem.mpr fun entry there => ?_
        obtain ⟨_, here, place, _⟩ := mem_below.mp there
        rw [List.mem_singleton.mp here] at place
        exact passed (kept cell (List.mem_cons_self ..) ⟨entry.1, place.symm⟩)
      rw [others, off, List.nil_append]

theorem below_distinct (base : Path) {cells : List Cell}
    (apart : cells.Pairwise fun a b => a.path ≠ b.path) : Distinct (below base cells) :=
  pairwise_below (fun _ _ differ same => differ (congrArg (base ++ ·) same)) Cell.path Cell.leaf apart

theorem assemble_congr {base : Path} {a b : List Cell} (same : below base a = below base b)
    (fields : Option Projection) : assemble base fields a = assemble base fields b := by
  simp only [assemble, same]

theorem assemble_eq (base : Path) (cells : List Cell) :
    assemble base none cells =
      if below base cells = [] then .ok none else (buildAll (below base cells)).map some := by
  simp only [assemble, projected, List.isEmpty_iff]
  split
  · rfl
  · rfl

theorem assemble_perm {base : Path} {a b : List Cell} (distinct : Distinct (below base b))
    (perm : (below base a).Perm (below base b)) : assemble base none a = assemble base none b := by
  have none : below base a = [] ↔ below base b = [] := by
    rw [← List.length_eq_zero_iff, ← List.length_eq_zero_iff, perm.length_eq]
  simp only [assemble_eq, none, buildAll_perm distinct perm]

theorem assemble_eq_some {base : Path} {cells : List Cell} {v : Json}
    (ok : assemble base none cells = .ok (some v)) :
    below base cells ≠ [] ∧ buildAll (below base cells) = .ok v := by
  rw [assemble_eq] at ok
  split at ok
  · cases ok
  · rename_i filled
    obtain ⟨_, built, same⟩ := map_eq_ok ok
    exact ⟨filled, Option.some.inj same ▸ built⟩

variable {base : Path} {cells : List Cell}

/-- The members of an object are what is read at their paths. -/
theorem assemble_members (distinct : Distinct (below base cells))
    {members : List (String × Json)}
    (ok : assemble base none cells = .ok (some (.object members))) :
    Sorted.Ascending members ∧ ∀ name,
      assemble (base.child (.field name)) none cells = .ok (members.lookup name) := by
  obtain ⟨_, built⟩ := assemble_eq_some ok
  simp only [assemble_eq, below_child]
  rcases buildAll_eq_ok distinct built with ⟨_, none⟩ | ⟨leaf, whole, same⟩ | ⟨_, found, values, kind⟩
  · cases none
  · rw [toJson_eq_object same.symm, whole]
    exact ⟨List.Pairwise.nil, fun _ => rfl⟩
  · rcases kind with ⟨_, array⟩ | ⟨fields, object⟩
    · cases array
    · cases object
      obtain ⟨ascending, same⟩ := lookup_placeMembers values.ascending fun part hp => by
        simpa using List.any_eq_false.mp fields part.1 (List.mem_map.mpr ⟨part, hp, rfl⟩)
      refine ⟨ascending, fun name => ?_⟩
      rw [same]
      cases lookup : found.lookup (.field name) with
      | none => rw [values.pick_eq_nil lookup, if_pos rfl]
      | some json =>
        have there := (values.ascending.lookup_eq_some_iff _ _).mp lookup
        rw [if_neg ((values.segments _).mpr ⟨json, there⟩), values.built _ _ there]
        rfl

theorem assemble_object (distinct : Distinct (below base cells)) (filled : below base cells ≠ [])
    (fields : ∀ entry ∈ below base cells, ∃ name rest, entry.1 = .field name :: rest)
    (members : ∀ name, ∃ v, assemble (base.child (.field name)) none cells = .ok v) :
    ∃ found, assemble base none cells = .ok (some (.object found)) := by
  obtain ⟨found, built⟩ := buildAll_object distinct filled fields fun name picked => by
    obtain ⟨v, read⟩ := members name
    rw [assemble_eq, below_child, if_neg picked] at read
    obtain ⟨json, built, _⟩ := map_eq_ok read
    exact ⟨json, built⟩
  refine ⟨found, ?_⟩
  rw [assemble_eq, if_neg filled, built]
  rfl

end Assembly

end LeafStore
