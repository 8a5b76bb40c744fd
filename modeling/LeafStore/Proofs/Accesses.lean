import LeafStore.Proofs.Members
/-!
Accesses of assembling. Here a value is put together along whole paths: the leaves of a group share
a beginning, and the next groups are found by asking each path for its segment at one depth. No path
is asked for a segment that it does not have, and the value is the assembled one.
-/
namespace LeafStore

namespace Assembly

/-- Neighbouring leaves with the same segment at a depth; none where a path has no segment there. -/
def runs (depth : Nat) : Branch → Option (List (Segment × Branch))
  | [] => some []
  | (path, leaf) :: rest => do
    let segment ← path[depth]?
    match ← runs depth rest with
    | (other, run) :: more =>
      if segment = other then some ((segment, (path, leaf) :: run) :: more)
      else some ((segment, [(path, leaf)]) :: (other, run) :: more)
    | [] => some [(segment, [(path, leaf)])]

/-- The value of leaves whose paths share as many segments as the depth, one level of it at a time;
none where an access is out of range. -/
def buildAt : (height depth : Nat) → Branch → Option (Except RowError Json)
  | _, _, [] => none
  | height, depth, (path, leaf) :: rest =>
    if path.length = depth then
      some (if rest.isEmpty then .ok leaf.toJson else .error (.leafWithDescendants path))
    else
      match height with
      -- No path is longer than the depth here, so one that does not end has no segment there.
      | 0 => none
      | height + 1 => do
        let parts ← runs depth ((path, leaf) :: rest)
        let kinds := parts.map (·.1)
        if !kinds.all Segment.isIndex && kinds.any Segment.isIndex then
          some (.error (.mixedKinds (path.take depth)))
        else
          let found ← (parts.mapM fun part =>
            (part.1, ·) <$> ExceptT.mk (buildAt height (depth + 1) part.2)).run
          some (container (path.take depth) kinds found)

def ofRowsAt (base : Path) (fields : Option Projection) (rows : List Row) :
    Option (Except RowError (Option Json)) :=
  match rows.mapM Row.decode with
  | .error cause => some (.error cause)
  | .ok cells =>
    let branch := below base cells
    if branch.isEmpty then some (.ok none)
    else
      let kept := projected fields branch
      if kept.isEmpty then some (.ok (some (.object [])))
      else (buildAt (height kept) 0 (inOrder kept)).map (·.map some)

def rooted (place : Path) (branch : Branch) : Branch :=
  branch.map fun entry => (place ++ entry.1, entry.2)

theorem runs_rooted (place : Path) {branch : Branch} (deep : ∀ entry ∈ branch, entry.1 ≠ []) :
    runs place.length (rooted place branch) =
      some ((groups branch).map fun part => (part.1, rooted (place.child part.1) part.2)) := by
  induction branch with
  | nil => rfl
  | cons entry rest ih =>
    obtain ⟨path, leaf⟩ := entry
    have later := ih fun e he => deep e (List.mem_cons_of_mem _ he)
    cases path with
    | nil => exact absurd rfl (deep _ (List.mem_cons_self ..))
    | cons segment path =>
      have here : (place ++ segment :: path)[place.length]? = some segment := by simp
      have whole : rooted place ((segment :: path, leaf) :: rest) =
          (place ++ segment :: path, leaf) :: rooted place rest := rfl
      rw [whole, runs, here, later]
      cases found : groups rest with
      | nil =>
        simp only [groups, found]
        simp [rooted, Path.child]
      | cons first more =>
        obtain ⟨other, branch⟩ := first
        simp only [groups, found]
        by_cases same : segment = other
        · subst same
          simp [rooted, Path.child]
        · simp [rooted, Path.child, same]

theorem mapM_checked {α β ε : Type} {f : α → ExceptT ε Option β} {g : α → Except ε β}
    {items : List α} (each : ∀ item ∈ items, f item = ExceptT.mk (some (g item))) :
    items.mapM f = ExceptT.mk (some (items.mapM g)) := by
  induction items with
  | nil => rfl
  | cons item rest ih =>
    rw [List.mapM_cons, List.mapM_cons, each item (List.mem_cons_self ..),
      ih fun other there => each other (List.mem_cons_of_mem _ there)]
    cases g item with
    | error cause => rfl
    | ok b => cases rest.mapM g <;> rfl

theorem Ordered.group {branch : Branch} (ordered : Ordered branch) {part : Segment × Branch}
    (there : part ∈ groups branch) : Ordered part.2 := by
  have deeper : ∀ (s : Segment) (p q : Path), ¬ s :: q < s :: p → ¬ q < p :=
    fun _ _ _ late less => late (List.Lex.cons less)
  exact pairwise_group (R := fun p q => ¬ q < p) deeper ordered there

theorem container_mixed {place : Path} {kinds : List Segment}
    (mixed : (!kinds.all Segment.isIndex && kinds.any Segment.isIndex) = true)
    (parts : Except RowError (List (Segment × Json))) :
    container place kinds parts = .error (.mixedKinds place) := by
  simp only [Bool.and_eq_true, Bool.not_eq_true'] at mixed
  simp only [container, mixed.1, mixed.2, Bool.false_eq_true, if_false, if_true]

theorem buildAt_end (height : Nat) (place : Path) (leaf : Leaf) (rest : Branch) :
    buildAt height place.length (rooted place (([], leaf) :: rest)) =
      some (build height place (([], leaf) :: rest)) := by
  cases height <;> cases rest <;> simp [rooted, buildAt, build]

theorem buildAt_step {height : Nat} {place : Path} {branch : Branch} (filled : branch ≠ [])
    (deep : ∀ entry ∈ branch, entry.1 ≠ [])
    (each : ∀ part ∈ groups branch,
      buildAt height (place.length + 1) (rooted (place.child part.1) part.2) =
        some (build height (place.child part.1) part.2)) :
    buildAt (height + 1) place.length (rooted place branch) =
      some (build (height + 1) place branch) := by
  have found := runs_rooted place deep
  have parts : (groups branch).mapM (fun part => (part.1, ·) <$> ExceptT.mk
      (buildAt height (place.length + 1) (rooted (place.child part.1) part.2))) =
      ExceptT.mk (some ((groups branch).mapM fun part =>
        (build height (place.child part.1) part.2).map fun json => (part.1, json))) := by
    refine mapM_checked fun part hp => ?_
    rw [each part hp]
    cases build height (place.child part.1) part.2 <;> rfl
  rw [build_parts height place filled deep]
  obtain ⟨⟨path, leaf⟩, rest, rfl⟩ := List.exists_cons_of_ne_nil filled
  have longer : (place ++ path).length ≠ place.length := by
    simpa using deep _ (List.mem_cons_self ..)
  have start : (place ++ path).take place.length = place := by simp
  have whole : rooted place ((path, leaf) :: rest) = (place ++ path, leaf) :: rooted place rest := rfl
  rw [whole] at found ⊢
  rw [buildAt, if_neg longer, found, start]
  simp only [Option.bind_eq_bind, Option.bind_some, List.map_map, Function.comp_def]
  by_cases mixed : (!((groups ((path, leaf) :: rest)).map (·.1)).all Segment.isIndex &&
      ((groups ((path, leaf) :: rest)).map (·.1)).any Segment.isIndex) = true
  · rw [if_pos mixed, container_mixed mixed]
  · rw [if_neg mixed, List.mapM_map]
    exact congrArg (fun found : ExceptT RowError Option (List (Segment × Json)) =>
      found.run.bind fun found => some (container place _ found)) parts

/-- Whole paths in their order have a segment wherever they are asked for one. -/
theorem buildAt_rooted {height : Nat} {place : Path} {branch : Branch} (filled : branch ≠ [])
    (ordered : Ordered branch) (fits : ∀ entry ∈ branch, entry.1.length ≤ height) :
    buildAt height place.length (rooted place branch) = some (build height place branch) := by
  induction height generalizing place branch with
  | zero =>
    obtain ⟨⟨path, leaf⟩, rest, rfl⟩ := List.exists_cons_of_ne_nil filled
    have ends : path = [] := List.eq_nil_of_length_eq_zero
      (Nat.le_zero.mp (fits _ (List.mem_cons_self ..)))
    subst ends
    exact buildAt_end 0 place leaf rest
  | succ height ih =>
    obtain ⟨⟨path, leaf⟩, rest, rfl⟩ := List.exists_cons_of_ne_nil filled
    cases path with
    | nil => exact buildAt_end (height + 1) place leaf rest
    | cons segment path =>
      refine buildAt_step filled ordered.deep fun part hp => ?_
      have length : (place.child part.1).length = place.length + 1 := by simp [Path.child]
      rw [← length]
      exact ih (groups_nonempty _ part hp) (ordered.group hp) (length_of_group fits hp)

theorem buildAt_inOrder {branch : Branch} (filled : branch ≠ []) :
    buildAt (height branch) 0 (inOrder branch) = some (buildAll branch) := by
  have perm := inOrder_perm branch
  have whole : rooted Path.root (inOrder branch) = inOrder branch := List.map_id _
  have ordered : inOrder branch ≠ [] := fun none => filled (List.nil_perm.mp (none ▸ perm))
  have built : buildAt (height branch) Path.root.length (rooted Path.root (inOrder branch)) =
      some (buildAll branch) :=
    buildAt_rooted ordered (inOrder_sorted branch) fun entry he => length_le_height (perm.subset he)
  rwa [whole] at built

/-- Assembling rows asks no path for a segment that it does not have. -/
theorem ofRowsAt_eq (base : Path) (fields : Option Projection) (rows : List Row) :
    ofRowsAt base fields rows = some (ofRows base fields rows) := by
  unfold ofRowsAt ofRows
  cases rows.mapM Row.decode with
  | error cause => rfl
  | ok cells =>
    show _ = some (assemble base fields cells)
    unfold assemble
    dsimp only
    split
    · rfl
    · split
      · rfl
      · rename_i filled
        rw [buildAt_inOrder fun none => filled (List.isEmpty_iff.mpr none)]
        rfl

end Assembly

end LeafStore
