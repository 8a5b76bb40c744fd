import LeafStore.Proofs.Leaves
import LeafStore.Proofs.Results
/-!
Assembling leaves. Leaves on consistent paths have a value, whatever part of them is asked for.
-/
namespace LeafStore

namespace Assembly

theorem groups_sublist (branch : Branch) :
    ∀ part ∈ groups branch, (under part.1 part.2).Sublist branch := by
  induction branch with
  | nil => exact List.forall_mem_nil _
  | cons entry rest ih =>
    obtain ⟨path, leaf⟩ := entry
    cases path with
    | nil => exact fun part hp => (ih part hp).cons _
    | cons segment path =>
      have single : (under segment [(path, leaf)]).Sublist ((segment :: path, leaf) :: rest) :=
        (List.nil_sublist rest).cons_cons _
      -- The leaf joins the first group of the rest, or it is a group of its own before it.
      cases found : groups rest with
      | nil =>
        intro part hp
        simp only [groups, found, List.mem_singleton] at hp
        exact hp ▸ single
      | cons first more =>
        obtain ⟨other, branch⟩ := first
        rw [found] at ih
        have later : ∀ part ∈ more, (under part.1 part.2).Sublist
            ((segment :: path, leaf) :: rest) := fun part hp =>
          (ih part (List.mem_cons_of_mem _ hp)).cons _
        have joined := ih _ (List.mem_cons_self ..)
        intro part hp
        simp only [groups, found] at hp
        split at hp
        · rename_i same
          subst same
          rcases List.mem_cons.mp hp with rfl | hp
          · exact joined.cons_cons _
          · exact later part hp
        · rcases List.mem_cons.mp hp with rfl | hp
          · exact single
          · rcases List.mem_cons.mp hp with rfl | hp
            · exact joined.cons _
            · exact later part hp

theorem groups_nonempty (branch : Branch) : ∀ part ∈ groups branch, part.2 ≠ [] := by
  induction branch with
  | nil => exact List.forall_mem_nil _
  | cons entry rest ih =>
    obtain ⟨path, leaf⟩ := entry
    cases path with
    | nil => exact ih
    | cons segment path =>
      intro part hp
      cases found : groups rest with
      | nil =>
        simp only [groups, found, List.mem_singleton] at hp
        simp [hp]
      | cons first more =>
        obtain ⟨other, branch⟩ := first
        rw [found] at ih
        simp only [groups, found] at hp
        split at hp
        · rcases List.mem_cons.mp hp with rfl | hp
          · exact List.cons_ne_nil _ _
          · exact ih part (List.mem_cons_of_mem _ hp)
        · rcases List.mem_cons.mp hp with rfl | hp
          · exact List.cons_ne_nil _ _
          · exact ih part hp

def Parted (branch : Branch) : Prop := branch.Pairwise fun a b => a.1.Parts b.1

/-- What holds of paths holds of the rests of those in a group, if it passes to rests. -/
theorem pairwise_group {R : Path → Path → Prop} (deeper : ∀ s p q, R (s :: p) (s :: q) → R p q)
    {branch : Branch} (h : branch.Pairwise fun a b => R a.1 b.1) {part : Segment × Branch}
    (there : part ∈ groups branch) : part.2.Pairwise fun a b => R a.1 b.1 := by
  have below := List.Pairwise.sublist (groups_sublist branch part there) h
  exact (List.pairwise_map.mp below).imp fun {a b} related => deeper part.1 a.1 b.1 related

theorem Parted.part {branch : Branch} (h : Parted branch) {part : Segment × Branch}
    (there : part ∈ groups branch) : Parted part.2 :=
  pairwise_group (fun s p q => (Path.parts_append_left_iff [s] p q).mp) h there

theorem Parted.kind {segment : Segment} {path : Path} {leaf : Leaf} {rest : Branch}
    (h : Parted ((segment :: path, leaf) :: rest)) {part : Segment × Branch}
    (there : part ∈ groups ((segment :: path, leaf) :: rest)) :
    part.1.isIndex = segment.isIndex := by
  obtain ⟨entry, he⟩ := List.exists_mem_of_ne_nil _ (groups_nonempty _ part there)
  have member := (groups_sublist _ part there).subset (mem_under.mpr ⟨entry, he, rfl⟩)
  rcases List.mem_cons.mp member with same | later
  · rw [(List.cons.inj (Prod.mk.inj same).1).1]
  · rcases List.rel_of_pairwise_cons h later with ⟨same, _⟩ | ⟨_, kind⟩
    · rw [same]
    · exact kind.symm

theorem container_ok {place : Path} {kinds : List Segment} {found : List (Segment × Json)}
    (kind : Bool) (same : ∀ segment ∈ kinds, segment.isIndex = kind) :
    ∃ json, container place kinds (.ok found) = .ok json := by
  unfold container
  split
  · exact ⟨_, rfl⟩
  · rename_i notAll
    split
    · rename_i some
      obtain ⟨segment, there, index⟩ := List.any_eq_true.mp some
      refine absurd (List.all_eq_true.mpr fun other ho => ?_) notAll
      rw [same other ho, ← same segment there, index]
    · exact ⟨_, rfl⟩

theorem build_ok (height : Nat) (place : Path) {branch : Branch} (h : Parted branch) :
    ∃ json, build height place branch = .ok json := by
  induction height generalizing place branch with
  | zero =>
    cases branch with
    | nil => exact ⟨_, rfl⟩
    | cons entry rest =>
      obtain ⟨path, leaf⟩ := entry
      cases path with
      | cons segment path => exact ⟨_, rfl⟩
      | nil =>
        cases rest with
        | nil => exact ⟨_, rfl⟩
        | cons next rest => exact absurd (List.rel_of_pairwise_cons h (List.mem_cons_self ..)) id
  | succ height ih =>
    cases branch with
    | nil => exact ⟨_, rfl⟩
    | cons entry rest =>
      obtain ⟨path, leaf⟩ := entry
      cases path with
      | nil =>
        cases rest with
        | nil => exact ⟨_, rfl⟩
        | cons next rest => exact absurd (List.rel_of_pairwise_cons h (List.mem_cons_self ..)) id
      | cons segment path =>
        obtain ⟨found, parts⟩ := exists_mapM_eq_ok
          (f := fun part => (build height (place.child part.1) part.2).map fun json =>
            (part.1, json))
          (groups ((segment :: path, leaf) :: rest)) fun part hp => by
            obtain ⟨json, built⟩ := ih (place.child part.1) (h.part hp)
            exact ⟨(part.1, json), by rw [built]; rfl⟩
        rw [build, parts]
        refine container_ok segment.isIndex fun other ho => ?_
        obtain ⟨part, hp, rfl⟩ := List.mem_map.mp ho
        exact h.kind hp

theorem inOrder_perm (branch : Branch) : (inOrder branch).Perm branch := List.mergeSort_perm _ _

theorem buildAll_ok {branch : Branch} (h : Parted branch) :
    ∃ json, buildAll branch = .ok json :=
  build_ok _ _ (((inOrder_perm branch).pairwise_iff fun parts => parts.symm).mpr h)

@[simp] theorem below?_eq_some_iff (base p rest : Path) :
    base.below? p = some rest ↔ p = base ++ rest := by
  unfold Path.below?
  split
  · rename_i leads
    obtain ⟨tail, rfl⟩ := List.isPrefixOf_iff_prefix.mp leads
    simp
  · rename_i apart
    constructor
    · intro h
      cases h
    · rintro rfl
      exact absurd (List.isPrefixOf_iff_prefix.mpr (List.prefix_append base rest)) apart

@[simp] theorem below?_append (base rest : Path) : base.below? (base ++ rest) = some rest :=
  (below?_eq_some_iff ..).mpr rfl

@[simp] theorem below?_root (p : Path) : Path.root.below? p = some p := below?_append [] p

@[simp] theorem below?_cons (s t : Segment) (rest : Path) :
    Path.below? [s] (t :: rest) = if s = t then some rest else none := by
  split
  · rename_i same
    exact same ▸ below?_append [s] rest
  · rename_i differ
    refine Option.eq_none_iff_forall_not_mem.mpr fun tail there => ?_
    exact differ (List.cons.inj ((below?_eq_some_iff ..).mp there)).1.symm

theorem pairwise_below {α : Type} {base : Path} {R : Path → Path → Prop}
    (deeper : ∀ p q, R (base ++ p) (base ++ q) → R p q) (path : α → Path) (leaf : α → Leaf)
    {items : List α} (h : items.Pairwise fun a b => R (path a) (path b)) :
    List.Pairwise (fun a b : Path × Leaf => R a.1 b.1)
      (items.filterMap fun item => (base.below? (path item)).map fun rest => (rest, leaf item)) := by
  refine List.pairwise_filterMap.mpr (h.imp fun {a b} related x hx y hy => ?_)
  simp only [Option.map_eq_some_iff, below?_eq_some_iff] at hx hy
  obtain ⟨p, place, rfl⟩ := hx
  obtain ⟨q, place', rfl⟩ := hy
  rw [place, place'] at related
  exact deeper p q related

theorem below_parted (base : Path) {cells : List Cell}
    (consistent : Path.Consistent (cells.map (·.path))) : Parted (below base cells) :=
  pairwise_below (fun p q => (Path.parts_append_left_iff base p q).mp) Cell.path Cell.leaf
    (List.pairwise_map.mp ((Path.consistent_iff _).mp consistent))

/-- Consistent leaves have a value at every path, for every projection, unless none of them is
there. -/
theorem assemble_ok (base : Path) (fields : Option Projection) {cells : List Cell}
    (consistent : Path.Consistent (cells.map (·.path))) :
    ∃ json, assemble base fields cells = .ok json := by
  have parted := below_parted base consistent
  unfold assemble
  dsimp only
  split
  · exact ⟨_, rfl⟩
  · split
    · exact ⟨_, rfl⟩
    · have kept : Parted (projected fields (below base cells)) := by
        cases fields with
        | none => exact parted
        | some fields => exact parted.filter _
      obtain ⟨json, built⟩ := buildAll_ok kept
      exact ⟨some json, by rw [built]; rfl⟩

end Assembly

end LeafStore
