import LeafStore.Path
/-!
Paths that can hold leaves of one document together. Two paths part where they first differ, if
they do so with segments of one kind; leaves of a document lie on paths that part pairwise.
-/
namespace LeafStore.Path

/-- Both paths go on where they first differ, and there with segments of one kind. -/
def Parts : Path → Path → Prop
  | s :: p, t :: q => s = t ∧ Parts p q ∨ s ≠ t ∧ s.isIndex = t.isIndex
  | _, _ => False

@[simp] theorem parts_cons_iff (s t : Segment) (p q : Path) :
    Parts (s :: p) (t :: q) ↔ s = t ∧ Parts p q ∨ s ≠ t ∧ s.isIndex = t.isIndex := Iff.rfl

theorem not_parts_nil (p : Path) : ¬ Parts p [] := by
  cases p <;> exact id

theorem not_nil_parts (p : Path) : ¬ Parts [] p := id

theorem Parts.symm {p q : Path} (h : p.Parts q) : q.Parts p := by
  induction p generalizing q with
  | nil => exact absurd h (not_nil_parts q)
  | cons s p ih =>
    cases q with
    | nil => exact absurd h (not_parts_nil _)
    | cons t q =>
      rcases h with ⟨same, h⟩ | ⟨differ, kind⟩
      · exact .inl ⟨same.symm, ih h⟩
      · exact .inr ⟨differ.symm, kind.symm⟩

@[simp] theorem parts_append_left_iff (base p q : Path) :
    Parts (base ++ p) (base ++ q) ↔ Parts p q := by
  induction base with
  | nil => exact Iff.rfl
  | cons s base ih => simp [ih]

theorem Parts.append {p q : Path} (h : p.Parts q) (r : Path) : (p ++ r).Parts q := by
  induction p generalizing q with
  | nil => exact absurd h (not_nil_parts q)
  | cons s p ih =>
    cases q with
    | nil => exact absurd h (not_parts_nil _)
    | cons t q =>
      rcases h with ⟨same, h⟩ | split
      · exact .inl ⟨same, ih h⟩
      · exact .inr split

theorem Parts.not_prefix {p q : Path} (h : p.Parts q) : ¬ p <+: q := by
  rintro ⟨rest, rfl⟩
  have shorter : Parts (p ++ []) (p ++ rest) := by simpa using h
  exact not_nil_parts rest ((parts_append_left_iff p [] rest).mp shorter)

theorem Parts.kinds {p q : Path} (h : p.Parts q) {place : Path} {s t : Segment}
    (hs : place ++ [s] <+: p) (ht : place ++ [t] <+: q) : s.isIndex = t.isIndex := by
  obtain ⟨p', rfl⟩ := hs
  obtain ⟨q', rfl⟩ := ht
  simp only [List.append_assoc, parts_append_left_iff] at h
  rcases h with ⟨same, _⟩ | ⟨_, kind⟩
  · exact congrArg Segment.isIndex same
  · exact kind

/-- Two paths part exactly when neither leads through the other and they go on everywhere with
segments of one kind. -/
theorem parts_iff (p q : Path) :
    p.Parts q ↔ ¬ p <+: q ∧ ¬ q <+: p ∧
      ∀ place s t, place ++ [s] <+: p → place ++ [t] <+: q → s.isIndex = t.isIndex := by
  constructor
  · intro h
    exact ⟨h.not_prefix, h.symm.not_prefix, fun _ _ _ => h.kinds⟩
  · induction p generalizing q with
    | nil => exact fun h => absurd (List.nil_prefix) h.1
    | cons s p ih =>
      cases q with
      | nil => exact fun h => absurd (List.nil_prefix) h.2.1
      | cons t q =>
        rintro ⟨hpq, hqp, kinds⟩
        by_cases same : s = t
        · subst same
          simp only [List.cons_prefix_cons, true_and] at hpq hqp
          refine .inl ⟨rfl, ih q ⟨hpq, hqp, fun place a b ha hb => ?_⟩⟩
          exact kinds (s :: place) a b (List.cons_prefix_cons.mpr ⟨rfl, ha⟩)
            (List.cons_prefix_cons.mpr ⟨rfl, hb⟩)
        · exact .inr ⟨same, kinds [] s t (List.prefix_append [s] p) (List.prefix_append [t] q)⟩

/-- Paths of the leaves of one document: no path is another one or leads through it, and
everywhere the paths go on with fields only or with positions only. -/
structure Consistent (paths : List Path) : Prop where
  apart : paths.Pairwise fun p q => ¬ p <+: q ∧ ¬ q <+: p
  kinds : ∀ p ∈ paths, ∀ q ∈ paths, ∀ place s t,
    place ++ [s] <+: p → place ++ [t] <+: q → s.isIndex = t.isIndex

theorem consistent_iff (paths : List Path) : Consistent paths ↔ paths.Pairwise Parts := by
  constructor
  · rintro ⟨apart, kinds⟩
    refine apart.imp_of_mem fun {p q} hp hq h => ?_
    exact (parts_iff p q).mpr ⟨h.1, h.2, kinds p hp q hq⟩
  · intro h
    refine ⟨h.imp fun parts => ⟨parts.not_prefix, parts.symm.not_prefix⟩, ?_⟩
    have itself : ∀ p ∈ paths, ∀ place s t,
        place ++ [s] <+: p → place ++ [t] <+: p → s.isIndex = t.isIndex := by
      intro p _ place s t hs ht
      have same : place ++ [s] = place ++ [t] :=
        (List.prefix_of_prefix_length_le hs ht (by simp)).eq_of_length (by simp)
      exact congrArg Segment.isIndex (List.singleton_inj.mp (List.append_cancel_left same))
    have two := h.imp (S := fun p q => ∀ place s t,
      place ++ [s] <+: p → place ++ [t] <+: q → s.isIndex = t.isIndex)
      fun parts _ _ _ => parts.kinds
    have back := h.imp (S := fun p q => ∀ place s t,
      place ++ [s] <+: q → place ++ [t] <+: p → s.isIndex = t.isIndex)
      fun parts _ _ _ => parts.symm.kinds
    exact fun p hp q hq => two.forall_of_forall_of_flip itself back hp hq

theorem Consistent.parts {paths : List Path} (h : Consistent paths) {p q : Path} (hp : p ∈ paths)
    (hq : q ∈ paths) (differ : p ≠ q) : p.Parts q := by
  have parted := (consistent_iff paths).mp h
  have one := parted.imp (S := fun p q : Path => p ≠ q → p.Parts q) fun parts _ => parts
  have back := parted.imp (S := fun p q : Path => q ≠ p → q.Parts p) fun parts _ => parts.symm
  exact one.forall_of_forall_of_flip (fun _ _ none => absurd rfl none) back hp hq differ

theorem Consistent.sublist {a b : List Path} (h : Consistent b) (sub : a.Sublist b) :
    Consistent a := by
  rw [consistent_iff] at h ⊢
  exact h.sublist sub

end LeafStore.Path
