import Mathlib.Data.List.Perm.Basic
/-!
Results that may be errors: what success of a whole says about its parts, and lists of results as lists
that are related one by one.
-/
namespace LeafStore

variable {α β ε φ : Type}

section Steps

variable (a : α) (e : ε) (f : α → β) (g : ε → φ) (step : α → Except ε β)

@[simp] theorem ok_bind : (.ok a >>= step : Except ε β) = step a := rfl

@[simp] theorem error_bind : (.error e >>= step : Except ε β) = .error e := rfl

@[simp] theorem bind_ok : (.ok a : Except ε α).bind step = step a := rfl

@[simp] theorem bind_error : (.error e : Except ε α).bind step = .error e := rfl

@[simp] theorem map_ok : (.ok a : Except ε α).map f = .ok (f a) := rfl

@[simp] theorem map_error : (.error e : Except ε α).map f = .error e := rfl

@[simp] theorem mapError_ok : (.ok a : Except ε α).mapError g = .ok a := rfl

@[simp] theorem mapError_error : (.error e : Except ε α).mapError g = .error (g e) := rfl

end Steps

theorem bind_eq_ok {x : Except ε α} {f : α → Except ε β} {b : β}
    (h : x >>= f = .ok b) : ∃ a, x = .ok a ∧ f a = .ok b := by
  cases x with
  | error e => cases h
  | ok a => exact ⟨a, rfl, h⟩

theorem exists_bind_eq_ok_iff {x : Except ε α} {f : α → Except ε β} :
    (∃ b, x >>= f = .ok b) ↔ ∃ a, x = .ok a ∧ ∃ b, f a = .ok b := by
  constructor
  · rintro ⟨b, ok⟩
    obtain ⟨a, first, rest⟩ := bind_eq_ok ok
    exact ⟨a, first, b, rest⟩
  · rintro ⟨a, rfl, b, rest⟩
    exact ⟨b, rest⟩

theorem map_eq_ok {x : Except ε α} {f : α → β} {b : β} (h : x.map f = .ok b) :
    ∃ a, x = .ok a ∧ f a = b := by
  cases x with
  | error e => cases h
  | ok a => exact ⟨a, rfl, Except.ok.inj h⟩

theorem mapError_eq_ok {x : Except ε α} {f : ε → φ} {a : α} (h : x.mapError f = .ok a) :
    x = .ok a := by
  cases x with
  | error e => cases h
  | ok b =>
    cases h
    rfl

theorem bind_eq_error {x : Except ε α} {f : α → Except ε β} {e : ε} (h : x >>= f = .error e) :
    x = .error e ∨ ∃ a, x = .ok a ∧ f a = .error e := by
  cases x with
  | error cause =>
    cases h
    exact .inl rfl
  | ok a => exact .inr ⟨a, rfl, h⟩

theorem mapError_eq_error {x : Except ε α} {f : ε → φ} {e : φ} (h : x.mapError f = .error e) :
    ∃ cause, x = .error cause ∧ e = f cause := by
  cases x with
  | error cause => exact ⟨cause, rfl, (Except.error.inj h).symm⟩
  | ok a => cases h

theorem eq_ok_of_toOption {x : Except ε α} {a : α} (h : x.toOption = some a) : x = .ok a := by
  cases x with
  | error e => cases h
  | ok b => exact congrArg Except.ok (Option.some.inj h)

theorem mapM_congr {f g : α → Except ε β} {items : List α} (each : ∀ item ∈ items, f item = g item) :
    items.mapM f = items.mapM g := by
  induction items with
  | nil => rfl
  | cons item rest ih =>
    rw [List.mapM_cons, List.mapM_cons, each item (List.mem_cons_self ..),
      ih fun other ho => each other (List.mem_cons_of_mem _ ho)]

theorem mapM_eq_ok_iff {f : α → Except ε β} {items : List α} {found : List β} :
    items.mapM f = .ok found ↔ List.Forall₂ (fun item b => f item = .ok b) items found := by
  induction items generalizing found with
  | nil =>
    rw [List.forall₂_nil_left_iff]
    exact ⟨fun ok => (Except.ok.inj ok).symm, fun none => none ▸ rfl⟩
  | cons item items ih =>
    rw [List.forall₂_cons_left_iff, List.mapM_cons]
    constructor
    · intro ok
      obtain ⟨b, here, ok⟩ := bind_eq_ok ok
      obtain ⟨others, there, ok⟩ := bind_eq_ok ok
      cases ok
      exact ⟨b, others, here, ih.mp there, rfl⟩
    · rintro ⟨b, others, here, there, rfl⟩
      rw [here, ih.mpr there]
      rfl

theorem exists_of_forall₂ {R : α → β → Prop} {items : List α} {found : List β}
    (all : List.Forall₂ R items found) {b : β} (there : b ∈ found) : ∃ item ∈ items, R item b := by
  induction all with
  | nil => cases there
  | cons here _ ih =>
    rcases List.mem_cons.mp there with rfl | later
    · exact ⟨_, List.mem_cons_self .., here⟩
    · obtain ⟨item, listed, related⟩ := ih later
      exact ⟨item, List.mem_cons_of_mem _ listed, related⟩

theorem exists_forall₂_iff {R : α → β → Prop} {items : List α} :
    (∃ found, List.Forall₂ R items found) ↔ ∀ item ∈ items, ∃ b, R item b := by
  induction items with
  | nil => simp
  | cons item items ih =>
    rw [List.forall_mem_cons, ← ih]
    constructor
    · rintro ⟨_, all⟩
      obtain ⟨b, others, here, there, -⟩ := List.forall₂_cons_left_iff.mp all
      exact ⟨⟨b, here⟩, others, there⟩
    · rintro ⟨⟨b, here⟩, found, there⟩
      exact ⟨b :: found, .cons here there⟩

/-- Values that are related one by one lie apart if what they are related to lies apart. -/
theorem pairwise_iff_of_forall₂ {R : α → β → Prop} {S : α → α → Prop}
    {T : β → β → Prop} (same : ∀ a b x y, R a x → R b y → (S a b ↔ T x y)) {items : List α}
    {found : List β} (all : List.Forall₂ R items found) : items.Pairwise S ↔ found.Pairwise T := by
  induction all with
  | nil => exact ⟨fun _ => .nil, fun _ => .nil⟩
  | @cons a x items found here others ih =>
    have ahead : (∀ b ∈ items, S a b) ↔ ∀ y ∈ found, T x y := by
      constructor
      · intro apart y there
        obtain ⟨b, listed, related⟩ := exists_of_forall₂ others there
        exact (same a b x y here related).mp (apart b listed)
      · intro apart b there
        obtain ⟨y, listed, related⟩ := exists_of_forall₂ others.flip there
        exact (same a b x y here related).mpr (apart y listed)
    rw [List.pairwise_cons, List.pairwise_cons, ahead, ih]

section Checked

variable {f g : α → Except ε β} {items : List α} {found : List β}

theorem mapM_eq_ok {f : α → Except ε β} {g : α → β} {items : List α}
    (each : ∀ item ∈ items, f item = .ok (g item)) : items.mapM f = .ok (items.map g) :=
  mapM_eq_ok_iff.mpr (List.forall₂_map_right_iff.mpr (List.forall₂_same.mpr each))

theorem mapM_eq_ok_of_imp (each : ∀ item ∈ items, ∀ b, f item = .ok b → g item = .ok b)
    (h : items.mapM f = .ok found) : items.mapM g = .ok found :=
  mapM_eq_ok_iff.mpr (((List.forall₂_and_left _ _).mpr ⟨each, mapM_eq_ok_iff.mp h⟩).imp
    fun _ b here => here.1 b here.2)

theorem length_of_mapM_eq_ok (h : items.mapM f = .ok found) : found.length = items.length :=
  (mapM_eq_ok_iff.mp h).length_eq.symm

theorem exists_mapM_eq_ok (items : List α) (each : ∀ item ∈ items, ∃ b, f item = .ok b) :
    ∃ found, items.mapM f = .ok found :=
  (exists_congr fun _ => mapM_eq_ok_iff).mpr (exists_forall₂_iff.mpr each)

theorem mem_of_mapM_eq_ok (h : items.mapM f = .ok found) {b : β} (hb : b ∈ found) :
    ∃ item ∈ items, f item = .ok b :=
  exists_of_forall₂ (mapM_eq_ok_iff.mp h) hb

theorem exists_mem_of_mapM_eq_ok (h : items.mapM f = .ok found) {item : α} (there : item ∈ items) :
    ∃ b ∈ found, f item = .ok b :=
  exists_of_forall₂ (mapM_eq_ok_iff.mp h).flip there

theorem mapM_perm {a b : List α} (perm : a.Perm b) (h : b.mapM f = .ok found) :
    ∃ others, a.mapM f = .ok others ∧ others.Perm found := by
  obtain ⟨others, read, same⟩ := List.perm_comp_forall₂ perm (mapM_eq_ok_iff.mp h)
  exact ⟨others, mapM_eq_ok_iff.mpr read, same⟩

end Checked

end LeafStore
