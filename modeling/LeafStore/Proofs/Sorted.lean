import LeafStore.Sorted
/-!
Laws of ascending lists: membership after each operation, and that an ascending list is given by
its members.
-/
namespace LeafStore.Sorted

variable {κ ν : Type} [LT κ]

/-- The keys of a map ascend, so each is there once. -/
def Ascending (map : List (κ × ν)) : Prop := map.Pairwise fun a b => a.1 < b.1

theorem Ascending.filterMap {μ : Type} {map : List (κ × ν)} (h : Ascending map)
    {f : κ × ν → Option (κ × μ)} (keyed : ∀ {entry made}, f entry = some made → made.1 = entry.1) :
    Ascending (map.filterMap f) := by
  refine List.pairwise_filterMap.mpr (h.imp fun {a b} less x hx y hy => ?_)
  rw [keyed hx, keyed hy]
  exact less

section Order

variable [Std.Asymm (α := κ) (· < ·)]

theorem ne_of_lt {a b : κ} (h : a < b) : a ≠ b := by
  intro same
  subst same
  exact Std.Irrefl.irrefl _ h

theorem Ascending.value_unique {map : List (κ × ν)} (h : Ascending map) {key : κ} {v w : ν}
    (hv : (key, v) ∈ map) (hw : (key, w) ∈ map) : v = w := by
  induction h with
  | nil => cases hv
  | @cons entry rest before _ ih =>
    rcases List.mem_cons.mp hv with hv | hv <;> rcases List.mem_cons.mp hw with hw | hw
    · exact congrArg Prod.snd (hv.trans hw.symm)
    · exact absurd (congrArg Prod.fst hv) (ne_of_lt (before _ hw)).symm
    · exact absurd (congrArg Prod.fst hw) (ne_of_lt (before _ hv)).symm
    · exact ih hv hw

theorem eq_of_mem_iff {α : Type} (key : α → κ) {a b : List α}
    (ha : a.Pairwise fun x y => key x < key y) (hb : b.Pairwise fun x y => key x < key y)
    (same : ∀ x, x ∈ a ↔ x ∈ b) : a = b := by
  have nodup : ∀ {items : List α}, items.Pairwise (fun x y => key x < key y) → items.Nodup :=
    fun h => h.imp fun less same => ne_of_lt less (congrArg key same)
  have perm : a.Perm b := (List.perm_ext_iff_of_nodup (nodup ha) (nodup hb)).mpr same
  exact perm.eq_of_pairwise (fun x y _ _ hxy hyx => absurd hyx (Std.Asymm.asymm _ _ hxy)) ha hb

theorem Ascending.ext {a b : List (κ × ν)} (ha : Ascending a) (hb : Ascending b)
    (same : ∀ entry, entry ∈ a ↔ entry ∈ b) : a = b :=
  eq_of_mem_iff Prod.fst ha hb same

theorem Ascending.lookup_eq_some_iff [BEq κ] [LawfulBEq κ] {map : List (κ × ν)}
    (h : Ascending map) (key : κ) (value : ν) :
    map.lookup key = some value ↔ (key, value) ∈ map := by
  induction h with
  | nil => simp
  | @cons entry rest before _ ih =>
    obtain ⟨other, old⟩ := entry
    by_cases same : key = other
    · subst same
      constructor
      · intro found
        simp only [List.lookup_cons_self, Option.some.injEq] at found
        simp [found]
      · intro member
        rcases List.mem_cons.mp member with here | there
        · simp [(Prod.mk.inj here).2]
        · exact absurd rfl (ne_of_lt (before (key, value) there))
    · have differ : (key == other) = false := by simpa using same
      simp [List.lookup_cons, differ, ih, same]

theorem Ascending.ext_lookup [BEq κ] [LawfulBEq κ] {a b : List (κ × ν)} (ha : Ascending a)
    (hb : Ascending b) (same : ∀ key, a.lookup key = b.lookup key) : a = b := by
  refine ha.ext hb fun entry => ?_
  rw [← ha.lookup_eq_some_iff entry.1 entry.2, ← hb.lookup_eq_some_iff entry.1 entry.2, same]

end Order

section Insert

variable [DecidableLT κ]

section Past

variable [Std.Asymm (α := κ) (· < ·)]

theorem insert_past {map : List (κ × ν)} (key : κ) (value : ν)
    (past : ∀ entry ∈ map, entry.1 < key) : insert key value map = map ++ [(key, value)] := by
  induction map with
  | nil => rfl
  | cons first rest ih =>
    obtain ⟨other, old⟩ := first
    have less : other < key := past _ (List.mem_cons_self ..)
    have notLess : ¬ key < other := Std.Asymm.asymm _ _ less
    simp only [insert, if_neg notLess, if_pos less, List.cons_append,
      ih fun e he => past e (List.mem_cons_of_mem _ he)]

theorem ofPairs_of_ascending {pairs : List (κ × ν)} (h : Ascending pairs) :
    ofPairs pairs = pairs := by
  have run : ∀ (pairs map : List (κ × ν)), Ascending (map ++ pairs) →
      pairs.foldl (fun map pair => insert pair.1 pair.2 map) map = map ++ pairs := by
    intro pairs
    induction pairs with
    | nil => simp
    | cons pair rest ih =>
      intro map whole
      have past : ∀ entry ∈ map, entry.1 < pair.1 := fun entry he =>
        (List.pairwise_append.mp whole).2.2 entry he pair (List.mem_cons_self ..)
      rw [List.foldl_cons, insert_past pair.1 pair.2 past, ih _ (by simpa using whole)]
      simp
  simpa [ofPairs] using run pairs [] (by simpa using h)

end Past

variable [Std.Trichotomous (α := κ) (· < ·)]

theorem ofPairs_perm {pairs : List (κ × ν)} (distinct : (pairs.map (·.1)).Nodup) :
    (ofPairs pairs).Perm pairs := by
  have fresh : ∀ (map : List (κ × ν)) (pair : κ × ν), pair.1 ∉ map.map (·.1) →
      (insert pair.1 pair.2 map).Perm (pair :: map) := by
    intro map pair unused
    induction map with
    | nil => exact .refl _
    | cons first rest ih =>
      simp only [List.map_cons, List.mem_cons, not_or] at unused
      unfold insert
      split
      · exact .refl _
      · split
        · exact ((ih unused.2).cons first).trans (.swap ..)
        · rename_i notLess notGreater
          exact absurd (Std.Trichotomous.trichotomous _ _ notLess notGreater) unused.1
  have run : ∀ (pairs map : List (κ × ν)), ((map ++ pairs).map (·.1)).Nodup →
      (pairs.foldl (fun map pair => insert pair.1 pair.2 map) map).Perm (map ++ pairs) := by
    intro pairs
    induction pairs with
    | nil => simp
    | cons pair rest ih =>
      intro map distinct
      have unused : pair.1 ∉ map.map (·.1) := fun there => by
        rw [List.map_append] at distinct
        exact (List.nodup_append.mp distinct).2.2 _ there _ (List.mem_cons_self ..) rfl
      have here : (insert pair.1 pair.2 map ++ rest).Perm (map ++ pair :: rest) :=
        ((fresh map pair unused).append_right rest).trans List.perm_middle.symm
      exact (ih _ ((here.map _).nodup_iff.mpr distinct)).trans here
  exact run pairs [] distinct

@[simp] theorem mem_add (key other : κ) (set : List κ) :
    other ∈ add key set ↔ other = key ∨ other ∈ set := by
  induction set with
  | nil => simp [add]
  | cons first rest ih =>
    unfold add
    split
    · simp
    · split
      · simp only [List.mem_cons, ih]
        grind
      · rename_i notLess notGreater
        have same : key = first := Std.Trichotomous.trichotomous _ _ notLess notGreater
        subst same
        simp

variable [Trans (α := κ) (· < ·) (· < ·) (· < ·)]

theorem add_ascending {set : List κ} (h : set.Pairwise (· < ·)) (key : κ) :
    (add key set).Pairwise (· < ·) := by
  induction h with
  | nil => simp [add]
  | @cons first rest before tail ih =>
    unfold add
    split
    · rename_i less
      refine List.Pairwise.cons ?_ (List.Pairwise.cons before tail)
      intro e he
      rcases List.mem_cons.mp he with he | he
      · exact he ▸ less
      · exact Trans.trans less (before e he)
    · split
      · rename_i greater
        refine List.Pairwise.cons ?_ ih
        intro e he
        rcases (mem_add key e rest).mp he with he | he
        · exact he ▸ greater
        · exact before e he
      · rename_i notLess notGreater
        have same : key = first := Std.Trichotomous.trichotomous _ _ notLess notGreater
        subst same
        exact List.Pairwise.cons before tail

theorem ofKeys_run (keys set : List κ) (h : set.Pairwise (· < ·)) :
    (keys.foldl (fun set key => add key set) set).Pairwise (· < ·) ∧
      ∀ key, key ∈ keys.foldl (fun set key => add key set) set ↔ key ∈ set ∨ key ∈ keys := by
  induction keys generalizing set with
  | nil => simpa using h
  | cons first rest ih =>
    obtain ⟨ascending, members⟩ := ih (add first set) (add_ascending h first)
    refine ⟨ascending, fun key => ?_⟩
    rw [List.foldl_cons, members, mem_add, List.mem_cons]
    grind

theorem ofKeys_ascending (keys : List κ) : (ofKeys keys).Pairwise (· < ·) :=
  (ofKeys_run keys [] List.Pairwise.nil).1

@[simp] theorem mem_ofKeys (keys : List κ) (key : κ) : key ∈ ofKeys keys ↔ key ∈ keys := by
  simpa [ofKeys] using (ofKeys_run keys [] List.Pairwise.nil).2 key

variable [Std.Asymm (α := κ) (· < ·)]

theorem mem_insert {map : List (κ × ν)} (h : Ascending map) (key : κ) (value : ν)
    (entry : κ × ν) :
    entry ∈ insert key value map ↔ entry = (key, value) ∨ entry ∈ map ∧ entry.1 ≠ key := by
  induction h with
  | nil => simp [insert]
  | @cons first rest before _ ih =>
    obtain ⟨other, old⟩ := first
    unfold insert
    split
    · rename_i less
      have later : ∀ e ∈ (other, old) :: rest, e.1 ≠ key := by
        intro e he
        rcases List.mem_cons.mp he with he | he
        · subst he
          exact (ne_of_lt less).symm
        · exact (ne_of_lt (Trans.trans less (before _ he))).symm
      simp only [List.mem_cons] at later ⊢
      grind
    · split
      · rename_i greater
        have apart := ne_of_lt greater
        simp only [List.mem_cons, ih]
        grind
      · rename_i notLess notGreater
        have same : key = other := Std.Trichotomous.trichotomous _ _ notLess notGreater
        subst same
        have later : ∀ e ∈ rest, e.1 ≠ key := fun e he => (ne_of_lt (before e he)).symm
        simp only [List.mem_cons]
        grind

theorem insert_ascending {map : List (κ × ν)} (h : Ascending map) (key : κ) (value : ν) :
    Ascending (insert key value map) := by
  induction h with
  | nil => simp [insert, Ascending]
  | @cons first rest before tail ih =>
    obtain ⟨other, old⟩ := first
    unfold insert
    split
    · rename_i less
      refine List.Pairwise.cons ?_ (List.Pairwise.cons before tail)
      intro e he
      rcases List.mem_cons.mp he with he | he
      · subst he
        exact less
      · exact Trans.trans less (before e he)
    · split
      · rename_i greater
        refine List.Pairwise.cons ?_ ih
        intro e he
        rcases (mem_insert tail key value e).mp he with he | he
        · subst he
          exact greater
        · exact before e he.1
      · rename_i notLess notGreater
        have same : key = other := Std.Trichotomous.trichotomous _ _ notLess notGreater
        subst same
        exact List.Pairwise.cons before tail

theorem ofPairs_ascending (pairs : List (κ × ν)) : Ascending (ofPairs pairs) := by
  have run : ∀ (pairs map : List (κ × ν)), Ascending map →
      Ascending (pairs.foldl (fun map pair => insert pair.1 pair.2 map) map) := by
    intro pairs
    induction pairs with
    | nil => exact fun map h => h
    | cons pair rest ih => exact fun map h => ih _ (insert_ascending h pair.1 pair.2)
  exact run pairs [] List.Pairwise.nil

theorem mem_of_mem_ofPairs {pairs : List (κ × ν)} {entry : κ × ν}
    (h : entry ∈ ofPairs pairs) : entry ∈ pairs := by
  have run : ∀ (pairs map : List (κ × ν)), Ascending map →
      entry ∈ pairs.foldl (fun map pair => insert pair.1 pair.2 map) map →
        entry ∈ map ∨ entry ∈ pairs := by
    intro pairs
    induction pairs with
    | nil => exact fun map _ there => .inl there
    | cons pair rest ih =>
      intro map ascending there
      rcases ih _ (insert_ascending ascending pair.1 pair.2) there with there | there
      · rcases (mem_insert ascending pair.1 pair.2 entry).mp there with same | ⟨there, _⟩
        · exact .inr (same ▸ List.mem_cons_self ..)
        · exact .inl there
      · exact .inr (List.mem_cons_of_mem _ there)
  simpa using run pairs [] List.Pairwise.nil h

theorem update_ascending [BEq κ] {map : List (κ × ν)} (h : Ascending map) (key : κ)
    (initial : ν) (change : ν → ν) : Ascending (update key initial change map) :=
  insert_ascending h key _

theorem lookup_insert [BEq κ] [LawfulBEq κ] {map : List (κ × ν)} (h : Ascending map)
    (key other : κ) (value : ν) :
    (insert key value map).lookup other = if other == key then some value else map.lookup other := by
  apply Option.ext
  intro found
  rw [(insert_ascending h key value).lookup_eq_some_iff, mem_insert h]
  split
  · rename_i same
    simp [eq_of_beq same, eq_comm]
  · rename_i differ
    have apart : other ≠ key := fun same => differ (same ▸ BEq.rfl)
    rw [h.lookup_eq_some_iff]
    simp [apart]

theorem lookup_update_self [BEq κ] [LawfulBEq κ] {map : List (κ × ν)} (h : Ascending map)
    (key : κ) (initial : ν) (change : ν → ν) :
    (update key initial change map).lookup key =
      some (change ((map.lookup key).getD initial)) :=
  ((update_ascending h key initial change).lookup_eq_some_iff _ _).mpr
    ((mem_insert h _ _ _).mpr (.inl rfl))

theorem lookup_update_of_ne [BEq κ] [LawfulBEq κ] {map : List (κ × ν)} (h : Ascending map)
    {key other : κ} (differ : other ≠ key) (initial : ν) (change : ν → ν) :
    (update key initial change map).lookup other = map.lookup other := by
  apply Option.ext
  intro value
  rw [(update_ascending h key initial change).lookup_eq_some_iff, h.lookup_eq_some_iff, update,
    mem_insert h]
  simp [differ]

end Insert

end LeafStore.Sorted
