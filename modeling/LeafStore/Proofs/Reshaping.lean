import LeafStore.Proofs.Columns
import LeafStore.Proofs.Parting
import LeafStore.Write
/-!
What the deletions of a write cover. Those on the way to a path, with the one at the path, cover
exactly the leaves that a document with a leaf below the path cannot have.
-/
namespace LeafStore

namespace Path

def headColumn (rest : Path) : String := (rest.head?.map Segment.column).getD ""

@[simp] theorem padded_cons (s : Segment) (p : Path) (width : Nat) :
    padded (s :: p) width = s.column :: p.padded (width - 1) := by
  have left : width - (p.length + 1) = width - 1 - p.length := by omega
  simp [padded, columns, left]

theorem padded_head? (p : Path) (width : Nat) :
    ((p.padded width)[0]?).getD "" = p.headColumn := by
  cases p with
  | nil => cases width <;> simp [padded, columns, headColumn, List.replicate_succ]
  | cons s p => simp [headColumn]

theorem columns_prefix_padded {place q : Path} (leads : place <+: q) (width : Nat) :
    place.columns <+: q.padded width := by
  obtain ⟨rest, rfl⟩ := leads
  simp [padded, columns]

theorem columns_prefix_padded_iff {place q : Path} (hp : place.Valid) (hq : q.Valid)
    (width : Nat) : place.columns <+: q.padded width ↔ place <+: q := by
  induction place generalizing q width with
  | nil => simp [columns]
  | cons s p ih =>
    have hs : s.Valid := hp s (List.mem_cons_self ..)
    cases q with
    | nil =>
      constructor
      · rintro ⟨rest, same⟩
        have filled : s.column ∈ padded [] width := same ▸ List.mem_cons_self ..
        simp only [padded, columns, List.map_nil, List.nil_append, List.mem_replicate] at filled
        exact absurd filled.2 (Segment.column_ne_empty hs)
      · intro h
        cases List.prefix_nil.mp h
    | cons t q =>
      have ht : t.Valid := hq t (List.mem_cons_self ..)
      rw [padded_cons, columns, List.map_cons, List.cons_prefix_cons, List.cons_prefix_cons,
        Segment.column_inj hs ht]
      exact and_congr_right fun _ => ih (fun x hx => hp x (List.mem_cons_of_mem _ hx))
        (fun x hx => hq x (List.mem_cons_of_mem _ hx)) (width - 1)

end Path

namespace Deletion

theorem nextColumn_append (d : Deletion) (rest : Path) (width : Nat) :
    d.nextColumn (Path.padded (d.path ++ rest) width) = rest.headColumn := by
  have skip : ∀ (place : Path) (width : Nat),
      ((Path.padded (place ++ rest) width)[place.length]?).getD "" = rest.headColumn := by
    intro place
    induction place with
    | nil => exact Path.padded_head? rest
    | cons s p ih =>
      intro width
      rw [List.cons_append, Path.padded_cons, List.length_cons, List.getElem?_cons_succ]
      exact ih (width - 1)
  exact skip d.path width

/-- A deletion covers the row at a path exactly if the path leads through its place and goes on
as its scope says. -/
theorem covers_padded_iff (d : Deletion) {q : Path} (hd : d.path.Valid) (hq : q.Valid)
    (width : Nat) : d.covers (q.padded width) = true ↔
      ∃ rest, q = d.path ++ rest ∧ d.scope.covers rest.headColumn = true := by
  rw [covers, Bool.and_eq_true, List.isPrefixOf_iff_prefix, Path.columns_prefix_padded_iff hd hq]
  constructor
  · rintro ⟨⟨rest, rfl⟩, inScope⟩
    rw [nextColumn_append] at inScope
    exact ⟨rest, rfl, inScope⟩
  · rintro ⟨rest, rfl, inScope⟩
    rw [nextColumn_append]
    exact ⟨List.prefix_append _ _, inScope⟩

end Deletion

namespace Limits

variable (document : String) (time : Int)

/-- A path goes on after a place, if it does, with a segment of another kind than the given one. -/
def Turns (next : Segment) (rest : Path) : Prop :=
  rest.head?.map Segment.isIndex ≠ some next.isIndex

theorem indexes_headColumn {rest : Path} (h : rest.Valid) :
    SegmentRange.indexes.contains rest.headColumn = true ↔
      rest.head?.map Segment.isIndex = some true := by
  cases rest with
  | nil => simp [Path.headColumn]
  | cons s rest =>
    simp [Path.headColumn, SegmentRange.indexes_contains (h s (List.mem_cons_self ..))]

theorem headColumn_eq_empty_iff {rest : Path} (h : rest.Valid) :
    rest.headColumn = "" ↔ rest = [] := by
  cases rest with
  | nil => simp [Path.headColumn]
  | cons s rest =>
    simp [Path.headColumn, Segment.column_ne_empty (h s (List.mem_cons_self ..))]

theorem valid_of_append {place rest : Path} (h : Path.Valid (place ++ rest)) : rest.Valid :=
  fun s hs => h s (List.mem_append_right _ hs)

theorem pair_covers_iff {place q : Path} (first second : Scope) {goesOn : Path → Prop}
    (hp : place.Valid) (hq : q.Valid) (width : Nat)
    (scopes : ∀ rest : Path, rest.Valid →
      (first.covers rest.headColumn = true ∨ second.covers rest.headColumn = true ↔ goesOn rest)) :
    (∃ d ∈ [(⟨document, place, first, time⟩ : Deletion), ⟨document, place, second, time⟩],
        d.covers (q.padded width) = true) ↔ ∃ rest, q = place ++ rest ∧ goesOn rest := by
  simp only [List.mem_cons, List.not_mem_nil, or_false, exists_eq_or_imp, exists_eq_left]
  rw [Deletion.covers_padded_iff _ hp hq, Deletion.covers_padded_iff _ hp hq, ← exists_or]
  refine exists_congr fun rest => ?_
  rw [← and_or_left]
  refine and_congr_right fun same => scopes rest ?_
  exact valid_of_append (same ▸ hq)

theorem reshaping_covers_iff {place q : Path} (next : Segment) (hp : place.Valid)
    (hq : q.Valid) (width : Nat) :
    (∃ d ∈ reshaping document time place next, d.covers (q.padded width) = true) ↔
      ∃ rest, q = place ++ rest ∧ Turns next rest := by
  cases next with
  | field name =>
    refine pair_covers_iff document time _ _ hp hq width fun rest hr => ?_
    simp only [Scope.covers, List.contains_iff_mem, List.mem_singleton,
      headColumn_eq_empty_iff hr, indexes_headColumn hr, Turns, Segment.isIndex]
    cases rest with
    | nil => simp
    | cons s rest => simp
  | index position =>
    refine pair_covers_iff document time _ _ hp hq width fun rest hr => ?_
    simp only [Scope.covers]
    rw [← Bool.or_eq_true, SegmentRange.below_or_above, Bool.not_eq_true', Bool.eq_false_iff, Ne,
      indexes_headColumn hr]
    exact Iff.rfl

theorem mem_ancestorDeletions (path : Path) (d : Deletion) :
    d ∈ ancestorDeletions document time path ↔
      ∃ place next, place ++ [next] <+: path ∧ d ∈ reshaping document time place next := by
  unfold ancestorDeletions
  rw [List.mem_flatMap]
  constructor
  · rintro ⟨⟨next, depth⟩, there, hd⟩
    have found : path[depth]? = some next := List.mem_zipIdx_iff_getElem?.mp there
    refine ⟨path.take depth, next, ?_, hd⟩
    obtain ⟨bound, value⟩ := List.getElem?_eq_some_iff.mp found
    rw [← value, List.take_append_getElem bound]
    exact List.take_prefix _ _
  · rintro ⟨place, next, ⟨rest, rfl⟩, hd⟩
    refine ⟨(next, place.length), List.mem_zipIdx_iff_getElem?.mpr (by simp), ?_⟩
    simpa using hd

theorem turns_iff (path q : Path) :
    (∃ place next, place ++ [next] <+: path ∧ ∃ rest, q = place ++ rest ∧ Turns next rest) ↔
      ¬ path <+: q ∧ ¬ path.Parts q := by
  induction path generalizing q with
  | nil => simp
  | cons s p ih =>
    cases q with
    | nil =>
      refine iff_of_true ⟨[], s, List.prefix_append [s] p, [], rfl, by simp [Turns]⟩ ?_
      exact ⟨by simp, Path.not_parts_nil _⟩
    | cons t q =>
      by_cases same : s = t
      · subst same
        rw [List.cons_prefix_cons, Path.parts_cons_iff]
        simp only [true_and, ne_eq, not_true, false_and, or_false]
        rw [← ih q]
        constructor
        · rintro ⟨place, next, hp, rest, hq, turns⟩
          cases place with
          | nil =>
            -- At the first step both paths go on with the same segment.
            have first : next = s := by simpa using hp
            subst first hq
            exact absurd rfl turns
          | cons x place =>
            rw [List.cons_append, List.cons_prefix_cons] at hp
            exact ⟨place, next, hp.2, rest, (List.cons.inj hq).2, turns⟩
        · rintro ⟨place, next, hp, rest, rfl, turns⟩
          exact ⟨s :: place, next, List.cons_prefix_cons.mpr ⟨rfl, hp⟩, rest, rfl, turns⟩
      · rw [List.cons_prefix_cons, Path.parts_cons_iff]
        simp only [same, false_and, not_false_eq_true, ne_eq, true_and, false_or]
        constructor
        · rintro ⟨place, next, hp, rest, hq, turns⟩
          cases place with
          | nil =>
            have first : next = s := by simpa using hp
            subst first hq
            exact fun kind => turns (congrArg some kind.symm)
          | cons x place =>
            rw [List.cons_append, List.cons_prefix_cons] at hp
            exact absurd (hp.1.symm.trans (List.cons.inj hq).1.symm) same
        · intro kind
          refine ⟨[], s, List.prefix_append [s] p, t :: q, rfl, ?_⟩
          simpa [Turns] using fun h => kind h.symm

theorem ancestorDeletions_covers_iff {path q : Path} (hp : path.Valid) (hq : q.Valid)
    (width : Nat) :
    (∃ d ∈ ancestorDeletions document time path, d.covers (q.padded width) = true) ↔
      ¬ path <+: q ∧ ¬ path.Parts q := by
  rw [← turns_iff]
  constructor
  · rintro ⟨d, hd, covered⟩
    obtain ⟨place, next, onTheWay, hd⟩ := (mem_ancestorDeletions ..).mp hd
    have valid : place.Valid := fun s hs =>
      hp s (onTheWay.subset (List.mem_append_left _ hs))
    exact ⟨place, next, onTheWay, (reshaping_covers_iff document time next valid hq width).mp
      ⟨d, hd, covered⟩⟩
  · rintro ⟨place, next, onTheWay, turned⟩
    have valid : place.Valid := fun s hs =>
      hp s (onTheWay.subset (List.mem_append_left _ hs))
    obtain ⟨d, hd, covered⟩ :=
      (reshaping_covers_iff document time next valid hq width).mpr turned
    exact ⟨d, (mem_ancestorDeletions ..).mpr ⟨place, next, onTheWay, hd⟩, covered⟩

theorem replacing_covers_iff {path q : Path} (hp : path.Valid) (hq : q.Valid) (width : Nat) :
    (∃ d ∈ replacing document time path, d.covers (q.padded width) = true) ↔ path <+: q := by
  simp only [replacing, List.mem_singleton, exists_eq_left]
  rw [Deletion.covers_padded_iff _ hp hq]
  simp only [Scope.covers, and_true]
  exact exists_congr fun rest => eq_comm

/-- A replacement deletes what does not part from its path. -/
theorem replacement_covers_iff {path q : Path} (hp : path.Valid) (hq : q.Valid) (width : Nat) :
    (∃ d ∈ replacing document time path ++ ancestorDeletions document time path,
      d.covers (q.padded width) = true) ↔ ¬ path.Parts q := by
  simp only [List.mem_append, or_and_right, exists_or]
  rw [replacing_covers_iff document time hp hq, ancestorDeletions_covers_iff document time hp hq]
  constructor
  · rintro (below | turned)
    · exact fun parts => parts.not_prefix below
    · exact turned.2
  · intro joined
    by_cases below : path <+: q
    · exact .inl below
    · exact .inr ⟨below, joined⟩

theorem merging_covers_iff {path q : Path} (names : List String) (hp : path.Valid)
    (hq : q.Valid) (width : Nat) :
    (∃ d ∈ merging document time path names, d.covers (q.padded width) = true) ↔
      ∃ rest, q = path ++ rest ∧ ∀ name tail, rest = .field name :: tail → name ∈ names := by
  refine pair_covers_iff document time _ _ hp hq width fun rest hr => ?_
  simp only [Scope.covers, indexes_headColumn hr, List.contains_iff_mem, List.mem_cons,
    headColumn_eq_empty_iff hr]
  cases rest with
  | nil => simp
  | cons s rest =>
    cases s with
    | field name => simp [Path.headColumn, Segment.column, Segment.isIndex]
    | index position => simp [Segment.isIndex]

end Limits

end LeafStore
