import LeafStore.Proofs.Acceptance
import LeafStore.Proofs.CandidateRows
import LeafStore.Proofs.DottedPaths
import LeafStore.Proofs.Results
/-!
How paths and patterns are spelled. A text between two points spells a position or a name, or in a
pattern any segment. Exactly the texts made of such pieces are read, each as what its pieces spell,
and what was read is spelled in one way.
-/
namespace LeafStore

theorem Permitted.head {name : String} (h : Permitted name) : name.toList.head? ≠ some '[' := by
  intro bracket
  obtain ⟨rest, chars⟩ := List.head?_eq_some_iff.mp bracket
  exact h.plain '[' (by simp) (chars ▸ List.mem_cons_self ..)

namespace Segment

def IsIndexText (piece : String) : Prop :=
  ∃ digits : List Char, piece = String.ofList ('[' :: (digits ++ [']'])) ∧
    0 < digits.length ∧ digits.length ≤ 6 ∧ digits.all Char.isDigit = true

/-- What a text between two points spells. -/
inductive Spells : String → Segment → Prop where
  | name {piece : String} (permitted : Permitted piece) : Spells piece (field piece)
  | position {digits : List Char} (filled : 0 < digits.length) (few : digits.length ≤ 6)
    (ascii : digits.all Char.isDigit = true) (bound : Text.digitsValue digits < positionCount) :
    Spells (String.ofList ('[' :: (digits ++ [']']))) (index ⟨Text.digitsValue digits, bound⟩)

theorem bracketed?_eq_some_iff {chars digits : List Char} :
    bracketed? chars = some digits ↔ chars = '[' :: (digits ++ [']']) := by
  constructor
  · intro found
    unfold bracketed? at found
    split at found
    · rename_i rest
      split at found
      · rename_i last
        obtain ⟨inner, rfl⟩ := List.getLast?_eq_some_iff.mp last
        rw [List.dropLast_concat] at found
        cases found
        rfl
      · cases found
    · cases found
  · rintro rfl
    simp [bracketed?]

theorem digitsValue_lt_positionCount {digits : List Char} (few : digits.length ≤ 6)
    (ascii : digits.all Char.isDigit = true) : Text.digitsValue digits < positionCount :=
  Nat.lt_of_lt_of_le (Text.digitsValue_lt ascii) (Nat.pow_le_pow_right (by decide) few)

theorem readIndex_eq_ok_iff {raw : String} {s : Segment} :
    readIndex raw = .ok s ↔ ∃ digits, raw = String.ofList ('[' :: (digits ++ [']'])) ∧
      0 < digits.length ∧ digits.length ≤ 6 ∧ digits.all Char.isDigit = true ∧
      ofPosition (Text.digitsValue digits) = .ok s := by
  constructor
  · intro ok
    unfold readIndex at ok
    split at ok
    · cases ok
    · rename_i digits inside
      have spelled : raw = String.ofList ('[' :: (digits ++ [']'])) := by
        rw [← bracketed?_eq_some_iff.mp inside, String.ofList_toList]
      split at ok
      · cases ok
      · rename_i decimal
        split at ok
        · cases ok
        · rename_i short
          split at ok
          · cases ok
          · rename_i ascii
            have ascii : digits.all Char.isDigit = true := by simpa using ascii
            have filled : digits ≠ [] := by
              rintro rfl
              exact decimal rfl
            rw [byteLength_digits ascii] at short
            exact ⟨digits, spelled, List.length_pos_iff.mpr filled, Nat.le_of_not_lt short, ascii, ok⟩
  · rintro ⟨digits, rfl, filled, few, ascii, ok⟩
    have decimal : digits.all Text.isDecimalDigit = true := List.all_eq_true.mpr fun c hc =>
      Text.isDecimalDigit_of_isDigit c (List.all_eq_true.mp ascii c hc)
    have nonempty : digits.isEmpty = false := by
      simpa using List.length_pos_iff.mp filled
    rw [readIndex, String.toList_ofList, bracketed?_eq_some_iff.mpr rfl]
    simp only [nonempty, decimal, ascii, byteLength_digits ascii, Nat.not_lt.mpr few, Bool.not_true,
      Bool.or_false, Bool.false_eq_true, if_false, ok]

/-- A text is read as the segment that it spells, and no other text is read. -/
theorem read_eq_ok_iff {raw : String} {s : Segment} : read raw = .ok s ↔ Spells raw s := by
  constructor
  · intro ok
    unfold read at ok
    split at ok
    · obtain ⟨digits, rfl, filled, few, ascii, position⟩ := readIndex_eq_ok_iff.mp ok
      have bound := digitsValue_lt_positionCount few ascii
      rw [ofPosition, dif_pos bound] at position
      cases position
      exact .position filled few ascii bound
    · obtain ⟨rfl, _⟩ := Limits.ofName_eq_ok ok
      exact .name (exists_ofName_eq_ok_iff.mp ⟨_, ok⟩)
  · intro spelled
    cases spelled with
    | name permitted =>
      obtain ⟨s, ok⟩ := exists_ofName_eq_ok_iff.mpr permitted
      obtain ⟨rfl, _⟩ := Limits.ofName_eq_ok ok
      rw [read, if_neg permitted.head, ok]
    | @position digits filled few ascii bound =>
      have first : (String.ofList ('[' :: (digits ++ [']']))).toList.head? = some '[' := by simp
      rw [read, if_pos first]
      exact readIndex_eq_ok_iff.mpr ⟨digits, rfl, filled, few, ascii, dif_pos bound⟩

theorem exists_spells_iff (piece : String) :
    (∃ s, Spells piece s) ↔ IsIndexText piece ∨ Permitted piece := by
  constructor
  · rintro ⟨s, permitted | @⟨digits, filled, few, ascii, bound⟩⟩
    · exact .inr permitted
    · exact .inl ⟨digits, rfl, filled, few, ascii⟩
  · rintro (⟨digits, rfl, filled, few, ascii⟩ | permitted)
    · exact ⟨_, .position filled few ascii (digitsValue_lt_positionCount few ascii)⟩
    · exact ⟨_, .name permitted⟩

theorem Spells.word {piece : String} {s : Segment} (h : Spells piece s) :
    piece ≠ "" ∧ '.' ∉ piece.toList := by
  cases h with
  | name permitted => exact ⟨permitted.nonempty, permitted.plain '.' (by simp)⟩
  | @position digits filled few ascii bound =>
    constructor
    · intro empty
      have chars := congrArg String.toList empty
      rw [String.toList_ofList] at chars
      cases chars
    · rw [String.toList_ofList]
      intro there
      rcases List.mem_cons.mp there with bracket | there
      · cases bracket
      · rcases List.mem_append.mp there with digit | bracket
        · exact isDigit_ne_point (List.all_eq_true.mp ascii _ digit) rfl
        · cases List.mem_singleton.mp bracket

theorem Valid.spells {s : Segment} (valid : s.Valid) : Spells s.column s :=
  read_eq_ok_iff.mp (read_column valid)

end Segment

namespace Path

theorem intercalate_splitPoints (chars : List Char) :
    ['.'].intercalate (splitPoints chars) = chars := by
  induction chars with
  | nil => rfl
  | cons c rest ih =>
    rw [splitPoints]
    split
    · rename_i point
      obtain ⟨piece, pieces, split⟩ := List.exists_cons_of_ne_nil (splitPoints_ne_nil rest)
      rw [split] at ih ⊢
      rw [List.intercalate_cons_cons, ih, point]
      rfl
    · split
      · rename_i none
        exact absurd none (splitPoints_ne_nil rest)
      · rename_i piece pieces split
        rw [split] at ih
        cases pieces with
        | nil =>
          rw [List.intercalate_singleton] at ih ⊢
          rw [ih]
        | cons next pieces =>
          rw [List.intercalate_cons_cons] at ih ⊢
          rw [← ih]
          rfl

@[simp] theorem intercalate_pieces (raw : String) : String.intercalate "." (pieces raw) = raw := by
  apply String.toList_inj.mp
  rw [String.toList_intercalate, pieces, List.map_map]
  have chars : (splitPoints raw.toList).map (String.toList ∘ String.ofList) = splitPoints raw.toList :=
    (List.map_congr_left fun _ _ => String.toList_ofList).trans (List.map_id _)
  rw [chars]
  exact intercalate_splitPoints raw.toList

/-- The pieces of a text are the only words that it is made of. -/
theorem forall₂_pieces_iff {β : Type} {R : String → β → Prop}
    (word : ∀ piece b, R piece b → piece ≠ "" ∧ '.' ∉ piece.toList) {raw : String}
    (filled : raw ≠ "") {found : List β} :
    List.Forall₂ R (pieces raw) found ↔
      ∃ texts, String.intercalate "." texts = raw ∧ List.Forall₂ R texts found := by
  constructor
  · exact fun all => ⟨pieces raw, intercalate_pieces raw, all⟩
  · rintro ⟨texts, rfl, all⟩
    have free : ∀ text ∈ texts, '.' ∉ text.toList := by
      intro text ht
      obtain ⟨b, spelled⟩ := exists_forall₂_iff.mp ⟨found, all⟩ text ht
      exact (word text b spelled).2
    have some : texts ≠ [] := by
      rintro rfl
      exact filled String.intercalate_nil
    rwa [pieces_intercalate some free]

theorem intercalate_eq_empty_iff {β : Type} {R : String → β → Prop}
    (word : ∀ piece b, R piece b → piece ≠ "" ∧ '.' ∉ piece.toList) {texts : List String}
    {found : List β} (all : List.Forall₂ R texts found) :
    String.intercalate "." texts = "" ↔ texts = [] := by
  constructor
  · intro empty
    cases all with
    | nil => rfl
    | @cons piece b texts found here there =>
      have piece_nonempty := (word piece b here).1
      cases texts with
      | nil => exact absurd (String.intercalate_singleton.symm.trans empty) piece_nonempty
      | cons next texts =>
        rw [String.intercalate_cons_cons] at empty
        simp at empty
  · rintro rfl
    exact String.intercalate_nil

theorem ofDotted_eq_ok_iff {raw : String} {p : Path} :
    ofDotted raw = .ok p ↔
      ∃ pieces, String.intercalate "." pieces = raw ∧ List.Forall₂ Segment.Spells pieces p := by
  have word := fun piece s (h : Segment.Spells piece s) => h.word
  by_cases empty : raw = ""
  · subst empty
    have root : ofDotted "" = .ok [] := rfl
    rw [root]
    constructor
    · intro same
      cases same
      exact ⟨[], String.intercalate_nil, .nil⟩
    · rintro ⟨texts, joined, all⟩
      obtain rfl := (intercalate_eq_empty_iff word all).mp joined
      rw [List.forall₂_nil_left_iff.mp all]
  · have filled : raw.isEmpty = false := by simpa [String.isEmpty_iff] using empty
    rw [ofDotted, filled, ← forall₂_pieces_iff word empty]
    show (pieces raw).mapM Segment.read = .ok p ↔ _
    simp only [mapM_eq_ok_iff, Segment.read_eq_ok_iff]

theorem exists_ofDotted_eq_ok_iff (raw : String) :
    (∃ p, ofDotted raw = .ok p) ↔ ∃ pieces, String.intercalate "." pieces = raw ∧
      ∀ piece ∈ pieces, Segment.IsIndexText piece ∨ Permitted piece := by
  simp only [ofDotted_eq_ok_iff, ← Segment.exists_spells_iff, ← exists_forall₂_iff]
  exact ⟨fun ⟨p, texts, joined, all⟩ => ⟨texts, joined, p, all⟩,
    fun ⟨texts, joined, p, all⟩ => ⟨p, texts, joined, all⟩⟩

end Path

inductive PatternStep.Spells : String → PatternStep → Prop where
  | star : Spells "*" wildcard
  | segment {piece : String} {s : Segment} (spelled : Segment.Spells piece s) :
    Spells piece (exact s)

namespace PatternStep

theorem not_spells_star (s : Segment) : ¬ Segment.Spells "*" s := by
  generalize star : "*" = piece
  rintro (permitted | _)
  · subst star
    exact permitted.plain '*' (by simp) (by decide)
  · have chars := congrArg String.toList star
    simp at chars

theorem exists_spells_iff (piece : String) :
    (∃ step, Spells piece step) ↔ piece = "*" ∨ Segment.IsIndexText piece ∨ Permitted piece := by
  rw [← Segment.exists_spells_iff]
  constructor
  · rintro ⟨step, _ | spelled⟩
    · exact .inl rfl
    · exact .inr ⟨_, spelled⟩
  · rintro (rfl | ⟨s, spelled⟩)
    · exact ⟨_, .star⟩
    · exact ⟨_, .segment spelled⟩

theorem Spells.word {piece : String} {step : PatternStep} (h : Spells piece step) :
    piece ≠ "" ∧ '.' ∉ piece.toList := by
  cases h with
  | star => decide
  | segment spelled => exact spelled.word

end PatternStep

namespace Pattern

theorem readStep_eq_ok_iff {raw piece : String} {step : PatternStep} :
    readStep raw piece = .ok step ↔ PatternStep.Spells piece step := by
  constructor
  · intro ok
    unfold readStep at ok
    split at ok
    · rename_i star
      cases ok
      exact star ▸ .star
    · obtain ⟨s, found, rfl⟩ := map_eq_ok (mapError_eq_ok ok)
      exact .segment (Segment.read_eq_ok_iff.mp found)
  · intro spelled
    cases spelled with
    | star => rfl
    | segment spelled =>
      rename_i s
      have closed : piece ≠ "*" := by
        rintro rfl
        exact PatternStep.not_spells_star s spelled
      rw [readStep, if_neg closed, Segment.read_eq_ok_iff.mpr spelled]
      rfl

theorem read_eq_ok_iff {raw : String} {q : Pattern} :
    read raw = .ok q ↔ raw ≠ "" ∧
      ∃ pieces, String.intercalate "." pieces = raw ∧ List.Forall₂ PatternStep.Spells pieces q := by
  have word := fun piece step (h : PatternStep.Spells piece step) => h.word
  by_cases empty : raw = ""
  · subst empty
    have refused : read "" = .error .emptyPath := rfl
    simp [refused]
  · have filled : raw.isEmpty = false := by simpa [String.isEmpty_iff] using empty
    rw [read, filled, ← Path.forall₂_pieces_iff word empty]
    show (Path.pieces raw).mapM (readStep raw) = .ok q ↔ _
    simp only [mapM_eq_ok_iff, readStep_eq_ok_iff, empty, ne_eq, not_false_eq_true, true_and]

theorem exists_read_eq_ok_iff (raw : String) :
    (∃ q, read raw = .ok q) ↔ raw ≠ "" ∧ ∃ pieces, String.intercalate "." pieces = raw ∧
      ∀ piece ∈ pieces, piece = "*" ∨ Segment.IsIndexText piece ∨ Permitted piece := by
  simp only [read_eq_ok_iff, ← PatternStep.exists_spells_iff, ← exists_forall₂_iff]
  exact ⟨fun ⟨q, filled, texts, joined, all⟩ => ⟨filled, texts, joined, q, all⟩,
    fun ⟨filled, texts, joined, q, all⟩ => ⟨q, filled, texts, joined, all⟩⟩

theorem Named.spells {q : Pattern} (named : q.Named) :
    List.Forall₂ PatternStep.Spells (q.map PatternStep.display) q := by
  rw [List.forall₂_map_left_iff, List.forall₂_same]
  intro step there
  cases step with
  | exact s => exact .segment (named s there).spells
  | wildcard => exact .star

theorem read_display {q : Pattern} (named : q.Named) (filled : q ≠ []) :
    read q.display = .ok q := by
  refine read_eq_ok_iff.mpr ⟨?_, q.map PatternStep.display, rfl, named.spells⟩
  intro empty
  exact filled (List.map_eq_nil_iff.mp
    ((Path.intercalate_eq_empty_iff (fun _ _ => PatternStep.Spells.word) named.spells).mp empty))

theorem read_display_of_read {raw : String} {q : Pattern} (ok : read raw = .ok q) :
    read q.display = .ok q :=
  read_display (read_named ok) (read_ne_nil ok)

end Pattern

/-- Exactly the texts made of positions in brackets and permitted names are read as paths; in a
pattern a star is a piece as well, and there is at least one. What is written for a path or a pattern
is read back as it, so no two have one text, and reading and writing again changes nothing. -/
theorem Path.spelling_exact :
    (∀ raw, (∃ p, ofDotted raw = .ok p) ↔ raw = "" ∨ ∃ pieces, pieces ≠ [] ∧
      String.intercalate "." pieces = raw ∧
      ∀ piece ∈ pieces, Segment.IsIndexText piece ∨ Permitted piece) ∧
    (∀ raw, (∃ q, Pattern.read raw = .ok q) ↔ raw ≠ "" ∧ ∃ pieces,
      String.intercalate "." pieces = raw ∧
      ∀ piece ∈ pieces, piece = "*" ∨ Segment.IsIndexText piece ∨ Permitted piece) ∧
    (∀ raw p, ofDotted raw = .ok p ↔
      ∃ pieces, String.intercalate "." pieces = raw ∧ List.Forall₂ Segment.Spells pieces p) ∧
    (∀ raw q, Pattern.read raw = .ok q ↔ raw ≠ "" ∧
      ∃ pieces, String.intercalate "." pieces = raw ∧ List.Forall₂ PatternStep.Spells pieces q) ∧
    (∀ p : Path, p.Valid → ofDotted p.dotted = .ok p) ∧
    (∀ raw q, Pattern.read raw = .ok q → Pattern.read q.display = .ok q) ∧
    (∀ p q : Path, p.Valid → q.Valid → p.dotted = q.dotted → p = q) ∧
    (∀ raw text, (ofDotted raw).map dotted = .ok text → (ofDotted text).map dotted = .ok text) ∧
    ∀ raw text, (Pattern.read raw).map Pattern.display = .ok text →
      (Pattern.read text).map Pattern.display = .ok text := by
  refine ⟨fun raw => ?_, Pattern.exists_read_eq_ok_iff, fun _ _ => ofDotted_eq_ok_iff,
    fun _ _ => Pattern.read_eq_ok_iff, fun _ => ofDotted_dotted,
    fun _ _ => Pattern.read_display_of_read, fun _ _ => dotted_inj, ?_, ?_⟩
  · rw [exists_ofDotted_eq_ok_iff]
    constructor
    · rintro ⟨pieces, joined, each⟩
      by_cases none : pieces = []
      · subst none
        exact .inl joined.symm
      · exact .inr ⟨pieces, none, joined, each⟩
    · rintro (rfl | ⟨pieces, -, joined, each⟩)
      · exact ⟨[], String.intercalate_nil, List.forall_mem_nil _⟩
      · exact ⟨pieces, joined, each⟩
  · intro raw text normal
    obtain ⟨p, read, rfl⟩ := map_eq_ok normal
    rw [ofDotted_dotted (ofDotted_valid _ read)]
    rfl
  · intro raw text normal
    obtain ⟨q, read, rfl⟩ := map_eq_ok normal
    rw [Pattern.read_display_of_read read]
    rfl

/-- Positions with and without leading zeros, a name outside ASCII and a star. -/
theorem Path.spelling_exact_padded :
    (ofDotted "a.[7].é").map dotted = .ok "a.[000007].é" ∧
    (ofDotted "a.[000007].é").map dotted = .ok "a.[000007].é" ∧
    ofDotted (dotted [.field "a", .index 7, .field "é"]) = .ok [.field "a", .index 7, .field "é"] ∧
    (∃ p, ofDotted "a.[7].é" = .ok p) ∧
    (∃ q, Pattern.read "*.[07]" = .ok q) ∧
    Pattern.read "*.[000007]" = .ok [.wildcard, .exact (.index 7)] ∧
    (Pattern.read "*.[000007]").map Pattern.display = .ok "*.[000007]" := by
  obtain ⟨paths, patterns, _, _, back, again, _, normal, normalPattern⟩ := Path.spelling_exact
  have short : (ofDotted "a.[7].é").map dotted = .ok "a.[000007].é" := by decide
  have valid : Path.Valid [.field "a", .index 7, .field "é"] :=
    ofDotted_valid "a.[7].é" rfl
  have star : Pattern.read "*.[07]" = .ok [.wildcard, .exact (.index 7)] := rfl
  have letter : Permitted "a" := exists_ofName_eq_ok_iff.mp ⟨.field "a", rfl⟩
  have accented : Permitted "é" := exists_ofName_eq_ok_iff.mp ⟨.field "é", rfl⟩
  have one : Segment.IsIndexText "[7]" := ⟨['7'], by decide, by decide, by decide, by decide⟩
  have two : Segment.IsIndexText "[07]" := ⟨['0', '7'], by decide, by decide, by decide, by decide⟩
  have pieces : ∀ piece ∈ ["a", "[7]", "é"], Segment.IsIndexText piece ∨ Permitted piece := by
    simp only [List.forall_mem_cons]
    exact ⟨.inr letter, .inl one, .inr accented, List.forall_mem_nil _⟩
  have steps : ∀ piece ∈ ["*", "[07]"],
      piece = "*" ∨ Segment.IsIndexText piece ∨ Permitted piece := by
    simp only [List.forall_mem_cons]
    exact ⟨.inl trivial, .inr (.inl two), List.forall_mem_nil _⟩
  exact ⟨short, normal _ _ short, back _ valid, (paths _).mpr (.inr ⟨_, by decide, by decide, pieces⟩),
    (patterns _).mpr ⟨by decide, _, by decide, steps⟩, again _ _ star, normalPattern "*.[07]" _ rfl⟩

end LeafStore
