import LeafStore.Proofs.DottedPaths
import LeafStore.Proofs.PageTokens
import LeafStore.Proofs.ReadAnswers
/-!
Answers of a search inside a document. Page by page it gives the value of every place below its base
that has a leaf for each condition, as if all leaves of the document had been looked at.
-/
namespace LeafStore

namespace Condition

def meets (c : Condition) (base : Path) (cell : Cell) : Bool :=
  (base.below? cell.path).any fun rest =>
    c.pattern.accepts rest && c.operators.all (·.accepts cell.leaf)

theorem under_accepts (c : Condition) (base : Path) (cell : Cell) :
    (c.under base).accepts cell = c.meets base cell := by
  have fits := Pattern.accepts_under base c.pattern cell.path
  show ((c.pattern.under base).accepts cell.path && c.operators.all (·.accepts cell.leaf)) = _
  cases place : base.below? cell.path with
  | none =>
    have off : (c.pattern.under base).accepts cell.path = false := by
      refine Bool.eq_false_iff.mpr fun accepted => ?_
      obtain ⟨rest, split, _⟩ := fits.mp accepted
      simp [split] at place
    rw [meets, place, off]
    rfl
  | some rest =>
    have split := (Assembly.below?_eq_some_iff base cell.path rest).mp place
    have same : (c.pattern.under base).accepts cell.path = c.pattern.accepts rest := by
      rw [Bool.eq_iff_iff, fits]
      constructor
      · rintro ⟨other, split', accepted⟩
        exact List.append_cancel_left (split.symm.trans split') ▸ accepted
      · exact fun accepted => ⟨rest, split, accepted⟩
    rw [meets, place, same]
    rfl

end Condition

namespace Filter

def IsPlace (f : Filter) (base : Path) (cells : List Cell) (place : Path) : Prop :=
  ∀ c ∈ f, ∃ cell ∈ cells, cell.path.parent = place ∧ c.meets base cell = true

/-- The leaves that the value of a place is made of: those directly below it that meet a condition,
or with a projection those in one of its fields. -/
def selects (f : Filter) (base : Path) (fields : Option Projection) (place : Path) (cell : Cell) :
    Bool :=
  match fields with
  | none => cell.path.parent = place && f.any (·.meets base cell)
  | some fields => (place.below? cell.path).any fields.includes

/-- The value of a place: what its leaves assemble to below the base, or an empty object. -/
def placeValue (f : Filter) (base : Path) (fields : Option Projection) (cells : List Cell)
    (place : Path) : Except RowError Json :=
  (Assembly.assemble base none (cells.filter (f.selects base fields place))).map
    (·.getD (.object []))

end Filter

namespace MatchQuery

variable {base : Path} {filter : Filter} {parent : Pattern} {fields : Option Projection} {size : Nat}
  {after : Option Path} {cells : List Cell}

/-- The search for a filter below a base whose patterns have one parent. -/
def asking (base : Path) (filter : Filter) (parent : Pattern) (fields : Option Projection)
    (size : Nat) (after : Option Path) : MatchQuery :=
  ⟨base, filter.under base, parent.under base, fields, size, after⟩

theorem asking_parents (steps : ∀ c ∈ filter, c.pattern ≠ [])
    (shared : ∀ c ∈ filter, c.pattern.parent = parent) :
    ∀ c ∈ filter.under base, c.pattern.parent = parent.under base := by
  intro c hc
  obtain ⟨plain, there, rfl⟩ := List.mem_map.mp hc
  rw [Condition.under, Pattern.parent_under (steps plain there), shared plain there]

theorem resuming_asking (filled : filter ≠ []) (steps : ∀ c ∈ filter, c.pattern ≠ [])
    (shared : ∀ c ∈ filter, c.pattern.parent = parent) (valid : ∀ place ∈ after, place.Valid) :
    resuming base filter fields size (after.map fun place => PageToken.encode place.dotted) =
      .ok (asking base filter parent fields size after) := by
  have token : (after.map fun place => PageToken.encode place.dotted).mapM readToken = .ok after := by
    cases after with
    | none => rfl
    | some place =>
      have read : readToken (PageToken.encode place.dotted) = .ok place := by
        rw [readToken, Query.readToken, PageToken.decode_encode]
        show (Path.ofDotted place.dotted).mapError _ = _
        rw [Path.ofDotted_dotted (valid place rfl)]
        rfl
      rw [Option.map_some, Option.mapM_some, read]
      rfl
  have parents : ∀ c ∈ filter.under base, c.pattern.parent = parent.under base :=
    asking_parents steps shared
  have one : sharedParent (filter.under base) = .ok (parent.under base) := by
    cases conditions : filter.under base with
    | nil => exact absurd (List.map_eq_nil_iff.mp conditions) filled
    | cons first others =>
      rw [conditions] at parents
      obtain ⟨here, rest⟩ := List.forall_mem_cons.mp parents
      have same : (others.all fun c => c.pattern.parent = first.pattern.parent) = true :=
        List.all_eq_true.mpr fun c hc => decide_eq_true ((rest c hc).trans here.symm)
      rw [sharedParent, if_pos same, here]
  rw [resuming, token]
  show (sharedParent (filter.under base) >>= _) = _
  rw [one]
  rfl

@[simp] theorem mem_places (cells : List Cell) (c : Condition) (place : Path) :
    place ∈ places cells c ↔ ∃ cell ∈ cells, cell.path.parent = place ∧ c.accepts cell = true := by
  rw [places, Sorted.mem_ofKeys, List.mem_map]
  refine exists_congr fun cell => ?_
  rw [List.mem_filter, and_assoc, and_comm (b := _ = place)]

theorem remaining_ascending (q : MatchQuery) (cells : List Cell) :
    (q.remaining cells).Pairwise (· < ·) := by
  refine (Engine.common_ascending fun set there => ?_).filter _
  obtain ⟨c, _, rfl⟩ := List.mem_map.mp there
  exact Sorted.ofKeys_ascending _

theorem mem_remaining {q : MatchQuery} (some : q.conditions ≠ []) (place : Path) :
    place ∈ q.remaining cells ↔ (∀ c ∈ q.conditions, ∃ cell ∈ cells, cell.path.parent = place ∧
      c.accepts cell = true) ∧ q.after.all (· < place) = true := by
  have sets : q.conditions.map (places cells) ≠ [] := fun none => some (List.map_eq_nil_iff.mp none)
  rw [remaining, List.mem_filter, Engine.mem_common sets]
  refine and_congr_left fun _ => ?_
  constructor
  · exact fun each c hc => (mem_places ..).mp (each _ (List.mem_map.mpr ⟨c, hc, rfl⟩))
  · intro each set there
    obtain ⟨c, hc, rfl⟩ := List.mem_map.mp there
    exact (mem_places ..).mpr (each c hc)

/-! A page does not depend on rows that matter to no place. -/

theorem filter_filter_of_imp {α : Type} {keep wanted : α → Bool} {items : List α}
    (kept : ∀ item ∈ items, wanted item = true → keep item = true) :
    (items.filter keep).filter wanted = items.filter wanted := by
  rw [List.filter_filter]
  refine List.filter_congr fun item there => ?_
  cases needed : wanted item with
  | false => rfl
  | true => rw [kept item there needed]; rfl

theorem page_filter {q : MatchQuery} {keep : Cell → Bool}
    (conditions : ∀ cell ∈ cells, ∀ c ∈ q.conditions, c.accepts cell = true → keep cell = true)
    (values : ∀ place ∈ q.remaining cells, ∀ cell ∈ cells, q.selects place cell = true →
      keep cell = true) : q.page (cells.filter keep) = q.page cells := by
  have same : q.remaining (cells.filter keep) = q.remaining cells := by
    have each : q.conditions.map (places (cells.filter keep)) = q.conditions.map (places cells) := by
      refine List.map_congr_left fun c hc => ?_
      rw [places, filter_filter_of_imp fun cell there => conditions cell there c hc]
      rfl
    rw [remaining, each]
    rfl
  have results : ((q.remaining cells).take q.pageSize).mapM (q.result (cells.filter keep)) =
      ((q.remaining cells).take q.pageSize).mapM (q.result cells) := by
    refine mapM_congr fun place there => ?_
    rw [result, filter_filter_of_imp (values place (List.mem_of_mem_take there))]
    rfl
  simp only [page, same, results]

theorem fixedPart_leads {q : MatchQuery} (parents : ∀ c ∈ q.conditions, c.pattern.parent = q.parent)
    {c : Condition} (hc : c ∈ q.conditions) {cell : Cell} (accepted : c.accepts cell = true) :
    q.parent.fixedPart <+: cell.path.parent := by
  rw [← parents c hc]
  exact Pattern.fixedPart_prefix (Pattern.accepts_parent (Bool.and_eq_true_iff.mp accepted).1)

/-- The select of a search finds every row that matters, narrowed down or not. -/
theorem select_keeps {q : MatchQuery} (parents : ∀ c ∈ q.conditions, c.pattern.parent = q.parent)
    (operators : ∀ c ∈ q.conditions, c.operators ≠ []) {cell : Cell} (width : Nat)
    {c : Condition} (hc : c ∈ q.conditions) (accepted : c.accepts cell = true) :
    (q.select cell.document).accepts (cell.row width) = true := by
  have leads := fixedPart_leads parents hc accepted
  have inside : ((Select.ofDocument cell.document).below q.parent.fixedPart).accepts
      (cell.row width) = true := by
    refine (Select.below_accepts_iff ..).mpr ⟨rfl, ?_⟩
    exact Path.columns_prefix_padded (leads.trans cell.path.dropLast_prefix) width
  unfold select
  split
  · rename_i condition one _
    obtain rfl : c = condition := List.mem_singleton.mp (one ▸ hc)
    rw [narrow_accepts _ rfl rfl, inside,
      Condition.leaf_accepts (Condition.isMarker_of_accepts (operators c hc) accepted)
        (Bool.and_eq_true_iff.mp accepted).1]
    cases pushed : c.pushdown? with
    | none => rfl
    | some p => exact Condition.value_accepts pushed accepted width
  · exact inside

theorem answer_legible {width : Nat} {t : Table} (legible : t.Legible width) (document : String)
    {q : MatchQuery} (filled : q.conditions ≠ [])
    (parents : ∀ c ∈ q.conditions, c.pattern.parent = q.parent)
    (operators : ∀ c ∈ q.conditions, c.operators ≠ []) :
    q.answer ((t.live document).filter (q.select document).accepts) =
      (q.page (t.cells document)).mapError .corruptRow := by
  have keeps : ∀ cell ∈ t.cells document, ∀ c ∈ q.conditions, c.accepts cell = true →
      (q.select document).accepts (cell.row width) = true := by
    intro cell there c hc accepted
    rw [← legible.about document cell there]
    exact select_keeps parents operators width hc accepted
  have narrowed : q.page ((t.cells document).filter ((q.select document).accepts ∘ Cell.row width)) =
      q.page (t.cells document) := by
    refine page_filter keeps fun place remains cell there selected => ?_
    unfold selects at selected
    split at selected
    · -- A projected leaf may meet no condition, but with a projection nothing is narrowed.
      rename_i asked projected
      obtain ⟨c, hc⟩ := List.exists_mem_of_ne_nil _ filled
      obtain ⟨other, _, rfl, accepted⟩ := ((mem_remaining filled place).mp remains).1 c hc
      have below : other.path.parent <+: cell.path := by
        rw [Option.any_eq_true] at selected
        obtain ⟨rest, split, _⟩ := selected
        exact ⟨rest, ((Assembly.below?_eq_some_iff ..).mp split).symm⟩
      have whole : q.select document = (Select.ofDocument document).below q.parent.fixedPart := by
        unfold select
        split
        · rename_i none
          rw [projected] at none
          cases none
        · rfl
      show (q.select document).accepts (cell.row width) = true
      rw [whole]
      refine (Select.below_accepts_iff ..).mpr ⟨(legible.about document cell there).symm, ?_⟩
      exact Path.columns_prefix_padded ((fixedPart_leads parents hc accepted).trans below) width
    · obtain ⟨c, hc, accepted⟩ := List.any_eq_true.mp (Bool.and_eq_true_iff.mp selected).2
      exact keeps cell there c hc accepted
  rw [answer, legible.decode_filter]
  exact congrArg (Except.mapError Error.corruptRow) narrowed

/-- A search that a client may ask for finds what it would among all rows of the document. -/
theorem answer_resuming {width : Nat} {t : Table} (legible : t.Legible width) (document : String)
    (steps : ∀ c ∈ filter, c.pattern ≠ [] ∧ c.operators ≠ []) {token : Option String}
    {q : MatchQuery} (ok : resuming base filter fields size token = .ok q) :
    q.answer ((t.live document).filter (q.select document).accepts) = q.answer (t.live document) := by
  obtain ⟨filled, _, same, parents⟩ := resuming_eq_ok ok
  have asked : q.conditions = filter.under base := congrArg conditions same
  have operators : ∀ c ∈ q.conditions, c.operators ≠ [] := by
    intro c hc
    obtain ⟨plain, there, rfl⟩ := List.mem_map.mp (asked ▸ hc)
    exact (steps plain there).2
  rw [answer_legible legible document (fun none => filled (List.map_eq_nil_iff.mp (asked ▸ none)))
    (asked ▸ parents) operators, answer, legible.decode_live]
  rfl

theorem result_asking (place : Path) :
    (asking base filter parent fields size after).result cells place =
      filter.placeValue base fields cells place := by
  have conditions : ∀ cell, (filter.under base).any (·.accepts cell) =
      filter.any (·.meets base cell) := by
    intro cell
    rw [Filter.under, List.any_map]
    exact congrArg filter.any (funext fun c => c.under_accepts base cell)
  have selected : (asking base filter parent fields size after).selects place =
      filter.selects base fields place := by
    cases fields with
    | some fields => rfl
    | none =>
      exact funext fun cell => congrArg (decide (cell.path.parent = place) && ·) (conditions cell)
  rw [result, selected]
  rfl

theorem isPlace_iff (place : Path) :
    filter.IsPlace base cells place ↔ ∀ c ∈ filter.under base, ∃ cell ∈ cells,
      cell.path.parent = place ∧ c.accepts cell = true := by
  constructor
  · intro h c hc
    obtain ⟨plain, there, rfl⟩ := List.mem_map.mp hc
    obtain ⟨cell, member, at_, met⟩ := h plain there
    exact ⟨cell, member, at_, (plain.under_accepts base cell).trans met⟩
  · intro h c hc
    obtain ⟨cell, member, at_, accepted⟩ := h (c.under base) (List.mem_map.mpr ⟨c, hc, rfl⟩)
    exact ⟨cell, member, at_, (c.under_accepts base cell).symm.trans accepted⟩

theorem valid_of_remaining {width : Nat} {t : Table} (filled : filter ≠ [])
    (legible : t.Legible width) {document : String} {first rest : List Path} {last : Path}
    (split : (asking base filter parent fields size after).remaining (t.cells document) =
      first ++ last :: rest) : last.Valid := by
  have conditions : (asking base filter parent fields size after).conditions ≠ [] :=
    fun none => filled (List.map_eq_nil_iff.mp none)
  have there : last ∈ (asking base filter parent fields size after).remaining (t.cells document) :=
    split ▸ List.mem_append_right _ (List.mem_cons_self ..)
  obtain ⟨c, hc⟩ := List.exists_mem_of_ne_nil _ conditions
  obtain ⟨cell, member, rfl, _⟩ := ((mem_remaining conditions last).mp there).1 c hc
  exact fun segment hs => legible.valid document cell member segment (List.dropLast_subset _ hs)

theorem remaining_resumed {first rest : List Path} {last : Path}
    (split : (asking base filter parent fields size after).remaining cells = first ++ last :: rest) :
    (asking base filter parent fields size (some last)).remaining cells = rest := by
  refine ((KeyOrder.ascends_ofLT List.lt_irrefl List.lt_trans id).mpr ?_).past_resumed split
  refine Engine.common_ascending fun set there => ?_
  obtain ⟨c, _, rfl⟩ := List.mem_map.mp there
  exact Sorted.ofKeys_ascending _

theorem page_cases (q : MatchQuery) (positive : 0 < q.pageSize) (cells : List Cell) :
    (q.remaining cells).length ≤ q.pageSize ∧
        q.page cells = ((q.remaining cells).mapM (q.result cells)).map (⟨·, none⟩) ∨
      ∃ first last rest, q.remaining cells = first ++ last :: rest ∧ first.length + 1 = q.pageSize ∧
        q.page cells = ((first ++ [last]).mapM (q.result cells)).map
          (⟨·, some (PageToken.encode last.dotted)⟩) := by
  rcases take_cases q.pageSize positive (q.remaining cells) with
    few | ⟨first, last, rest, split, others, full, cut⟩
  · have whole := List.take_of_length_le few
    refine .inl ⟨few, ?_⟩
    simp only [page, whole, Nat.lt_irrefl, if_false]
  · have more : (first ++ [last]).length < (q.remaining cells).length := by
      have past := List.length_pos_iff.mpr others
      rw [split]
      simp only [List.length_append, List.length_cons, List.length_nil]
      omega
    refine .inr ⟨first, last, rest, split, full, ?_⟩
    simp only [page, cut, more, if_true, List.getLast?_concat, Option.map_some]

end MatchQuery

/-- Pages of which each but the last is full, and only the last has no token. -/
inductive FullPages (size : Nat) : List MatchPage → Prop where
  | last {results : List Json} (few : results.length ≤ size) : FullPages size [⟨results, none⟩]
  | next {results : List Json} {token : String} {pages : List MatchPage}
    (full : results.length = size) (others : FullPages size pages) :
    FullPages size (⟨results, some token⟩ :: pages)

/-- The pages of an answer hold the values of all places, unless one of them has none, and each page
but the last is full. -/
structure MatchPage.Hold (size : Nat) (values : Except RowError (List Json))
    (answer : Except Error (List MatchPage)) : Prop where
  whole : answer.map (·.flatMap (·.results)) = values.mapError .corruptRow
  full : ∀ pages, answer = .ok pages → FullPages size pages

namespace MatchPage

variable {size : Nat} {values : Except RowError (List Json)}

theorem Hold.pages {results : List Json} {answer : Except Error (List MatchPage)}
    (h : Hold size (.ok results) answer) :
    ∃ pages, answer = .ok pages ∧ pages.flatMap (·.results) = results ∧ FullPages size pages := by
  obtain ⟨pages, same, flat⟩ := map_eq_ok h.whole
  exact ⟨pages, same, flat, h.full pages same⟩

theorem hold_last (few : ∀ results, values = .ok results → results.length ≤ size) :
    Hold size values
      ((values.map fun results => ⟨results, none⟩).mapError .corruptRow >>= fun page =>
        .ok [page]) := by
  cases values with
  | error cause => exact ⟨rfl, fun _ none => nomatch none⟩
  | ok results =>
    refine ⟨?_, fun pages same => ?_⟩
    · exact congrArg Except.ok (List.append_nil results)
    · cases same
      exact .last (few results rfl)

theorem Hold.next {others : Except RowError (List Json)} {answer : Except Error (List MatchPage)}
    (h : Hold size others answer) (token : String)
    (full : ∀ results, values = .ok results → results.length = size) :
    Hold size (values >>= fun first => others.map (first ++ ·))
      ((values.map fun results => ⟨results, some token⟩).mapError .corruptRow >>= fun page =>
        answer.map (page :: ·)) := by
  cases values with
  | error cause => exact ⟨rfl, fun _ none => nomatch none⟩
  | ok first =>
    have whole := h.whole
    cases answer with
    | error cause =>
      refine ⟨?_, fun _ none => nomatch none⟩
      cases others with
      | error reason => exact whole
      | ok rest => cases whole
    | ok pages =>
      refine ⟨?_, fun _ same => ?_⟩
      · cases others with
        | error reason => cases whole
        | ok rest =>
          have same := Except.ok.inj whole
          exact congrArg Except.ok (congrArg (first ++ ·) same)
      · cases same
        exact .next (full first rfl) (h.full pages rfl)

end MatchPage

namespace Service

/-- A client that follows the tokens of a search inside a document, for so many rounds at most. -/
def followMatches {σ : Type} (s : Service σ) (name : TableName) (document : String) (base : Path)
    (filter : Filter) (fields : Option Projection) (size : Nat) :
    (rounds : Nat) → (token : Option String) → Access σ (List MatchPage)
  | 0, _ => pure []
  | rounds + 1, token => do
    let q ← Access.filter (MatchQuery.resuming base filter fields size token)
    let page ← s.engine.findMatches name document q
    match page.pageState with
    | none => pure [page]
    | some next => do
      let others ← s.followMatches name document base filter fields size rounds (some next)
      pure (page :: others)

variable {s : Service MemoryStore} {name : TableName} {document : String} {base : Path}
  {filter : Filter} {parent : Pattern} {fields : Option Projection} {size : Nat} {store : MemoryStore}

open MatchQuery (asking)

theorem reads_findAsking (memory : s.store = MemoryStore.rowStore)
    (legible : (store.table name).Legible s.config.maxDepth) (filled : filter ≠ [])
    (steps : ∀ c ∈ filter, c.pattern ≠ [] ∧ c.operators ≠ [])
    (shared : ∀ c ∈ filter, c.pattern.parent = parent) (after : Option Path) :
    (s.engine.findMatches name document (asking base filter parent fields size after)).Reads store
      (((asking base filter parent fields size after).page
        ((store.table name).cells document)).mapError .corruptRow) := by
  refine (Engine.reads_findMatches (e := s.engine) memory legible.ordered document _).congr ?_
  refine MatchQuery.answer_legible legible document (fun none => filled (List.map_eq_nil_iff.mp none))
    (MatchQuery.asking_parents (fun c hc => (steps c hc).1) shared) fun c hc => ?_
  obtain ⟨plain, there, rfl⟩ := List.mem_map.mp hc
  exact (steps plain there).2

theorem reads_followMatches (memory : s.store = MemoryStore.rowStore)
    (legible : (store.table name).Legible s.config.maxDepth) (filled : filter ≠ [])
    (steps : ∀ c ∈ filter, c.pattern ≠ [] ∧ c.operators ≠ [])
    (shared : ∀ c ∈ filter, c.pattern.parent = parent) (positive : 0 < size) (rounds : Nat)
    {after : Option Path} (valid : ∀ place ∈ after, place.Valid)
    (enough : ((asking base filter parent fields size after).remaining
      ((store.table name).cells document)).length < rounds) :
    ∃ answer, (s.followMatches name document base filter fields size rounds
        (after.map fun place => PageToken.encode place.dotted)).Reads store answer ∧
      MatchPage.Hold size (((asking base filter parent fields size after).remaining
        ((store.table name).cells document)).mapM
          (filter.placeValue base fields ((store.table name).cells document))) answer := by
  -- Each round leaves fewer places, for the next search goes on after the last of its page.
  induction rounds generalizing after with
  | zero => exact absurd enough (Nat.not_lt_zero _)
  | succ rounds ih =>
    have found : (s.engine.findMatches name document
        (asking base filter parent fields size after)).Reads store _ :=
      reads_findAsking memory legible filled steps shared after
    have resumed : MatchQuery.resuming base filter fields size (after.map fun place =>
        PageToken.encode place.dotted) = .ok (asking base filter parent fields size after) :=
      MatchQuery.resuming_asking filled (fun c hc => (steps c hc).1) shared valid
    have value : (asking base filter parent fields size after).result
        ((store.table name).cells document) =
          filter.placeValue base fields ((store.table name).cells document) :=
      funext MatchQuery.result_asking
    unfold followMatches
    rw [resumed]
    rcases MatchQuery.page_cases (asking base filter parent fields size after) positive
        ((store.table name).cells document) with
      ⟨few, all⟩ | ⟨first, last, rest, split, full, part⟩
    · rw [all, value] at found
      refine ⟨_, (Access.reads_ofExcept _).bind_ok (found.bind fun page there => ?_),
        MatchPage.hold_last fun results values => length_of_mapM_eq_ok values ▸ few⟩
      obtain ⟨results, _, rfl⟩ := map_eq_ok (mapError_eq_ok there)
      exact Access.reads_pure _
    · have valid : ∀ place ∈ some last, place.Valid := fun place same =>
        Option.some.inj same ▸ MatchQuery.valid_of_remaining filled legible split
      have rests := MatchQuery.remaining_resumed split
      have fewer : ((asking base filter parent fields size (some last)).remaining
          ((store.table name).cells document)).length < rounds := by
        rw [rests]
        rw [split, List.length_append, List.length_cons] at enough
        omega
      obtain ⟨answer, others, hold⟩ := ih valid fewer
      rw [rests] at hold
      rw [part, value] at found
      rw [split, List.append_cons, List.mapM_append]
      refine ⟨_, (Access.reads_ofExcept _).bind_ok (found.bind fun page there => ?_),
        hold.next (PageToken.encode last.dotted) fun results values => ?_⟩
      · obtain ⟨results, _, rfl⟩ := map_eq_ok (mapError_eq_ok there)
        exact others.bind fun _ _ => Access.reads_pure _
      · rw [length_of_mapM_eq_ok values, List.length_append]
        exact full

/-- A search inside a document for a filter that was read, page by page: the values of all places
below its base that have a leaf for each condition, in the order of their paths and each once. What
the store leaves out changes nothing, and all places have values unless writes of one time meet. -/
theorem matches_exact (s : Service MemoryStore) (memory : s.store = MemoryStore.rowStore)
    (writes : List WriteCall) (name : TableName) (document : String) (base : Path) (raw : String)
    (filter : Filter) (parsed : Filter.ofText s.config.maxDepth raw = .ok filter)
    (filled : filter ≠ []) (parent : Pattern)
    (shared : ∀ c ∈ filter, c.pattern.parent = parent) (fields : Option Projection) (size : Nat)
    (positive : 0 < size) :
    ∃ cells, ((s.after writes).live name document).mapM Row.decode = .ok cells ∧
      ∃ places : List Path, places.Pairwise (· < ·) ∧
        (∀ place, place ∈ places ↔ filter.IsPlace base cells place) ∧
        (∀ rounds, places.length < rounds →
          MatchPage.Hold size (places.mapM (filter.placeValue base fields cells))
            ((s.followMatches name document base filter fields size rounds none).run.run
              (s.after writes)).1) ∧
        (∀ token q, MatchQuery.resuming base filter fields size token = .ok q →
          ((s.engine.findMatches name document q).run.run (s.after writes)).1 =
            q.answer ((s.after writes).live name document)) ∧
        (DistinctTimes writes → ∃ values,
          places.mapM (filter.placeValue base fields cells) = .ok values) := by
  have legible := after_legible memory writes name
  have idle := (after_holds memory writes).idle
  have steps := Filter.ofText_ne_nil parsed
  have conditions : (asking base filter parent fields size none).conditions ≠ [] :=
    fun none => filled (List.map_eq_nil_iff.mp none)
  refine ⟨_, legible.decode_live document, (asking base filter parent fields size none).remaining
    (((s.after writes).table name).cells document), MatchQuery.remaining_ascending _ _,
    fun place => ?_, fun rounds enough => ?_, fun token q resumed => ?_, fun distinct => ?_⟩
  · rw [MatchQuery.mem_remaining conditions, MatchQuery.isPlace_iff]
    exact and_iff_left rfl
  · have start : ∀ place ∈ (none : Option Path), place.Valid := fun _ there => nomatch there
    obtain ⟨answer, followed, hold⟩ :=
      reads_followMatches memory legible filled steps shared positive rounds start enough
    have run := followed.answer_eq idle
    rw [Option.map_none] at run
    rw [run]
    exact hold
  · rw [(Engine.reads_findMatches (e := s.engine) memory legible.ordered document q).answer_eq idle]
    exact MatchQuery.answer_resuming legible document steps resumed
  · have consistent := (after_wellFormed memory distinct name).consistent document
    refine exists_mapM_eq_ok _ fun place _ => ?_
    obtain ⟨json, assembled⟩ :=
      Assembly.assemble_ok base none (consistent.filter (filter.selects base fields place))
    refine ⟨json.getD (.object []), ?_⟩
    rw [Filter.placeValue, assembled]
    rfl

def Sample.switches : List WriteCall :=
  [⟨⟨"", ""⟩, ⟨"k", "t"⟩, "d", [], Path.valid_root,
    .put "\x7b\"a\":\x7b\"on\":true,\"up\":true\x7d,\"b\":\x7b\"on\":true\x7d\x7d", 4⟩]

def Sample.switchCells : List Cell :=
  [⟨"d", [.field "a", .field "on"], .bool true, 4⟩, ⟨"d", [.field "a", .field "up"], .bool true, 4⟩,
    ⟨"d", [.field "b", .field "on"], .bool true, 4⟩]

def Sample.onAndUp : Filter :=
  [⟨[.wildcard, .exact (.field "on")], [.eq (.bool true)]⟩,
    ⟨[.wildcard, .exact (.field "up")], [.eq (.bool true)]⟩]

theorem matches_exact_switches :
    ∃ places : List Path, [.field "a"] ∈ places ∧ [.field "b"] ∉ places ∧ ∃ values,
      places.mapM (Sample.onAndUp.placeValue [] none Sample.switchCells) = .ok values ∧
        ∀ rounds, places.length < rounds → ∃ pages,
          ((sample.followMatches ⟨"k", "t"⟩ "d" [] Sample.onAndUp none 1 rounds none).run.run
            (sample.after Sample.switches)).1 = .ok pages ∧
          pages.flatMap (·.results) = values ∧ FullPages 1 pages := by
  obtain ⟨cells, decoded, places, _, isPlace, followed, _, haveValues⟩ :=
    matches_exact sample rfl Sample.switches ⟨"k", "t"⟩ "d" []
      "\x7b\"*.on\":\x7b\"$eq\":true\x7d,\"*.up\":\x7b\"$eq\":true\x7d\x7d" Sample.onAndUp
      (eq_ok_of_toOption (by decide +kernel)) (by decide) [.wildcard] (by decide) none 1 Nat.one_pos
  have read : ((sample.after Sample.switches).live ⟨"k", "t"⟩ "d").mapM Row.decode =
      .ok Sample.switchCells := eq_ok_of_toOption (by decide +kernel)
  cases decoded.symm.trans read
  obtain ⟨values, found⟩ := haveValues (.of_nodup (by decide))
  refine ⟨places, (isPlace _).mpr ?_, fun place => ?_, values, found, fun rounds enough => ?_⟩
  · unfold Filter.IsPlace
    decide
  · have each := (isPlace _).mp place
    unfold Filter.IsPlace at each
    exact absurd each (by decide)
  · have hold := followed rounds enough
    rw [found] at hold
    exact hold.pages

end Service

end LeafStore
