import LeafStore.Matches
import LeafStore.Proofs.Reads
import LeafStore.Proofs.Results
/-!
What the engine asks of a store. Each of its statements names a document and leading columns of its
rows, or it allows that rows are read which do not match; and it goes on only from where the store said
that a page ended. So reading keeps whatever granting such requests keeps.
-/
namespace LeafStore

def Select.Granted (s : Select) : Prop := s.allowFiltering = true ∨ s.Keyed

theorem Select.Granted.accepted {s : Select} (h : s.Granted) : Engine.Accepted s := by
  rcases h with allowed | keyed
  · exact Engine.accepted_of_allowed allowed
  · simp [Engine.Accepted, keyed.needsFiltering]

theorem Select.Granted.paged {s : Select} (h : s.Granted) (size : Option Nat)
    (resume : Option String) : { s with pageSize := size, paging := resume : Select }.Granted :=
  h.imp id fun keyed => ⟨keyed.document, keyed.columns, keyed.leaf, keyed.value⟩

/-- A store that is asked for granted statements, each from the start or from a token that it handed
out, keeps to an invariant. Its faults are among certain errors, and so are rows that cannot be read. -/
structure RowStore.Serves {σ : Type} (store : RowStore σ) (holds : σ → Prop)
    (handed : String → Prop) (blame : Error → Prop) : Prop where
  keeps : ∀ name q state, holds state → q.Granted → (∀ token ∈ q.paging, handed token) →
    holds (store.select name q state).2
  hands : ∀ name q state, holds state → q.Granted → (∀ token ∈ q.paging, handed token) →
    ∀ page, (store.select name q state).1 = .ok page → ∀ token ∈ page.paging, handed token
  fails : ∀ name q state, holds state → q.Granted → (∀ token ∈ q.paging, handed token) →
    ∀ cause, (store.select name q state).1 = .error cause → blame (.storeUnavailable cause)
  corrupt : ∀ cause, blame (.corruptRow cause)

namespace Access

variable {σ α β : Type} {holds : σ → Prop} {blame : Error → Prop}

/-- A computation that keeps an invariant of the store and fails only with certain errors. -/
structure Within (holds : σ → Prop) (blame : Error → Prop) (x : Access σ α) : Prop where
  keeps : ∀ state, holds state → holds (x.run.run state).2
  fails : ∀ state cause, holds state → (x.run.run state).1 = .error cause → blame cause

theorem within_pure (a : α) : Within holds blame (pure a : Access σ α) :=
  ⟨fun _ held => held, fun _ _ _ failed => by cases failed⟩

theorem within_get : Within holds blame (get : Access σ σ) :=
  ⟨fun _ held => held, fun _ _ _ failed => by cases failed⟩

theorem within_ofExcept {x : Except Error α} (blamed : ∀ cause, x = .error cause → blame cause) :
    Within holds blame (ofExcept x : Access σ α) :=
  ⟨fun _ held => held, fun _ cause _ failed => blamed cause failed⟩

theorem within_row (corrupt : ∀ cause, blame (.corruptRow cause)) (x : Except RowError α) :
    Within holds blame (row x : Access σ α) := by
  refine within_ofExcept fun cause failed => ?_
  obtain ⟨blame, -, rfl⟩ := mapError_eq_error failed
  exact corrupt blame

theorem within_call {request : σ → Except StoreError α × σ}
    (keeps : ∀ state, holds state → holds (request state).2)
    (fails : ∀ state, holds state → ∀ cause, (request state).1 = .error cause →
      blame (.storeUnavailable cause)) : Within holds blame (call request) := by
  refine ⟨keeps, fun state cause held failed => ?_⟩
  obtain ⟨blame, refused, rfl⟩ := mapError_eq_error
    (show (request state).1.mapError Error.storeUnavailable = .error cause from failed)
  exact fails state held blame refused

theorem Within.bind_of {x : Access σ α} {f : α → Access σ β} (hx : Within holds blame x)
    {known : α → Prop}
    (values : ∀ state a, holds state → (x.run.run state).1 = .ok a → known a)
    (hf : ∀ a, known a → Within holds blame (f a)) : Within holds blame (x >>= f) := by
  constructor
  · intro state held
    -- What is known of the run of `x` is said before its outcome is taken apart.
    have first := hx.keeps state held
    have value := fun a => values state a held
    rw [run_bind]
    generalize x.run.run state = outcome at first value ⊢
    rcases outcome with ⟨cause | a, next⟩
    · exact first
    · exact (hf a (value a rfl)).keeps next first
  · intro state cause held failed
    have first := hx.keeps state held
    have passed := hx.fails state cause held
    have value := fun a => values state a held
    rw [run_bind] at failed
    generalize x.run.run state = outcome at first passed value failed
    rcases outcome with ⟨other | a, next⟩
    · have same : (Except.error other : Except Error β) = .error cause := failed
      cases same
      exact passed rfl
    · exact (hf a (value a rfl)).fails next cause first failed

theorem Within.bind {x : Access σ α} {f : α → Access σ β} (hx : Within holds blame x)
    (hf : ∀ a, Within holds blame (f a)) : Within holds blame (x >>= f) :=
  hx.bind_of (fun _ _ _ _ => trivial) fun a _ => hf a

theorem Within.map {x : Access σ α} (hx : Within holds blame x) (f : α → β) :
    Within holds blame (f <$> x) := by
  rw [map_eq_pure_bind]
  exact hx.bind fun a => within_pure (f a)

theorem within_mapM {f : α → Access σ β} {items : List α}
    (each : ∀ item ∈ items, Within holds blame (f item)) : Within holds blame (items.mapM f) := by
  induction items with
  | nil => exact within_pure _
  | cons item rest ih =>
    obtain ⟨here, others⟩ := List.forall_mem_cons.mp each
    rw [List.mapM_cons]
    exact here.bind fun b => (ih others).bind fun found => within_pure _

end Access

namespace MatchQuery

theorem narrow_granted (c : Condition) {s : Select} (granted : s.Granted) :
    (narrow c s).Granted := by
  unfold narrow
  cases c.pattern.lastColumn? <;> cases c.pushdown?
  · exact granted
  all_goals exact .inl rfl

theorem select_granted (q : MatchQuery) (document : String) : (q.select document).Granted := by
  have plain : ((Select.ofDocument document).below q.parent.fixedPart).Granted :=
    .inr (Select.keyed_below document _)
  unfold select
  split
  · exact narrow_granted _ plain
  · exact plain

end MatchQuery

theorem Filter.candidateSelects_granted (maxDepth : Nat) (f : Filter) :
    ∀ s ∈ f.candidateSelects maxDepth, s.Granted := by
  intro s there
  obtain ⟨c, -, found⟩ := List.mem_filterMap.mp there
  obtain ⟨p, -, rfl⟩ := Option.map_eq_some_iff.mp found
  exact .inl rfl

namespace Engine

open Access (Within within_pure within_row within_get within_call within_mapM)

variable {σ : Type} {holds : σ → Prop} {handed : String → Prop} {blame : Error → Prop}
  {e : Engine σ} {name : TableName}

/-- A page is read, and the computation goes on with the token that came with it. -/
theorem within_readPage (serves : e.store.Serves holds handed blame) {s : Select}
    (granted : s.Granted) {resume : Option String} (start : ∀ token ∈ resume, handed token)
    {α : Type} {f : Table.Page → Access σ α}
    (next : ∀ page, (∀ token ∈ page.paging, handed token) → Within holds blame (f page)) :
    Within holds blame (e.readPage name s resume >>= f) := by
  have paged := granted.paged (some e.config.storePageSize) resume
  have asked : Within holds blame (e.readPage name s resume) :=
    within_call (fun state held => serves.keeps name _ state held paged start)
      fun state held => serves.fails name _ state held paged start
  refine asked.bind_of (fun state page held ok => ?_) next
  exact serves.hands name _ state held paged start page
    (mapError_eq_ok (show Except.mapError _ _ = _ from ok))

theorem within_readPages (serves : e.store.Serves holds handed blame) {s : Select}
    (granted : s.Granted) (pages : Nat) {resume : Option String}
    (start : ∀ token ∈ resume, handed token) :
    Within holds blame (e.readPages name s pages resume) := by
  induction pages generalizing resume with
  | zero => exact within_pure _
  | succ pages ih =>
    refine within_readPage serves granted start fun page tokens => ?_
    split
    · exact within_pure _
    · rename_i token more
      exact (ih (more ▸ tokens)).bind fun rest => within_pure _

theorem within_readAll (serves : e.store.Serves holds handed blame) {s : Select}
    (granted : s.Granted) : Within holds blame (e.readAll name s) :=
  within_get.bind fun _ => within_readPages serves granted _ fun _ none => by cases none

theorem within_documentRows (serves : e.store.Serves holds handed blame) (document : String)
    (path : Path) : Within holds blame (e.documentRows name document path) :=
  within_readAll serves (.inr (Select.keyed_below document path))

theorem within_findMatches (serves : e.store.Serves holds handed blame) (document : String)
    (q : MatchQuery) : Within holds blame (e.findMatches name document q) :=
  (within_readAll serves (q.select_granted document)).bind fun _ =>
    (within_row serves.corrupt _).bind fun _ => within_row serves.corrupt _

theorem within_scanPages (serves : e.store.Serves holds handed blame) (q : Query) (pages : Nat)
    {resume : Option String} (start : ∀ token ∈ resume, handed token) (scan : Scan) :
    Within holds blame (e.scanPages name q pages resume scan) := by
  induction pages generalizing resume scan with
  | zero => exact within_pure _
  | succ pages ih =>
    refine within_readPage serves (.inl rfl) start fun page tokens => ?_
    refine (within_row serves.corrupt _).bind fun scan => ?_
    split
    · exact within_pure _
    · split
      · exact within_pure _
      · rename_i token more
        exact ih (more ▸ tokens) scan

theorem within_checkCandidates (serves : e.store.Serves holds handed blame) (q : Query)
    (documents : List String) (found : Found) :
    Within holds blame (e.checkCandidates name q documents found) := by
  induction documents generalizing found with
  | nil => exact within_pure _
  | cons document rest ih =>
    refine (within_documentRows serves document _).bind fun rows => ?_
    refine (within_row serves.corrupt _).bind fun cells => ?_
    refine (within_row serves.corrupt _).bind fun found => ?_
    split
    · exact within_pure _
    · exact ih found

theorem within_fullScan (serves : e.store.Serves holds handed blame) (q : Query) :
    Within holds blame (e.fullScan name q) :=
  within_get.bind fun state =>
    (within_scanPages serves q (e.store.pageBound name state) (fun _ there => by cases there) {}).bind
      fun scan => within_row serves.corrupt (scan.finish q)

theorem within_candidateSearch (serves : e.store.Serves holds handed blame) (q : Query) :
    Within holds blame (e.candidateSearch name q) := by
  have each : ∀ s ∈ q.filter.candidateSelects e.config.maxDepth,
      Within holds blame (e.candidates name s) := fun s there =>
    (within_readAll serves (q.filter.candidateSelects_granted _ s there)).bind fun _ =>
      within_pure _
  exact (within_mapM each).bind fun _ => within_checkCandidates serves q _ _

theorem within_search (serves : e.store.Serves holds handed blame) (q : Query) :
    Within holds blame (e.search name q) := by
  unfold search
  split
  · exact (within_fullScan serves q).bind fun _ => within_pure _
  · exact (within_candidateSearch serves q).bind fun _ => within_pure _

end Engine

end LeafStore
