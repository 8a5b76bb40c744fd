/-!
Reading an ordered list page by page. A client asks for what comes after the last item that it was
given, and between its requests the list may change.
-/
namespace LeafStore

/-- A strict order of keys, as a test of whether one comes after another. -/
structure KeyOrder (κ : Type) where
  isAfter : κ → κ → Bool
  irrefl : ∀ key, isAfter key key = false
  trans : ∀ {a b c}, isAfter b a = true → isAfter c b = true → isAfter c a = true

namespace KeyOrder

variable {κ α : Type}

def ofLT [LT κ] [DecidableLT κ] (irrefl : ∀ key : κ, ¬ key < key)
    (trans : ∀ {a b c : κ}, a < b → b < c → a < c) : KeyOrder κ where
  isAfter key other := other < key
  irrefl key := decide_eq_false (irrefl key)
  trans ab bc := decide_eq_true (trans (of_decide_eq_true ab) (of_decide_eq_true bc))

/-- Items ascend by their keys, so no key is there twice. -/
def Ascends (order : KeyOrder κ) (key : α → κ) (items : List α) : Prop :=
  items.Pairwise fun a b => order.isAfter (key b) (key a) = true

theorem ascends_ofLT [LT κ] [DecidableLT κ] (irrefl : ∀ key : κ, ¬ key < key)
    (trans : ∀ {a b c : κ}, a < b → b < c → a < c) (key : α → κ) {items : List α} :
    (ofLT irrefl trans).Ascends key items ↔ items.Pairwise fun a b => key a < key b := by
  simp only [Ascends, ofLT, decide_eq_true_eq]

/-- The items that come after a key, or all of them. -/
def past (order : KeyOrder κ) (key : α → κ) (start : Option κ) (items : List α) : List α :=
  items.filter fun item => start.all (order.isAfter (key item))

variable {order : KeyOrder κ} {key : α → κ} {start : Option κ}

theorem asymm {a b : κ} (h : order.isAfter b a = true) : order.isAfter a b = false := by
  rw [Bool.eq_false_iff]
  intro back
  have itself := order.trans h back
  rw [order.irrefl] at itself
  cases itself

theorem all_trans {a b : κ} (past : start.all (order.isAfter a) = true)
    (later : order.isAfter b a = true) : start.all (order.isAfter b) = true := by
  cases start with
  | none => rfl
  | some key => exact order.trans past later

@[simp] theorem mem_past {items : List α} {item : α} : item ∈ order.past key start items ↔
    item ∈ items ∧ start.all (order.isAfter (key item)) = true := List.mem_filter

@[simp] theorem past_none (items : List α) : order.past key none items = items :=
  List.filter_eq_self.mpr fun _ _ => rfl

@[simp] theorem past_append (items others : List α) : order.past key start (items ++ others) =
    order.past key start items ++ order.past key start others := List.filter_append ..

theorem Ascends.past {items : List α} (h : order.Ascends key items) :
    order.Ascends key (order.past key start items) := h.filter _

theorem Ascends.nodup {items : List α} (h : order.Ascends key items) : items.Nodup :=
  h.imp fun after same => by
    rw [same, order.irrefl] at after
    cases after

theorem Ascends.ext {items others : List α} (h : order.Ascends key items)
    (h' : order.Ascends key others) (same : ∀ item, item ∈ items ↔ item ∈ others) :
    items = others := by
  have perm := (List.perm_ext_iff_of_nodup h.nodup h'.nodup).mpr same
  refine perm.eq_of_pairwise (fun a b _ _ after back => ?_) h h'
  rw [asymm after] at back
  cases back

section Page

variable {items first rest : List α} {last : α}

theorem mem_of_page (split : order.past key start items = first ++ last :: rest) :
    ∀ item ∈ first ++ [last], item ∈ items ∧ start.all (order.isAfter (key item)) = true := by
  intro item there
  refine mem_past.mp ?_
  rw [split, List.append_cons]
  exact List.mem_append_left _ there

theorem last_past (split : order.past key start items = first ++ last :: rest) :
    start.all (order.isAfter (key last)) = true :=
  (mem_of_page split last List.mem_concat_self).2

theorem Ascends.page (h : order.Ascends key items)
    (split : order.past key start items = first ++ last :: rest) :
    order.Ascends key (first ++ [last]) ∧
      ∀ given ∈ first ++ [last], ∀ item ∈ rest, order.isAfter (key item) (key given) = true := by
  have ascending : order.Ascends key (order.past key start items) := h.past
  rw [split, List.append_cons] at ascending
  obtain ⟨page, _, across⟩ := List.pairwise_append.mp ascending
  exact ⟨page, across⟩

theorem Ascends.past_page (h : order.Ascends key items)
    (split : order.past key start items = first ++ last :: rest) {other : κ}
    (later : order.isAfter other (key last) = true) :
    ∀ item ∈ first ++ [last], order.isAfter other (key item) = true := by
  intro item there
  rcases List.mem_append.mp there with there | there
  · obtain ⟨_, _, across⟩ := List.pairwise_append.mp (h.page split).1
    exact order.trans (across item there last (List.mem_singleton_self _)) later
  · rwa [List.mem_singleton.mp there]

/-- What comes after the last item of a page is what is left. -/
theorem Ascends.past_resumed (h : order.Ascends key items)
    (split : order.past key start items = first ++ last :: rest) :
    order.past key (some (key last)) items = rest := by
  have narrowed : order.past key (some (key last)) items =
      order.past key (some (key last)) (order.past key start items) := by
    rw [KeyOrder.past, KeyOrder.past, KeyOrder.past, List.filter_filter]
    refine List.filter_congr fun item _ => ?_
    cases later : order.isAfter (key item) (key last) with
    | false => simp [later]
    | true => simp [later, all_trans (last_past split) later]
  have page : order.past key (some (key last)) (first ++ [last]) = [] := by
    refine List.filter_eq_nil_iff.mpr fun item there later => ?_
    have back := h.past_page split later item there
    rw [order.irrefl] at back
    cases back
  have left : order.past key (some (key last)) rest = rest :=
    List.filter_eq_self.mpr fun item there => (h.page split).2 last List.mem_concat_self item there
  rw [narrowed, split, List.append_cons, past_append, page, left, List.nil_append]

end Page

end KeyOrder

/-- Requests for pages of an ordered list: what a request could be given if it were the first one,
what it is given, and the token that it is left with. -/
structure Feed (τ α κ : Type) where
  listing : τ → List α
  given : τ → List α
  token : τ → Option String
  key : α → κ
  order : KeyOrder κ

namespace Feed

variable {τ α κ : Type}

def Finished (feed : Feed τ α κ) (turns : List τ) : Prop :=
  ∃ turn, turns.getLast? = some turn ∧ feed.token turn = none

/-- What is left for a request that goes on from a key. -/
def left (feed : Feed τ α κ) (start : Option κ) (turn : τ) : List α :=
  feed.order.past feed.key start (feed.listing turn)

/-- The requests of a client that goes on from a key, each of the list that it finds. -/
inductive Run (feed : Feed τ α κ) (size : Nat) : Option κ → List τ → Prop where
  | stopped (start : Option κ) : Run feed size start []
  | last {start : Option κ} {turn : τ} (ascends : feed.order.Ascends feed.key (feed.listing turn))
    (few : (feed.left start turn).length ≤ size) (given : feed.given turn = feed.left start turn)
    (ended : feed.token turn = none) : Run feed size start [turn]
  | next {start : Option κ} {turn : τ} {first rest : List α} {last : α} {turns : List τ}
    (ascends : feed.order.Ascends feed.key (feed.listing turn))
    (split : feed.left start turn = first ++ last :: rest) (more : rest ≠ [])
    (full : first.length + 1 = size) (given : feed.given turn = first ++ [last])
    (goesOn : feed.token turn ≠ none) (others : Run feed size (some (feed.key last)) turns) :
    Run feed size start (turn :: turns)

variable {feed : Feed τ α κ} {size : Nat} {start : Option κ} {turns : List τ}

theorem not_finished_nil : ¬ feed.Finished [] := by
  rintro ⟨_, none, _⟩
  cases none

theorem finished_cons (feed : Feed τ α κ) {turn : τ} (more : feed.token turn ≠ none) :
    feed.Finished (turn :: turns) ↔ feed.Finished turns := by
  unfold Finished
  cases turns with
  | nil => simpa using more
  | cons next rest => rw [List.getLast?_cons_cons]

namespace Run

theorem short (h : feed.Run size start turns) : ∀ turn ∈ turns, (feed.given turn).length ≤ size := by
  induction h with
  | stopped _ => exact List.forall_mem_nil _
  | last _ few given _ => exact List.forall_mem_singleton.mpr (given ▸ few)
  | next _ _ _ full given _ _ ih =>
    refine List.forall_mem_cons.mpr ⟨Nat.le_of_eq ?_, ih⟩
    rw [given, List.length_append, List.length_singleton, full]

theorem listed (h : feed.Run size start turns) :
    ∀ turn ∈ turns, ∀ item ∈ feed.given turn, item ∈ feed.listing turn := by
  induction h with
  | stopped _ => exact List.forall_mem_nil _
  | last _ _ given _ =>
    exact List.forall_mem_singleton.mpr fun item there => (KeyOrder.mem_past.mp (given ▸ there)).1
  | next _ split _ _ given _ _ ih =>
    refine List.forall_mem_cons.mpr ⟨fun item there => ?_, ih⟩
    exact (KeyOrder.mem_of_page split item (given ▸ there)).1

/-- No key is given twice, and none that the client has passed. -/
theorem ascends (h : feed.Run size start turns) :
    feed.order.Ascends feed.key (turns.flatMap feed.given) ∧
      ∀ item ∈ turns.flatMap feed.given, start.all (feed.order.isAfter (feed.key item)) = true := by
  induction h with
  | stopped _ => exact ⟨.nil, List.forall_mem_nil _⟩
  | last ascends _ given _ =>
    rw [List.flatMap_singleton, given]
    exact ⟨ascends.past, fun item there => (KeyOrder.mem_past.mp there).2⟩
  | next ascends split _ _ given _ _ ih =>
    obtain ⟨sorted, later⟩ := ih
    rw [List.flatMap_cons, given]
    refine ⟨List.pairwise_append.mpr ⟨(ascends.page split).1, sorted, ?_⟩, ?_⟩
    · exact fun a ha b hb => ascends.past_page split (later b hb) a ha
    · intro item there
      rcases List.mem_append.mp there with there | there
      · exact (KeyOrder.mem_of_page split item there).2
      · exact KeyOrder.all_trans (KeyOrder.last_past split) (later item there)

/-- A client that is not stopped early is given an item of each key that every request could have been
given one of. -/
theorem complete (h : feed.Run size start turns) (finished : feed.Finished turns) {wanted : κ}
    {P : α → Prop} (named : ∀ item, P item → feed.key item = wanted)
    (past : start.all (feed.order.isAfter wanted) = true)
    (there : ∀ turn ∈ turns, ∃ item ∈ feed.listing turn, P item) :
    ∃ item ∈ turns.flatMap feed.given, P item := by
  induction h with
  | stopped _ => exact absurd finished not_finished_nil
  | last _ _ given _ =>
    obtain ⟨item, listed, holds⟩ := there _ (List.mem_cons_self ..)
    rw [List.flatMap_singleton, given]
    exact ⟨item, KeyOrder.mem_past.mpr ⟨listed, (named item holds).symm ▸ past⟩, holds⟩
  | @next start turn first rest last turns ascends split _ _ given more _ ih =>
    obtain ⟨here, others⟩ := List.forall_mem_cons.mp there
    obtain ⟨item, listed, holds⟩ := here
    have found : item ∈ feed.left start turn :=
      KeyOrder.mem_past.mpr ⟨listed, (named item holds).symm ▸ past⟩
    rw [split, List.append_cons] at found
    rw [List.flatMap_cons, given]
    -- What this page does not hold lies past its last item, where the other pages start.
    rcases List.mem_append.mp found with found | found
    · exact ⟨item, List.mem_append_left _ found, holds⟩
    · have behind := (ascends.page split).2 last List.mem_concat_self item found
      rw [named item holds] at behind
      obtain ⟨other, later, same⟩ := ih ((finished_cons feed more).mp finished) behind others
      exact ⟨other, List.mem_append_right _ later, same⟩

/-- A request is left with a token exactly when an item is left for a later one. -/
theorem token_iff (h : feed.Run size start turns) {front back : List τ} {turn : τ}
    (split : turns = front ++ turn :: back) :
    (feed.token turn).isSome = true ↔ ∃ item ∈ feed.listing turn,
      start.all (feed.order.isAfter (feed.key item)) = true ∧
        ∀ given ∈ (front ++ [turn]).flatMap feed.given,
          feed.order.isAfter (feed.key item) (feed.key given) = true := by
  induction h generalizing front with
  | stopped _ => simp at split
  | @last start turn' _ _ given ended =>
    cases front with
    | nil =>
      obtain ⟨rfl, rfl⟩ := List.cons.inj split
      simp only [ended, Option.isSome_none, Bool.false_eq_true, false_iff]
      rintro ⟨item, there, past, beyond⟩
      -- Without a token nothing is left, so the item is on this page and would come after itself.
      have itself := beyond item (by simpa [given, left] using ⟨there, past⟩)
      rw [feed.order.irrefl] at itself
      cases itself
    | cons other front => simp at split
  | @next start turn' first rest last turns ascends cut more _ given goesOn _ ih =>
    cases front with
    | nil =>
      obtain ⟨rfl, rfl⟩ := List.cons.inj split
      obtain ⟨item, there⟩ := List.exists_mem_of_ne_nil _ more
      have found : item ∈ feed.left start turn' := by simp [cut, there]
      obtain ⟨listed, past⟩ := KeyOrder.mem_past.mp found
      have before := (ascends.page cut).2
      refine iff_of_true (Option.isSome_iff_ne_none.mpr goesOn) ⟨item, listed, past, ?_⟩
      exact fun shown hs => before shown (by simpa [given] using hs) item there
    | cons other front =>
      obtain ⟨rfl, tail⟩ := List.cons.inj split
      refine (ih tail).trans (exists_congr fun item => and_congr_right fun _ => ?_)
      rw [List.cons_append, List.flatMap_cons, given, List.forall_mem_append]
      constructor
      · rintro ⟨behind, others⟩
        have past := KeyOrder.all_trans (KeyOrder.last_past cut) behind
        exact ⟨past, ascends.past_page cut behind, others⟩
      · rintro ⟨_, here, others⟩
        exact ⟨here last List.mem_concat_self, others⟩

/-- While the list stays as it is the pages are parts of it, and in the end all that is left of it. -/
theorem steady (h : feed.Run size start turns) {all : List α}
    (same : ∀ turn ∈ turns, feed.listing turn = all) :
    turns.flatMap feed.given <+: feed.order.past feed.key start all ∧
      (feed.Finished turns → turns.flatMap feed.given = feed.order.past feed.key start all) ∧
      (feed.Finished turns ∨ turns.length ≤ (feed.order.past feed.key start all).length) := by
  induction h with
  | stopped _ =>
    exact ⟨List.nil_prefix, fun finished => absurd finished not_finished_nil, .inr (Nat.zero_le _)⟩
  | @last start turn _ _ given ended =>
    obtain rfl := same turn (List.mem_cons_self ..)
    rw [List.flatMap_singleton, given]
    exact ⟨List.prefix_refl _, fun _ => rfl, .inl ⟨turn, rfl, ended⟩⟩
  | @next start turn first rest last turns ascends split _ _ given goesOn _ ih =>
    obtain ⟨here, others⟩ := List.forall_mem_cons.mp same
    subst here
    obtain ⟨part, all, few⟩ := ih others
    rw [ascends.past_resumed split] at part all few
    have joined : feed.order.past feed.key start (feed.listing turn) = (first ++ [last]) ++ rest :=
      split.trans (List.append_cons ..)
    rw [List.flatMap_cons, finished_cons feed goesOn, given, joined]
    refine ⟨(List.prefix_append_right_inj _).mpr part, fun finished => ?_, few.imp_right fun few => ?_⟩
    · rw [all finished]
    · simp only [List.length_append, List.length_cons, List.length_nil]
      omega

end Run

end Feed

end LeafStore
