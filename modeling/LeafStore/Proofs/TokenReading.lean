import LeafStore.Proofs.Histories
import LeafStore.Proofs.PageTokens
/-!
Requests that go on from a token. Keys and tokens correspond one to one, up to the padding behind a
token; a search or a filtered read that is given any other text is refused as one with a bad filter,
before the store is asked.
-/
namespace LeafStore

open PageToken (encode decode padded withoutPadding)

theorem Query.readToken_eq_ok_iff (token key : String) :
    readToken token = .ok key ↔ ∃ padding, token = padded (encode key) padding := by
  rw [← PageToken.decode_eq_ok_iff, readToken]
  cases decode token <;> simp

theorem Query.readToken_eq_error {token : String}
    (foreign : ∀ key padding, token ≠ padded (encode key) padding) :
    ∃ cause, readToken token = .error (.token cause) := by
  cases read : decode token with
  | error cause => exact ⟨cause, by rw [readToken, read]; rfl⟩
  | ok key =>
    obtain ⟨padding, same⟩ := (PageToken.decode_eq_ok_iff token key).mp read
    exact absurd same (foreign key padding)

theorem MatchQuery.readToken_eq_error {token : String}
    (foreign : ∀ key padding place, token = padded (encode key) padding →
      Path.ofDotted key ≠ .ok place) :
    ∃ cause, readToken token = .error (.token cause) := by
  by_cases known : ∃ key padding, token = padded (encode key) padding
  · obtain ⟨key, padding, same⟩ := known
    have read := (Query.readToken_eq_ok_iff token key).mpr ⟨padding, same⟩
    cases path : Path.ofDotted key with
    | ok place => exact absurd path (foreign key padding place same)
    | error cause =>
      exact ⟨.path cause, by simp [readToken, read, path]⟩
  · obtain ⟨cause, refused⟩ := Query.readToken_eq_error fun key padding same =>
      known ⟨key, padding, same⟩
    exact ⟨cause, by simp [readToken, refused]⟩

namespace Error

variable {α β : Type}

/-- What is wrong, if anything, is a filter, a list of fields or a token. -/
def BlamesFilter (answer : Except Error α) : Prop :=
  ∀ error, answer = .error error → ∃ cause, error = .invalidFilter cause

def RefusesFilter (answer : Except Error α) : Prop :=
  ∃ cause, answer = .error (.invalidFilter cause)

theorem blamesFilter_mapError {result : Except FilterError α} :
    BlamesFilter (result.mapError .invalidFilter) := by
  intro error failed
  obtain ⟨cause, _, rfl⟩ := mapError_eq_error failed
  exact ⟨cause, rfl⟩

theorem BlamesFilter.refuses {x : Except Error α} {f : α → Except Error β} (first : BlamesFilter x)
    (rest : ∀ a, x = .ok a → RefusesFilter (f a)) : RefusesFilter (x >>= f) := by
  cases x with
  | ok a => exact rest a rfl
  | error error =>
    obtain ⟨cause, rfl⟩ := first error rfl
    exact ⟨cause, rfl⟩

end Error

open Error (BlamesFilter RefusesFilter blamesFilter_mapError)

namespace Service

variable {σ : Type} (s : Service σ) (subject : Subject) (table : TableName)

theorem readFilter_blames (raw : Option String) : BlamesFilter (s.readFilter raw) := by
  intro error failed
  cases raw with
  | none => cases failed
  | some raw =>
    simp only [readFilter, Option.mapM_some] at failed
    obtain failed | ⟨_, _, failed⟩ := bind_eq_error failed
    · exact blamesFilter_mapError error failed
    · cases failed

theorem readFields_blames (raw : Option String) : BlamesFilter (readFields raw) := by
  intro error failed
  cases raw with
  | none => cases failed
  | some raw => exact blamesFilter_mapError error failed

theorem prepareSearch_refuses {request : SearchRequest} {token : String}
    (allowed : s.checkRead subject table = .ok ()) (given : request.pageState = some token)
    (foreign : ∀ key padding, token ≠ padded (encode key) padding) :
    RefusesFilter (s.prepareSearch subject table request) := by
  rw [prepareSearch, allowed]
  apply (s.readFilter_blames _).refuses
  intro filter _
  apply (readFields_blames _).refuses
  intro fields _
  obtain ⟨cause, refused⟩ := Query.readToken_eq_error foreign
  exact ⟨.token cause, by simp [Query.resuming, given, refused]⟩

theorem prepareRead_refuses {document : String} {request : ReadRequest} {token raw : String}
    (allowed : s.checkRead subject table = .ok ()) (named : checkDocument document = .ok ())
    (fits : request.path.checkDepth s.config.maxDepth = .ok ())
    (filtered : request.filter = some raw) (asks : Filter.ofText s.config.maxDepth raw ≠ .ok [])
    (given : request.pageState = some token)
    (foreign : ∀ key padding place, token = padded (encode key) padding →
      Path.ofDotted key ≠ .ok place) :
    RefusesFilter (s.prepareRead subject table document request) := by
  rw [prepareRead, allowed, named, fits]
  apply (s.readFilter_blames _).refuses
  intro filter read
  apply (readFields_blames _).refuses
  intro fields _
  simp only [readFilter, filtered, Option.mapM_some] at read
  obtain ⟨conditions, found, same⟩ := bind_eq_ok read
  cases same
  have parsed := mapError_eq_ok found
  obtain ⟨cause, refused⟩ := MatchQuery.readToken_eq_error foreign
  cases conditions with
  | nil => exact absurd parsed asks
  | cons condition others =>
    refine ⟨.token cause, ?_⟩
    simp [planRead, MatchQuery.resuming, given, refused]

end Service

/-- Keys and tokens correspond one to one: a key is read back from its token, and a text is read as
a key exactly if it is the token of that key with padding behind it. So two keys have two tokens,
and taking the padding off gives the token of the key. A token needs no escape in an address, and
any other text is refused: a search that goes on from it fails as one with a bad filter, and so does
a filtered read that goes on from a text that is not the token of a place. Neither asks the store.
-/
theorem PageToken.keys_and_tokens :
    (∀ key, decode (encode key) = .ok key) ∧
    (∀ token key, decode token = .ok key →
      encode key = String.ofList (withoutPadding token)) ∧
    (∀ token key, decode token = .ok key ↔ ∃ padding, token = padded (encode key) padding) ∧
    (∀ key other, encode key = encode other → key = other) ∧
    (∀ key, ∀ c ∈ (encode key).toList, c.isAlphanum = true ∨ c = '-' ∨ c = '_') ∧
    (∀ (σ : Type) (s : Service σ) subject table (request : SearchRequest) token,
      s.checkRead subject table = .ok () → request.pageState = some token →
      (∀ key padding, token ≠ padded (encode key) padding) →
      ∃ cause, ∀ state, (s.search subject table request).run.run state =
        (.error (.invalidFilter cause), state)) ∧
    ∀ (σ : Type) (s : Service σ) subject table document (request : ReadRequest) raw token,
      s.checkRead subject table = .ok () → Service.checkDocument document = .ok () →
      request.path.checkDepth s.config.maxDepth = .ok () → request.filter = some raw →
      Filter.ofText s.config.maxDepth raw ≠ .ok [] → request.pageState = some token →
      (∀ key padding place, token = padded (encode key) padding →
        Path.ofDotted key ≠ .ok place) →
      ∃ cause, ∀ state, (s.get subject table document request).run.run state =
        (.error (.invalidFilter cause), state) := by
  refine ⟨decode_encode, fun _ _ => encode_of_decode, decode_eq_ok_iff, fun _ _ => encode_inj.mp,
    safe_encode, ?_, ?_⟩
  · intro σ s subject table request token allowed given foreign
    obtain ⟨cause, refused⟩ := s.prepareSearch_refuses subject table allowed given foreign
    refine ⟨cause, fun state => ?_⟩
    rw [Service.search, Access.run_bind, refused]
    rfl
  · intro σ s subject table document request raw token allowed named fits filtered asks given
      foreign
    obtain ⟨cause, refused⟩ :=
      s.prepareRead_refuses subject table allowed named fits filtered asks given foreign
    refine ⟨cause, fun state => ?_⟩
    rw [Service.get, Access.run_bind, refused]
    rfl

/-- Bits are left over in the first of these tokens, and the second one names no place. -/
theorem PageToken.keys_and_tokens_leftover :
    decode "YQ==" = .ok "a" ∧ encode "a" = "YQ" ∧
    (∃ cause, ∀ state, (Service.sample.search ⟨"", ""⟩ ⟨"k", "t"⟩
      { pageState := some "YR" }).run.run state = (.error (.invalidFilter cause), state)) ∧
    ∃ cause, ∀ state, (Service.sample.get ⟨"", ""⟩ ⟨"k", "t"⟩ "d"
      { filter := some "\x7b\"a\":\x7b\"$eq\":1\x7d\x7d", pageState := some "Ww" }).run.run state =
        (.error (.invalidFilter cause), state) := by
  obtain ⟨_, stripped, tokens, _, _, search, get⟩ := keys_and_tokens
  have read : decode "YQ==" = .ok "a" := by rfl
  refine ⟨read, stripped _ _ read, ?_, ?_⟩
  · refine search _ Service.sample ⟨"", ""⟩ ⟨"k", "t"⟩ _ "YR" rfl rfl fun key padding same => ?_
    have known := (tokens "YR" key).mpr ⟨padding, same⟩
    exact absurd known (by rw [show decode "YR" = .error .malformed from rfl]; simp)
  · refine get _ Service.sample ⟨"", ""⟩ ⟨"k", "t"⟩ "d" _ _ "Ww" rfl rfl rfl rfl ?_ rfl ?_
    · intro none
      have some : ((Filter.ofText 3 "\x7b\"a\":\x7b\"$eq\":1\x7d\x7d").map List.length).toOption =
          some 1 := by decide +kernel
      rw [show Filter.ofText 3 _ = _ from none] at some
      exact absurd some (by decide)
    · intro key padding place same
      have known := (tokens "Ww" key).mpr ⟨padding, same⟩
      rw [show decode "Ww" = .ok "[" from rfl] at known
      cases known
      rw [show Path.ofDotted "[" = .error (.malformedIndex "[") from rfl]
      simp

end LeafStore
