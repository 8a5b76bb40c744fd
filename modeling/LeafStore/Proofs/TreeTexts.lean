import LeafStore.Proofs.Scanning
/-!
Texts of trees. Strict reading of a text, which holds the containers still open, comes to what a
plain recursion over the tree finds wrong with it.
-/
namespace LeafStore.Json

namespace Tree

mutual

def tokens : Tree → List Token
  | .null => [.null]
  | .bool b => [.bool b]
  | .number numeral => [.number numeral]
  | .text s => [.text s true]
  | .array [] => [.openArray, .closeArray]
  | .array (item :: rest) => .openArray :: item.tokens ++ itemTokens rest
  | .object [] => [.openObject, .closeObject]
  | .object ((name, member) :: rest) =>
    .openObject :: .text name true :: .colon :: member.tokens ++ memberTokens rest

def itemTokens : List Tree → List Token
  | [] => [.closeArray]
  | item :: rest => .comma :: item.tokens ++ itemTokens rest

def memberTokens : List (String × Tree) → List Token
  | [] => [.closeObject]
  | (name, member) :: rest =>
    .comma :: .text name true :: .colon :: member.tokens ++ memberTokens rest

end

/-- The text spells the tree, with any blanks and any escapes. -/
def Written (tree : Tree) (text : String) : Prop := Spelled text.toList tree.tokens

/-! The tokens of a tree never put two words side by side. -/

def Free (tokens : List Token) : Prop :=
  (∀ token ∈ tokens.head?, token.isWord = false) ∧ tokens.IsChain Apart

theorem free_cons (token : Token) {rest : List Token} (mark : token.isWord = false)
    (apart : rest.IsChain Apart) : Free (token :: rest) := by
  refine ⟨fun first same => ?_, List.isChain_cons.mpr ⟨fun next _ word => ?_, apart⟩⟩
  · cases same
    exact mark
  · rw [mark] at word
    cases word

theorem apart_word (token : Token) {rest : List Token} (free : Free rest) :
    (token :: rest).IsChain Apart :=
  List.isChain_cons.mpr ⟨fun next first _ => free.1 next first, free.2⟩

mutual

theorem apart_tokens : ∀ (tree : Tree) {rest : List Token}, Free rest →
    (tree.tokens ++ rest).IsChain Apart
  | .null, _, free | .bool _, _, free | .number _, _, free | .text _, _, free =>
    apart_word _ free
  | .array [], _, free => (free_cons _ rfl (free_cons _ rfl free.2).2).2
  | .array (item :: rest), _, free => by
    have items := free_itemTokens rest free
    simpa [tokens] using (free_cons .openArray rfl (apart_tokens item items)).2
  | .object [], _, free => (free_cons _ rfl (free_cons _ rfl free.2).2).2
  | .object ((name, member) :: rest), _, free => by
    have value := apart_tokens member (free_memberTokens rest free)
    have colon := free_cons .colon rfl value
    have text := free_cons (.text name true) rfl colon.2
    simpa [tokens] using (free_cons .openObject rfl text.2).2

theorem free_itemTokens : ∀ (items : List Tree) {rest : List Token}, Free rest →
    Free (itemTokens items ++ rest)
  | [], _, free => free_cons _ rfl free.2
  | item :: items, _, free => by
    have others := free_itemTokens items free
    simpa [itemTokens] using free_cons .comma rfl (apart_tokens item others)

theorem free_memberTokens : ∀ (members : List (String × Tree)) {rest : List Token}, Free rest →
    Free (memberTokens members ++ rest)
  | [], _, free => free_cons _ rfl free.2
  | (name, member) :: members, _, free => by
    have value := apart_tokens member (free_memberTokens members free)
    have colon := free_cons .colon rfl value
    have text := free_cons (.text name true) rfl colon.2
    simpa [memberTokens] using free_cons .comma rfl text.2

end

theorem ofText_tokens {tree : Tree} {text : String} (written : tree.Written text)
    (policy : Policy) :
    Tree.ofText policy text =
      (Reading.take policy (.awaitValue []) tree.tokens).bind Stage.result := by
  have nothing : Free [] := ⟨by simp, List.IsChain.nil⟩
  have apart : tree.tokens.IsChain Apart := by simpa using apart_tokens tree nothing
  exact Reading.outcome_spelled written apart _

/-! What strict reading asks of a tree. -/

mutual

/-- Check a tree inside `outer` containers. -/
def check (outer : Nat) : Tree → Except Fault Unit
  | .number numeral => if numeral.value?.isNone then .error .malformed else .ok ()
  | .array items => if outer < 127 then checkItems (outer + 1) items else .error .malformed
  | .object members =>
    if outer < 127 then checkMembers (outer + 1) [] members else .error .malformed
  | _ => .ok ()

def checkItems (outer : Nat) : List Tree → Except Fault Unit
  | [] => .ok ()
  | item :: rest => (item.check outer).bind fun _ => checkItems outer rest

/-- Check members after those that have the names seen. -/
def checkMembers (outer : Nat) (seen : List String) : List (String × Tree) → Except Fault Unit
  | [] => .ok ()
  | (name, member) :: rest =>
    if name ∈ seen then .error (.repeatedName name)
    else (member.check outer).bind fun _ => checkMembers outer (name :: seen) rest

end

theorem read_open (around : List Frame) :
    Stage.read .document (.awaitValue around) .openArray =
        (if around.length < 127 then .ok (.firstItem around) else .error .malformed) ∧
      Stage.read .document (.awaitValue around) .openObject =
        (if around.length < 127 then .ok (.firstName around) else .error .malformed) := by
  simp [Stage.read, Stage.beginValue, Policy.roomFor, Policy.document]

@[simp] theorem read_itemComma (around : List Frame) (done : List Tree) (last : Tree) :
    Stage.read .document (.ended (.array done :: around) last) .comma =
      .ok (.awaitValue (.array (last :: done) :: around)) := rfl

@[simp] theorem read_memberComma (around : List Frame) (done : List (String × Tree)) (name : String)
    (last : Tree) : Stage.read .document (.ended (.object done name :: around) last) .comma =
      .ok (.nextName around ((name, last) :: done)) := rfl

theorem read_scalar {token : Token} {tree : Tree} (scalar : scalarTree? token = some tree)
    (around : List Frame) :
    Stage.read .document (.awaitValue around) token =
      (Policy.document.admitScalar token).map fun _ => .ended around tree := by
  cases token <;> cases scalar <;> rfl

theorem tokens_head (tree : Tree) :
    ∃ token rest, tree.tokens = token :: rest ∧ token ≠ .closeArray := by
  cases tree with
  | array items => cases items <;> exact ⟨_, _, rfl, by decide⟩
  | object members => cases members <;> exact ⟨_, _, rfl, by decide⟩
  | _ => exact ⟨_, _, rfl, by simp⟩

theorem take_firstItem (around : List Frame) (item : Tree) (rest : List Token) :
    Reading.take .document (.firstItem around) (item.tokens ++ rest) =
      Reading.take .document (.awaitValue (.array [] :: around)) (item.tokens ++ rest) := by
  obtain ⟨token, more, tokens, other⟩ := item.tokens_head
  simp [tokens, Stage.read, other]

theorem take_name {stage : Stage} {around : List Frame} {members : List (String × Tree)}
    (waits : stage = .firstName around ∧ members = [] ∨ stage = .nextName around members)
    (name : String) (rest : List Token) :
    Reading.take .document stage (.text name true :: .colon :: rest) =
      if name ∈ members.map (·.1) then .error (.repeatedName name)
      else Reading.take .document (.awaitValue (.object members name :: around)) rest := by
  have seen : members.any (·.1 == name) = decide (name ∈ members.map (·.1)) := by
    rw [Bool.eq_iff_iff]
    simp
  rcases waits with ⟨rfl, rfl⟩ | rfl
  · rfl
  · by_cases there : name ∈ members.map (·.1) <;>
    simp only [Reading.take_cons, Stage.read, Stage.beginMember, Policy.admitName,
      Policy.document, seen, there] <;> rfl

mutual

/-- The tokens of a tree are taken as far as the tree passes its check. -/
theorem take_tokens : ∀ (tree : Tree) (around : List Frame) (rest : List Token),
    Reading.take .document (.awaitValue around) (tree.tokens ++ rest) =
      (tree.check around.length).bind fun _ => Reading.take .document (.ended around tree) rest
  | .null, _, _ | .bool _, _, _ | .text _, _, _ => rfl
  | .number numeral, around, rest => by
    rw [tokens, List.singleton_append, Reading.take_cons, read_scalar rfl, Policy.admitScalar,
      check]
    cases numeral.value? <;> rfl
  | .array [], around, rest => by
    simp only [tokens, List.cons_append, List.nil_append, Reading.take_cons, read_open, check]
    split <;> rfl
  | .object [], around, rest => by
    simp only [tokens, List.cons_append, List.nil_append, Reading.take_cons, read_open, check]
    split <;> rfl
  | .array (item :: items), around, rest => by
    simp only [tokens, List.cons_append, List.append_assoc]
    rw [Reading.take_cons, (read_open _).1, check]
    split
    · rw [bind_ok, take_firstItem, take_tokens item, checkItems, List.length_cons]
      cases item.check (around.length + 1) with
      | error fault => rfl
      | ok _ => exact take_itemTokens items around [] item rest
    · rfl
  | .object ((name, member) :: members), around, rest => by
    simp only [tokens, List.cons_append, List.append_assoc]
    rw [Reading.take_cons, (read_open _).2, check]
    split
    · rw [bind_ok, take_name (.inl ⟨rfl, rfl⟩), take_tokens member, checkMembers, List.length_cons]
      cases member.check (around.length + 1) with
      | error fault => rfl
      | ok _ => exact take_memberTokens members around [] name member rest
    · rfl

/-- The frame holds the items before the last one, newest first. -/
theorem take_itemTokens : ∀ (items : List Tree) (around : List Frame) (done : List Tree)
    (last : Tree) (rest : List Token),
    Reading.take .document (.ended (.array done :: around) last) (itemTokens items ++ rest) =
      (checkItems (around.length + 1) items).bind fun _ =>
        Reading.take .document (.ended around (.array ((last :: done).reverse ++ items))) rest
  | [], around, done, last, rest => by
    rw [List.append_nil]
    rfl
  | item :: items, around, done, last, rest => by
    simp only [itemTokens, List.cons_append, List.append_assoc]
    rw [Reading.take_cons, read_itemComma, bind_ok, take_tokens item, checkItems, List.length_cons]
    cases item.check (around.length + 1) with
    | error fault => rfl
    | ok _ =>
      have others := take_itemTokens items around (last :: done) item rest
      simpa using others

/-- The names seen are those of the frame and the one whose value was read last. -/
theorem take_memberTokens : ∀ (members : List (String × Tree)) (around : List Frame)
    (done : List (String × Tree)) (name : String) (last : Tree) (rest : List Token),
    Reading.take .document (.ended (.object done name :: around) last)
        (memberTokens members ++ rest) =
      (checkMembers (around.length + 1) (name :: done.map (·.1)) members).bind fun _ =>
        Reading.take .document (.ended around (.object (((name, last) :: done).reverse ++ members)))
          rest
  | [], around, done, name, last, rest => by
    rw [List.append_nil]
    rfl
  | (next, member) :: members, around, done, name, last, rest => by
    simp only [memberTokens, List.cons_append, List.append_assoc]
    rw [Reading.take_cons, read_memberComma, bind_ok, take_name (.inr rfl), checkMembers, List.map_cons]
    split
    · rfl
    · rw [take_tokens member, List.length_cons]
      cases member.check (around.length + 1) with
      | error fault => rfl
      | ok _ =>
        have others := take_memberTokens members around ((name, last) :: done) next member rest
        simpa using others

end

end Tree

/-- Strict reading of a text gives the value of the tree that it spells, or what the check of the
tree finds. -/
theorem ofText_eq_check {tree : Tree} {text : String} (written : tree.Written text) :
    ofText .document text = (tree.check 0).map fun _ => tree.value := by
  have taken := Tree.take_tokens tree [] []
  rw [List.append_nil] at taken
  rw [ofText, Tree.ofText_tokens written, taken, List.length_nil]
  cases tree.check 0 <;> rfl

end LeafStore.Json
