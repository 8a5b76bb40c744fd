import Mathlib.Data.List.Duplicate
import LeafStore.Proofs.Histories
import LeafStore.Proofs.TreeTexts
/-!
Strict reading. A text of a tree is read as the value of the tree unless some object in it has two
members of one name.
-/
namespace LeafStore

namespace Json

namespace Tree

/-! What passes the check. -/

def parts : Tree → List Tree
  | .array items => items
  | .object members => members.map (·.2)
  | _ => []

def names : Tree → List String
  | .object members => members.map (·.1)
  | _ => []

def inRange : Tree → Bool
  | .number numeral => numeral.value?.isSome
  | _ => true

/-- A tree is found in itself and where it is found in a part. -/
inductive OccursIn (sought : Tree) : Tree → Prop where
  | here : OccursIn sought sought
  | within {tree part : Tree} : part ∈ tree.parts → sought.OccursIn part → OccursIn sought tree

mutual

def depth : Tree → Nat
  | .array items => itemDepth items + 1
  | .object members => memberDepth members + 1
  | _ => 0

def itemDepth : List Tree → Nat
  | [] => 0
  | item :: rest => max item.depth (itemDepth rest)

def memberDepth : List (String × Tree) → Nat
  | [] => 0
  | (_, member) :: rest => max member.depth (memberDepth rest)

end

/-- Some object in the tree has two members of the name. -/
def Repeats (tree : Tree) (name : String) : Prop :=
  ∃ part : Tree, part.OccursIn tree ∧ part.names.Duplicate name

/-- What a tree inside `outer` containers must be to be read. -/
structure Readable (outer : Nat) (tree : Tree) : Prop where
  nested : outer + tree.depth ≤ 127
  inRange : ∀ part : Tree, part.OccursIn tree → part.inRange = true
  distinct : ∀ part : Tree, part.OccursIn tree → part.names.Nodup

theorem sizeOf_part {tree part : Tree} (h : part ∈ tree.parts) : sizeOf part < sizeOf tree := by
  cases tree with
  | array items =>
    have smaller := List.sizeOf_lt_of_mem (show part ∈ items from h)
    simp only [array.sizeOf_spec]
    omega
  | object members =>
    obtain ⟨member, there, rfl⟩ := List.mem_map.mp h
    have smaller := List.sizeOf_lt_of_mem there
    have part : sizeOf member = 1 + sizeOf member.1 + sizeOf member.2 := rfl
    simp only [object.sizeOf_spec]
    omega
  | _ => cases h

theorem induct {motive : Tree → Prop}
    (whole : ∀ tree : Tree, (∀ part ∈ tree.parts, motive part) → motive tree) (tree : Tree) :
    motive tree :=
  whole tree fun part _ => induct whole part
termination_by sizeOf tree
decreasing_by exact sizeOf_part ‹_›

@[simp] theorem itemDepth_le_iff {items : List Tree} {limit : Nat} :
    itemDepth items ≤ limit ↔ ∀ item ∈ items, item.depth ≤ limit := by
  induction items with
  | nil => simp [itemDepth]
  | cons item rest ih => simp only [itemDepth, Nat.max_le, ih, List.forall_mem_cons]

@[simp] theorem memberDepth_le_iff {members : List (String × Tree)} {limit : Nat} :
    memberDepth members ≤ limit ↔ ∀ member ∈ members, member.2.depth ≤ limit := by
  induction members with
  | nil => simp [memberDepth]
  | cons member rest ih => simp only [memberDepth, Nat.max_le, ih, List.forall_mem_cons]

@[simp] theorem depth_le_succ_iff {tree : Tree} {limit : Nat} :
    tree.depth ≤ limit + 1 ↔ ∀ part ∈ tree.parts, part.depth ≤ limit := by
  cases tree with
  | array items => simp only [depth, parts, Nat.add_le_add_iff_right, itemDepth_le_iff]
  | object members =>
    simp only [depth, parts, Nat.add_le_add_iff_right, memberDepth_le_iff, List.forall_mem_map]
  | _ => simp [depth, parts]

theorem forall_occurs_iff {P : Tree → Prop} {tree : Tree} :
    (∀ part : Tree, part.OccursIn tree → P part) ↔
      P tree ∧ ∀ below ∈ tree.parts, ∀ part : Tree, part.OccursIn below → P part := by
  constructor
  · exact fun all => ⟨all _ .here, fun below there part occurs => all _ (.within there occurs)⟩
  · rintro ⟨whole, below⟩ part (_ | ⟨there, occurs⟩)
    · exact whole
    · exact below _ there _ occurs

theorem nested_iff {outer : Nat} {tree : Tree} (room : outer < 127) :
    outer + tree.depth ≤ 127 ↔ ∀ part ∈ tree.parts, outer + 1 + part.depth ≤ 127 := by
  have within : ∀ depth, outer + 1 + depth ≤ 127 ↔ depth ≤ 126 - outer := by omega
  rw [show outer + tree.depth ≤ 127 ↔ tree.depth ≤ 126 - outer + 1 by omega, depth_le_succ_iff]
  simp only [within]

/-- Where one more container may be open, a tree is readable if its parts are and its own names
are distinct. -/
theorem readable_iff {outer : Nat} {tree : Tree} (room : outer < 127) :
    Readable outer tree ↔ tree.inRange = true ∧ tree.names.Nodup ∧
      ∀ part ∈ tree.parts, Readable (outer + 1) part := by
  constructor
  · rintro ⟨nested, inRange, distinct⟩
    rw [forall_occurs_iff] at inRange distinct
    rw [nested_iff room] at nested
    exact ⟨inRange.1, distinct.1, fun part there =>
      ⟨nested part there, inRange.2 part there, distinct.2 part there⟩⟩
  · rintro ⟨inRange, distinct, parts⟩
    constructor
    · exact (nested_iff room).mpr fun part there => (parts part there).nested
    · exact forall_occurs_iff.mpr ⟨inRange, fun part there => (parts part there).inRange⟩
    · exact forall_occurs_iff.mpr ⟨distinct, fun part there => (parts part there).distinct⟩

theorem readable_scalar_iff {outer : Nat} {tree : Tree} (bounded : outer ≤ 127)
    (scalar : tree.depth = 0) : Readable outer tree ↔ tree.inRange = true := by
  constructor
  · exact fun readable => readable.inRange _ .here
  · intro inRange
    have nothing : tree.parts = [] ∧ tree.names = [] := by
      cases tree with
      | array _ | object _ => cases scalar
      | _ => exact ⟨rfl, rfl⟩
    constructor
    · omega
    · exact forall_occurs_iff.mpr ⟨inRange, by simp [nothing.1]⟩
    · exact forall_occurs_iff.mpr ⟨by simp [nothing.2], by simp [nothing.1]⟩

@[simp] theorem checkItems_eq_ok_iff {outer : Nat} {items : List Tree} :
    checkItems outer items = .ok () ↔ ∀ item ∈ items, item.check outer = .ok () := by
  induction items with
  | nil => simp [checkItems]
  | cons item rest ih =>
    rw [checkItems, List.forall_mem_cons, ← ih]
    cases item.check outer <;> simp

theorem checkMembers_eq_ok_iff {outer : Nat} {members : List (String × Tree)} {seen : List String} :
    checkMembers outer seen members = .ok () ↔
      ((members.map (·.1)).Nodup ∧ ∀ name ∈ members.map (·.1), name ∉ seen) ∧
        ∀ member ∈ members, member.2.check outer = .ok () := by
  induction members generalizing seen with
  | nil => simp [checkMembers]
  | cons member rest ih =>
    obtain ⟨name, member⟩ := member
    rw [checkMembers, List.forall_mem_cons, List.map_cons, List.nodup_cons, List.forall_mem_cons]
    by_cases repeated : name ∈ seen
    · simp [repeated]
    · cases passed : member.check outer with
      | error fault => simp [repeated]
      | ok _ =>
        simp only [if_neg repeated, bind_ok, ih, List.mem_cons, not_or]
        grind

theorem check_eq_ok_iff {outer : Nat} (bounded : outer ≤ 127) {tree : Tree} :
    tree.check outer = .ok () ↔ Readable outer tree := by
  induction tree using induct generalizing outer with
  | whole tree ih =>
    have full : ¬ outer < 127 → tree.depth ≠ 0 → ¬ Readable outer tree := by
      intro full container readable
      have nested := readable.nested
      omega
    cases tree with
    | null | bool _ | text _ => exact iff_of_true rfl ((readable_scalar_iff bounded rfl).mpr rfl)
    | number numeral =>
      rw [readable_scalar_iff bounded rfl, check, inRange]
      cases numeral.value? <;> simp
    | array items =>
      rw [check]
      split
      · rename_i room
        rw [checkItems_eq_ok_iff, readable_iff room]
        simp only [inRange, names, List.nodup_nil, true_and]
        exact forall₂_congr fun item there => ih item there room
      · rename_i noRoom
        simp [full noRoom (Nat.succ_ne_zero _)]
    | object members =>
      rw [check]
      split
      · rename_i room
        rw [checkMembers_eq_ok_iff, readable_iff room]
        simp only [inRange, names, parts, true_and, List.forall_mem_map, List.not_mem_nil,
          not_false_eq_true, implies_true, and_true]
        exact and_congr_right' (forall₂_congr fun member there =>
          ih member.2 (List.mem_map.mpr ⟨member, there, rfl⟩) room)
      · rename_i noRoom
        simp [full noRoom (Nat.succ_ne_zero _)]

theorem checkItems_eq_error {outer : Nat} {items : List Tree} {fault : Fault}
    (refused : checkItems outer items = .error fault) :
    ∃ item ∈ items, item.check outer = .error fault := by
  induction items with
  | nil => cases refused
  | cons item rest ih =>
    rw [List.exists_mem_cons_iff]
    cases passed : item.check outer with
    | error first =>
      simp only [checkItems, passed] at refused
      exact .inl refused
    | ok _ =>
      simp only [checkItems, passed] at refused
      exact .inr (ih refused)

theorem checkMembers_eq_error {outer : Nat} {members : List (String × Tree)} {seen : List String}
    {fault : Fault} (refused : checkMembers outer seen members = .error fault) :
    (∃ name, fault = .repeatedName name ∧ (name ∈ seen ∧ name ∈ members.map (·.1) ∨
        (members.map (·.1)).Duplicate name)) ∨
      ∃ member ∈ members, member.2.check outer = .error fault := by
  induction members generalizing seen with
  | nil => cases refused
  | cons member rest ih =>
    obtain ⟨name, member⟩ := member
    rw [checkMembers] at refused
    split at refused
    · rename_i there
      cases refused
      exact .inl ⟨name, rfl, .inl ⟨there, List.mem_cons_self ..⟩⟩
    · cases passed : member.check outer with
      | error first =>
        rw [passed] at refused
        exact .inr ⟨_, List.mem_cons_self .., passed.trans refused⟩
      | ok _ =>
        rw [passed] at refused
        rcases ih refused with ⟨repeated, rfl, ⟨before, here⟩ | within⟩ | ⟨member, there, fails⟩
        · rcases List.mem_cons.mp before with rfl | before
          · exact .inl ⟨_, rfl, .inr (.cons_mem here)⟩
          · exact .inl ⟨_, rfl, .inl ⟨before, List.mem_cons_of_mem _ here⟩⟩
        · exact .inl ⟨_, rfl, .inr (.cons_duplicate within)⟩
        · exact .inr ⟨member, List.mem_cons_of_mem _ there, fails⟩

theorem Repeats.within {tree part : Tree} {name : String} (there : part ∈ tree.parts)
    (repeats : part.Repeats name) : tree.Repeats name := by
  obtain ⟨inner, occurs, repeated⟩ := repeats
  exact ⟨inner, .within there occurs, repeated⟩

/-- Where the nesting and the numerals are in order, the fault is a name that is repeated. -/
theorem check_eq_error {outer : Nat} {tree : Tree} {fault : Fault}
    (refused : tree.check outer = .error fault) (nested : outer + tree.depth ≤ 127)
    (inRange : ∀ part : Tree, part.OccursIn tree → part.inRange = true) :
    ∃ name, fault = .repeatedName name ∧ tree.Repeats name := by
  induction tree using induct generalizing outer with
  | whole tree ih =>
    have below : outer < 127 → ∀ part ∈ tree.parts, part.check (outer + 1) = .error fault →
        ∃ name, fault = .repeatedName name ∧ tree.Repeats name := by
      intro room part there refused
      obtain ⟨name, same, repeats⟩ := ih part there refused ((nested_iff room).mp nested part there)
        ((forall_occurs_iff.mp inRange).2 part there)
      exact ⟨name, same, repeats.within there⟩
    cases tree with
    | null | bool _ | text _ => cases refused
    | number numeral =>
      have valued : numeral.value?.isSome = true := inRange _ .here
      rw [Option.isSome_iff_exists] at valued
      obtain ⟨value, valued⟩ := valued
      simp [check, valued] at refused
    | array items =>
      have room : outer < 127 := by
        rw [depth] at nested
        omega
      rw [check, if_pos room] at refused
      obtain ⟨item, there, fails⟩ := checkItems_eq_error refused
      exact below room item there fails
    | object members =>
      have room : outer < 127 := by
        rw [depth] at nested
        omega
      rw [check, if_pos room] at refused
      rcases checkMembers_eq_error refused with ⟨name, same, ⟨none, _⟩ | repeated⟩ | member
      · cases none
      · exact ⟨name, same, _, .here, repeated⟩
      · obtain ⟨member, there, fails⟩ := member
        exact below room member.2 (List.mem_map.mpr ⟨member, there, rfl⟩) fails

/-- The nesting is supported, and every numeral is one that is taken: it has a value. -/
def Supported (tree : Tree) : Prop :=
  tree.depth ≤ 127 ∧ ∀ part : Tree, part.OccursIn tree → part.inRange = true

theorem check_zero_iff {tree : Tree} :
    tree.check 0 = .ok () ↔ tree.Supported ∧ ∀ name, ¬ tree.Repeats name := by
  rw [check_eq_ok_iff (Nat.zero_le _)]
  constructor
  · rintro ⟨nested, inRange, distinct⟩
    rw [Nat.zero_add] at nested
    exact ⟨⟨nested, inRange⟩, fun name ⟨part, occurs, repeated⟩ =>
      repeated.not_nodup (distinct part occurs)⟩
  · rintro ⟨⟨nested, inRange⟩, none⟩
    refine ⟨by omega, inRange, fun part occurs => ?_⟩
    rw [List.nodup_iff_forall_not_duplicate]
    exact fun name repeated => none name ⟨part, occurs, repeated⟩

@[simp] theorem memberValues_eq (members : List (String × Tree)) :
    memberValues members = members.map fun member => (member.1, member.2.value) := by
  induction members with
  | nil => rfl
  | cons member rest ih => simp [memberValues, ih]

/-- No member of an object is lost where the names are distinct. -/
theorem value_object {members : List (String × Tree)} (distinct : (members.map (·.1)).Nodup) :
    ∃ kept, (Tree.object members).value = .object kept ∧
      kept.Perm (members.map fun member => (member.1, member.2.value)) := by
  refine ⟨_, rfl, ?_⟩
  rw [memberValues_eq]
  apply Sorted.ofPairs_perm
  simpa [Function.comp_def] using distinct

end Tree

section Written

variable {tree : Tree} {text : String}

theorem ofText_eq_ok_iff (written : tree.Written text) {value : Json} :
    ofText .document text = .ok value ↔
      (tree.Supported ∧ ∀ name, ¬ tree.Repeats name) ∧ value = tree.value := by
  rw [ofText_eq_check written, ← Tree.check_zero_iff]
  cases tree.check 0 <;> simp [eq_comm]

theorem ofText_repeated (written : tree.Written text) {name : String}
    (repeats : tree.Repeats name) : ∃ fault, ofText .document text = .error fault := by
  cases result : ofText .document text with
  | ok value => exact absurd repeats (((ofText_eq_ok_iff written).mp result).1.2 name)
  | error fault => exact ⟨fault, rfl⟩

theorem ofText_fault (written : tree.Written text) (supported : tree.Supported) {fault : Fault}
    (failed : ofText .document text = .error fault) :
    ∃ name, fault = .repeatedName name ∧ tree.Repeats name := by
  rw [ofText_eq_check written] at failed
  cases result : tree.check 0 with
  | ok _ =>
    rw [result] at failed
    cases failed
  | error first =>
    rw [result] at failed
    cases failed
    have nested : 0 + tree.depth ≤ 127 := by
      rw [Nat.zero_add]
      exact supported.1
    exact Tree.check_eq_error result nested supported.2

end Written

end Json

theorem Service.prepareChange_eq {σ : Type} (s : Service σ) {subject : Subject} {table : TableName}
    {document : String} (mayDelete : s.checkWrite subject table .delete = .ok ())
    (mayModify : s.checkWrite subject table .modify = .ok ()) (named : document ≠ "")
    (path : Path) (payload : String) (patching : Bool) (now : Int) :
    s.prepareChange subject table document path payload patching now =
      ((Json.ofText .document payload).mapError fun fault => .invalidDocument (.text fault)).bind
        fun value => s.config.limits.put document path value patching now := by
  have checked : checkDocument document = .ok () := by simp [checkDocument, named]
  rw [prepareChange, mayDelete, mayModify, checked]
  rfl

namespace Json

/-- A text of a tree is refused where an object in the tree has two members of one name, and else
it is read as the value of the tree, in which every member is kept. A change whose payload it is
is refused or made accordingly. -/
theorem ofText_written {tree : Tree} {text : String} (written : tree.Written text) :
    (∀ name, tree.Repeats name → ∃ fault, ofText .document text = .error fault) ∧
    (∀ value, ofText .document text = .ok value ↔
      (tree.Supported ∧ ∀ name, ¬ tree.Repeats name) ∧ value = tree.value) ∧
    (tree.Supported → ∀ fault, ofText .document text = .error fault →
      ∃ name, fault = .repeatedName name ∧ tree.Repeats name) ∧
    ((∀ name, ¬ tree.Repeats name) → ∀ members, (Tree.object members).OccursIn tree →
      ∃ kept, (Tree.object members).value = .object kept ∧
        kept.Perm (members.map fun member => (member.1, member.2.value))) ∧
    ∀ {σ : Type} (s : Service σ) (subject : Subject) (table : TableName) (document : String)
      (path : Path) (patching : Bool) (now : Int), s.checkWrite subject table .delete = .ok () →
      s.checkWrite subject table .modify = .ok () → document ≠ "" →
      (∀ name, tree.Repeats name → ∃ fault,
        s.prepareChange subject table document path text patching now =
          .error (.invalidDocument (.text fault))) ∧
      (tree.Supported → (∀ name, ¬ tree.Repeats name) →
        s.prepareChange subject table document path text patching now =
          s.config.limits.put document path tree.value patching now) := by
  refine ⟨fun name => ofText_repeated written, fun value => ofText_eq_ok_iff written,
    fun supported fault => ofText_fault written supported, fun none members occurs => ?_,
    fun s subject table document path patching now mayDelete mayModify named => ?_⟩
  · apply Tree.value_object
    rw [List.nodup_iff_forall_not_duplicate]
    exact fun name repeated => none name ⟨_, occurs, repeated⟩
  · rw [s.prepareChange_eq mayDelete mayModify named]
    constructor
    · intro name repeats
      obtain ⟨fault, failed⟩ := ofText_repeated written repeats
      rw [failed]
      exact ⟨fault, rfl⟩
    · intro supported none
      rw [(ofText_eq_ok_iff written).mpr ⟨⟨supported, none⟩, rfl⟩]
      rfl

/-- An escaped name is the same name: in two objects it is no fault, in one it is. -/
theorem ofText_written_escaped :
    ofText .document "\x7b\"a\":[\x7b\"a\":null\x7d, \x7b\"\\u0061\":1\x7d]\x7d" =
      .ok (.object [("a", .array [.object [("a", .null)], .object [("a", .int 1)]])]) ∧
    ofText .document "[\x7b\"a\":null,\"\\u0061\":1\x7d]" = .error (.repeatedName "a") ∧
    ∃ fault, Service.sample.prepareChange ⟨"", ""⟩ ⟨"k", "t"⟩ "d" []
      "[\x7b\"a\":null,\"\\u0061\":1\x7d]" false 7 = .error (.invalidDocument (.text fault)) := by
  have nothing : Blank [] := List.forall_mem_nil _
  have space : Blank [' '] := by simp [Blank, blanks]
  have mark : ∀ {c : Char} {token : Token} {chars : List Char} {tokens : List Token},
      (c, token) ∈ Token.marks → Spelled chars tokens → Spelled (c :: chars) (token :: tokens) :=
    fun listed rest => .token nothing (.mark listed) rest
  have plain : Token.Spelling ['"', 'a', '"'] (.text "a" true) :=
    .text ⟨[['a']], .cons (.plain (by decide) (by decide) (by decide)) .nil, rfl⟩
  have unit : SpellsUnit ['0', '0', '6', '1'] (16 * (16 * (16 * 0 + 0) + 6) + 1) :=
    .digits rfl rfl rfl rfl
  have escaped : Token.Spelling ['"', '\\', 'u', '0', '0', '6', '1', '"'] (.text "a" true) :=
    .text ⟨[_], .cons (.code unit) .nil, rfl⟩
  have one : Token.Spelling ['1'] (.number ⟨false, ['1'], none, none⟩) :=
    .number ⟨⟨[], .absent, rfl⟩, ⟨by decide, rfl⟩, by decide, by simp⟩
  have null : Token.Spelling ['n', 'u', 'l', 'l'] .null := .word (by decide)
  have apart : Tree.Written
      (.object [("a", .array [.object [("a", .null)],
        .object [("a", .number ⟨false, ['1'], none, none⟩)]])])
      "\x7b\"a\":[\x7b\"a\":null\x7d, \x7b\"\\u0061\":1\x7d]\x7d" :=
    mark (by decide) <| .token nothing plain <| mark (by decide) <| mark (by decide) <|
    mark (by decide) <| .token nothing plain <| mark (by decide) <| .token nothing null <|
    mark (by decide) <| mark (by decide) <| .token space (.mark (by decide)) <|
    .token nothing escaped <| mark (by decide) <| .token nothing one <| mark (by decide) <|
    mark (by decide) <| mark (by decide) <| .done nothing
  have together : Tree.Written
      (.array [.object [("a", .null), ("a", .number ⟨false, ['1'], none, none⟩)]])
      "[\x7b\"a\":null,\"\\u0061\":1\x7d]" :=
    mark (by decide) <| mark (by decide) <| .token nothing plain <| mark (by decide) <|
    .token nothing null <| mark (by decide) <| .token nothing escaped <| mark (by decide) <|
    .token nothing one <| mark (by decide) <| mark (by decide) <| .done nothing
  have repeats : Tree.Repeats
      (.array [.object [("a", .null), ("a", .number ⟨false, ['1'], none, none⟩)]]) "a" :=
    ⟨_, .within (List.mem_singleton_self _) .here, .cons_mem (List.mem_singleton_self _)⟩
  obtain ⟨_, read, _⟩ := ofText_written apart
  obtain ⟨_, _, _, _, changes⟩ := ofText_written together
  refine ⟨(read _).mpr ⟨Tree.check_zero_iff.mp rfl, rfl⟩, (ofText_eq_check together).trans rfl, ?_⟩
  exact (changes Service.sample _ _ _ _ _ _ rfl rfl (by decide)).1 "a" repeats

end Json

end LeafStore
