import LeafStore.Json.Tree
/-!
Reading JSON texts. Tokens are taken one at a time by a machine that holds the containers still
open; a policy says which well-formed texts are refused all the same.
-/
namespace LeafStore.Json

inductive Fault where
  | malformed
  | repeatedName (name : String)
  deriving DecidableEq

/-- An open container around the value being read. Items and members are newest first. -/
inductive Frame where
  | array (items : List Tree)
  | object (members : List (String × Tree)) (name : String)

/-- What the tokens read so far are waiting for, inside the open containers. -/
inductive Stage where
  | awaitValue (around : List Frame)
  | firstItem (around : List Frame)
  | firstName (around : List Frame)
  | nextName (around : List Frame) (members : List (String × Tree))
  | awaitColon (around : List Frame) (members : List (String × Tree)) (name : String)
  /-- What follows a value: a comma, the end of its container, or the end of the text. -/
  | ended (around : List Frame) (value : Tree)

structure Policy where
  nesting : Option Nat
  /-- Every numeral has a finite value and every text is well-formed. -/
  scalars : Bool
  uniqueNames : Bool

namespace Policy

/-- Documents and filters: names are unique. -/
def document : Policy := ⟨some 127, true, true⟩

/-- Lists of fields: a repeated name is no fault. -/
def fields : Policy := ⟨some 127, true, false⟩

/-- Settings: what is not asked for is passed over unread. -/
def settings : Policy := ⟨none, false, false⟩

def roomFor (policy : Policy) (around : List Frame) : Bool :=
  policy.nesting.all fun limit => around.length < limit

def admitScalar (policy : Policy) : Token → Except Fault Unit
  | .number numeral =>
    if policy.scalars && numeral.value?.isNone then .error .malformed else .ok ()
  | .text _ paired => if policy.scalars && !paired then .error .malformed else .ok ()
  | _ => .ok ()

/-- Refuse a name that is malformed or repeated. Names outside every container are always
asked for. -/
def admitName (policy : Policy) (around : List Frame) (members : List (String × Tree))
    (name : String) (paired : Bool) : Except Fault Unit :=
  if (policy.scalars || around.isEmpty) && !paired then .error .malformed
  else if policy.uniqueNames && members.any (·.1 == name) then .error (.repeatedName name)
  else .ok ()

end Policy

def scalarTree? : Token → Option Tree
  | .null => some .null
  | .bool b => some (.bool b)
  | .number numeral => some (.number numeral)
  | .text value _ => some (.text value)
  | _ => none

namespace Stage

def beginValue (policy : Policy) (around : List Frame) (token : Token) : Except Fault Stage :=
  match token with
  | .openArray => if policy.roomFor around then .ok (.firstItem around) else .error .malformed
  | .openObject => if policy.roomFor around then .ok (.firstName around) else .error .malformed
  | token =>
    match scalarTree? token with
    | some tree => (policy.admitScalar token).map fun _ => .ended around tree
    | none => .error .malformed

def beginMember (policy : Policy) (around : List Frame) (members : List (String × Tree))
    (token : Token) : Except Fault Stage :=
  match token with
  | .text name paired =>
    (policy.admitName around members name paired).map fun _ => .awaitColon around members name
  | _ => .error .malformed

def afterValue (around : List Frame) (tree : Tree) (token : Token) : Except Fault Stage :=
  match around, token with
  | .array items :: outer, .comma => .ok (.awaitValue (.array (tree :: items) :: outer))
  | .array items :: outer, .closeArray => .ok (.ended outer (.array (tree :: items).reverse))
  | .object members name :: outer, .comma => .ok (.nextName outer ((name, tree) :: members))
  | .object members name :: outer, .closeObject =>
    .ok (.ended outer (.object ((name, tree) :: members).reverse))
  | _, _ => .error .malformed

def read (policy : Policy) (stage : Stage) (token : Token) : Except Fault Stage :=
  match stage with
  | .awaitValue around => beginValue policy around token
  | .firstItem around =>
    if token = .closeArray then .ok (.ended around (.array []))
    else beginValue policy (.array [] :: around) token
  | .firstName around =>
    if token = .closeObject then .ok (.ended around (.object []))
    else beginMember policy around [] token
  | .nextName around members => beginMember policy around members token
  | .awaitColon around members name =>
    if token = .colon then .ok (.awaitValue (.object members name :: around)) else .error .malformed
  | .ended around tree => afterValue around tree token

def result : Stage → Except Fault Tree
  | .ended [] tree => .ok tree
  | _ => .error .malformed

end Stage

structure Reading where
  pending : Pending
  stage : Stage

namespace Reading

def start : Reading := ⟨.nothing, .awaitValue []⟩

def take (policy : Policy) (stage : Stage) (tokens : List Token) : Except Fault Stage :=
  tokens.foldlM (Stage.read policy) stage

def step (policy : Policy) (r : Reading) (c : Char) : Except Fault Reading :=
  match r.pending.step c with
  | none => .error .malformed
  | some (pending, tokens) => (take policy r.stage tokens).map (Reading.mk pending)

def finish (policy : Policy) (r : Reading) : Except Fault Tree :=
  match r.pending.finish with
  | none => .error .malformed
  | some tokens => (take policy r.stage tokens).bind Stage.result

end Reading

def Tree.ofText (policy : Policy) (text : String) : Except Fault Tree :=
  (text.toList.foldlM (Reading.step policy) Reading.start).bind (Reading.finish policy)

def ofText (policy : Policy) (text : String) : Except Fault Json :=
  (Tree.ofText policy text).map Tree.value

end LeafStore.Json
