import LeafStore.Path.Parser
/-!
Leaves of documents: the scalars and the empty containers. Everything else in a document is
made of leaves and their paths.
-/
namespace LeafStore

/-- The kind of a leaf; values of different kinds never compare. -/
inductive Kind where
  | text
  | number
  | bool
  | null
  | container
  deriving DecidableEq

inductive Leaf where
  | text (value : String)
  | number (value : Double)
  | bool (value : Bool)
  | null
  | emptyObject
  | emptyArray
  deriving DecidableEq

namespace Leaf

/-- The leaf that a JSON value is, unless it is a container with something in it. Numbers are
kept as doubles. -/
def ofJson? : Json → Option Leaf
  | .null => some null
  | .bool b => some (bool b)
  | .int n => some (number (Double.ofInt n))
  | .float d => some (number d)
  | .text s => some (text s)
  | .array [] => some emptyArray
  | .object [] => some emptyObject
  | .array (_ :: _) | .object (_ :: _) => none

def toJson : Leaf → Json
  | text s => .text s
  | number d => Json.ofDouble d
  | bool b => .bool b
  | null => .null
  | emptyObject => .object []
  | emptyArray => .array []

def kind : Leaf → Kind
  | text _ => .text
  | number _ => .number
  | bool _ => .bool
  | null => .null
  | emptyObject | emptyArray => .container

def isMarker : Leaf → Bool
  | emptyObject | emptyArray => true
  | _ => false

def marker? : Leaf → Option String
  | emptyObject => some emptyObjectMarker
  | emptyArray => some emptyArrayMarker
  | _ => none

end Leaf

structure Cell where
  document : String
  path : Path
  leaf : Leaf
  writeTime : Int
  deriving DecidableEq

end LeafStore
