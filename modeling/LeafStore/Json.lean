import LeafStore.Double
import LeafStore.Sorted
/-!
JSON values. Integers of 64 bits are kept apart from doubles, and the members of an object are
in ascending order of their names, each name once.
-/
namespace LeafStore

inductive Json where
  | null
  | bool (value : Bool)
  | int (value : Int)
  | float (value : Double)
  | text (value : String)
  | array (items : List Json)
  | object (members : List (String × Json))
  deriving Inhabited

namespace Json

/-- The object with the given members; of two members of one name the later is kept. -/
def ofMembers (members : List (String × Json)) : Json :=
  .object (Sorted.ofPairs members)

def ofText? (text : Option String) : Json :=
  text.elim .null .text

/-- A double as a number: a whole one that doubles hold exactly is an integer, and one that JSON
cannot write is null. -/
def ofDouble (d : Double) : Json :=
  match d.toInt? with
  | some n => .int n
  | none => if d.isFinite then .float d else .null

def ofDoubleExactly (d : Double) : Json :=
  if d.isFinite then .float d else .null

end Json

end LeafStore
