import LeafStore.Json.Token
/-!
JSON texts as trees: what a text spells, with the numerals as written and the members of each
object in the order of the text, repeated names included.
-/
namespace LeafStore.Json

inductive Tree where
  | null
  | bool (value : Bool)
  | number (numeral : Numeral)
  | text (value : String)
  | array (items : List Tree)
  | object (members : List (String × Tree))
  deriving Inhabited

namespace Tree

mutual

/-- The value of a tree. Of two members of one name the later is kept. -/
def value : Tree → Json
  | .null => .null
  | .bool b => .bool b
  | .number numeral => numeral.value?.getD .null
  | .text s => .text s
  | .array items => .array (itemValues items)
  | .object members => .ofMembers (memberValues members)

def itemValues : List Tree → List Json
  | [] => []
  | item :: rest => item.value :: itemValues rest

def memberValues : List (String × Tree) → List (String × Json)
  | [] => []
  | (name, member) :: rest => (name, member.value) :: memberValues rest

end

end Tree

end LeafStore.Json
