import LeafStore.Leaf
/-!
Rows of the document table: one leaf each, its path in the clustering columns and its value in
the column of its type.
-/
namespace LeafStore

structure Row where
  document : String
  /-- The clustering columns: the path, then empty texts. -/
  segments : List String
  /-- The last segment of the path, or the marker of an empty container. -/
  leaf : String
  text : Option String
  number : Option Double
  bool : Option Bool
  writeTime : Int
  deriving DecidableEq

namespace Row

def leafColumn (path : Path) (leaf : Leaf) : String :=
  match leaf.marker? with
  | some marker => marker
  | none => (path.getLast?.map Segment.column).getD ""

def ofColumns (document : String) (columns : List String) (path : Path) (leaf : Leaf)
    (writeTime : Int) : Row where
  document := document
  segments := columns
  leaf := leafColumn path leaf
  text := match leaf with | .text s => some s | _ => none
  number := match leaf with | .number d => some d | _ => none
  bool := match leaf with | .bool b => some b | _ => none
  writeTime := writeTime

def encode (document : String) (path : Path) (leaf : Leaf) (width : Nat) (writeTime : Int) :
    Except PathError Row :=
  (path.toColumns width).map fun columns => ofColumns document columns path leaf writeTime

def typedCount (row : Row) : Nat :=
  row.text.isSome.toNat + row.number.isSome.toNat + row.bool.isSome.toNat

def scalar (row : Row) : Leaf :=
  match row.text, row.number, row.bool with
  | some s, _, _ => .text s
  | none, some d, _ => .number d
  | none, none, some b => .bool b
  | none, none, none => .null

/-- The leaf of a row at a known path. A row has at most one typed value, and none beside the
marker of an empty container. -/
def decodeLeaf (row : Row) (path : Path) : Except RowError Leaf :=
  if 1 < row.typedCount then .error (.typedValues row.document path row.typedCount)
  else if row.leaf = emptyObjectMarker ∨ row.leaf = emptyArrayMarker then
    if 0 < row.typedCount then .error (.markerWithValue row.document path)
    else .ok (if row.leaf = emptyObjectMarker then .emptyObject else .emptyArray)
  else .ok row.scalar

def decode (row : Row) : Except RowError Cell := do
  let path ← Path.ofColumns row.segments
  let leaf ← row.decodeLeaf path
  pure ⟨row.document, path, leaf, row.writeTime⟩

end Row

end LeafStore
