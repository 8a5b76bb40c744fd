import LeafStore.Projection
import LeafStore.Row
/-!
Documents put together again from their leaves. Leaves that contradict each other, such as a
leaf with others below it, are an error and not a document.
-/
namespace LeafStore

namespace Assembly

abbrev Branch := List (Path × Leaf)

/-- Neighbouring leaves whose paths begin with the same segment, each without that segment. -/
def groups : Branch → List (Segment × Branch)
  | [] => []
  | ([], _) :: rest => groups rest
  | (segment :: path, leaf) :: rest =>
    match groups rest with
    | (other, branch) :: more =>
      if segment = other then (segment, (path, leaf) :: branch) :: more
      else (segment, [(path, leaf)]) :: (other, branch) :: more
    | [] => [(segment, [(path, leaf)])]

/-- Items at their positions, with null at each position that has none. -/
def placeItems (items : List (Segment × Json)) : List Json :=
  items.foldl
    (fun placed (segment, item) =>
      match segment with
      | .index position =>
        placed.take position ++ List.replicate (position - placed.length) .null ++ [item]
      | .field _ => placed ++ [item])
    []

def placeMembers (members : List (Segment × Json)) : List (String × Json) :=
  Sorted.ofPairs (members.map fun (segment, member) => (segment.column, member))

/-- The container of the given parts: an array if all have positions, an object if none has. -/
def container (place : Path) (kinds : List Segment)
    (parts : Except RowError (List (Segment × Json))) : Except RowError Json :=
  if kinds.all Segment.isIndex then parts.map fun items => .array (placeItems items)
  else if kinds.any Segment.isIndex then .error (.mixedKinds place)
  else parts.map fun members => .object (placeMembers members)

/-- The value of leaves in the order of their paths, below a place. No path is longer than
`height`. -/
def build : (height : Nat) → (place : Path) → Branch → Except RowError Json
  | _, _, [] => .ok .null
  | _, _, [([], leaf)] => .ok leaf.toJson
  | _, place, ([], _) :: _ :: _ => .error (.leafWithDescendants place)
  | 0, _, (_ :: _, _) :: _ => .ok .null
  | height + 1, place, (segment :: path, leaf) :: rest =>
    let parts := groups ((segment :: path, leaf) :: rest)
    container place (parts.map (·.1))
      (parts.mapM fun part =>
        (build height (place.child part.1) part.2).map fun json => (part.1, json))

def height (branch : Branch) : Nat :=
  (branch.map (·.1.length)).foldl max 0

def inOrder (branch : Branch) : Branch :=
  branch.mergeSort fun a b => !decide (b.1 < a.1)

def buildAll (branch : Branch) : Except RowError Json :=
  build (height branch) Path.root (inOrder branch)

def below (base : Path) (cells : List Cell) : Branch :=
  cells.filterMap fun cell => (base.below? cell.path).map fun rest => (rest, cell.leaf)

def projected (fields : Option Projection) (branch : Branch) : Branch :=
  match fields with
  | none => branch
  | some fields => branch.filter fun entry => fields.includes entry.1

/-- The value at a path of the document with the given leaves; none where no leaf is at the path
or below it. A projection that asks for none of them leaves an empty object. -/
def assemble (base : Path) (fields : Option Projection) (cells : List Cell) :
    Except RowError (Option Json) :=
  let branch := below base cells
  if branch.isEmpty then .ok none
  else
    let kept := projected fields branch
    if kept.isEmpty then .ok (some (.object [])) else (buildAll kept).map some

def ofRows (base : Path) (fields : Option Projection) (rows : List Row) :
    Except RowError (Option Json) := do
  let cells ← rows.mapM Row.decode
  assemble base fields cells

def byDocument (cells : List Cell) : List (String × List Cell) :=
  cells.foldl (fun map cell => Sorted.update cell.document [] (· ++ [cell]) map) []

/-- The values at a path of several documents, by id, without those that have none. -/
def ofManyRows (base : Path) (fields : Option Projection) (rows : List Row) :
    Except RowError (List (String × Json)) := do
  let cells ← rows.mapM Row.decode
  let found ← (byDocument cells).mapM fun (document, cells) =>
    (assemble base fields cells).map fun json => json.map (document, ·)
  pure (found.filterMap id)

end Assembly

namespace Json

def step? : Json → Segment → Option Json
  | .object members, .field name => members.lookup name
  | .array items, .index position => items[position.val]?
  | _, _ => none

def at? (json : Json) (path : Path) : Option Json :=
  path.foldlM step? json

end Json

end LeafStore
