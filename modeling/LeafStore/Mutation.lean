import LeafStore.Select
/-!
Changes of a document table: rows written, and deletions that shadow rows by their columns.
-/
namespace LeafStore

inductive Bound where
  | included (text : String)
  | excluded (text : String)
  | unbounded
  deriving DecidableEq

structure SegmentRange where
  lower : Bound
  upper : Bound
  deriving DecidableEq

namespace SegmentRange

def indexes : SegmentRange :=
  ⟨.included Segment.firstIndexText, .included Segment.lastIndexText⟩

/-- The columns before all positions: the empty one, and names that sort before a bracket. -/
def belowIndexes : SegmentRange := ⟨.unbounded, .excluded Segment.firstIndexText⟩

def aboveIndexes : SegmentRange := ⟨.excluded Segment.lastIndexText, .unbounded⟩

def fromLower (range : SegmentRange) (column : String) : Bool :=
  match range.lower with
  | .included text => !(column < text)
  | .excluded text => text < column
  | .unbounded => true

def toUpper (range : SegmentRange) (column : String) : Bool :=
  match range.upper with
  | .included text => !(text < column)
  | .excluded text => column < text
  | .unbounded => true

def contains (range : SegmentRange) (column : String) : Bool :=
  range.fromLower column && range.toUpper column

def display (range : SegmentRange) : String :=
  let lower :=
    match range.lower with
    | .included text => "[" ++ Text.quoted text
    | .excluded text => "(" ++ Text.quoted text
    | .unbounded => "(-inf"
  let upper :=
    match range.upper with
    | .included text => Text.quoted text ++ "]"
    | .excluded text => Text.quoted text ++ ")"
    | .unbounded => "+inf)"
  lower ++ ", " ++ upper

end SegmentRange

inductive Scope where
  | subtree
  | range (interval : SegmentRange)
  /-- Those whose next column is one of the keys; the empty key is the row at the path. -/
  | keys (columns : List String)
  deriving DecidableEq

def Scope.covers : Scope → String → Bool
  | subtree, _ => true
  | range interval, next => interval.contains next
  | keys columns, next => columns.contains next

/-- A deletion inside one document. It stays in force against rows that arrive later. -/
structure Deletion where
  document : String
  path : Path
  scope : Scope
  writeTime : Int
  deriving DecidableEq

namespace Deletion

/-- The first column after the path of the deletion, empty where the row ends there. -/
def nextColumn (d : Deletion) (segments : List String) : String :=
  (segments[d.path.length]?).getD ""

def covers (d : Deletion) (segments : List String) : Bool :=
  d.path.columns.isPrefixOf segments && d.scope.covers (d.nextColumn segments)

/-- A row is deleted: it is covered, and not written later. A tie goes to the deletion. -/
def shadows (d : Deletion) (row : Row) : Bool :=
  row.writeTime ≤ d.writeTime && d.covers row.segments

end Deletion

inductive Mutation where
  | insert (row : Row)
  | delete (deletion : Deletion)
  deriving DecidableEq

namespace Mutation

def document : Mutation → String
  | insert row => row.document
  | delete deletion => deletion.document

def writeTime : Mutation → Int
  | insert row => row.writeTime
  | delete deletion => deletion.writeTime

end Mutation

end LeafStore
