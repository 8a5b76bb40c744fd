import LeafStore.Row
import LeafStore.Double.Layout
import LeafStore.Text.Quoted
/-!
Select statements over the document table: tests on columns that a store evaluates row by row,
and where a page of the answer begins.
-/
namespace LeafStore

structure TableName where
  keyspace : String
  table : String
  deriving DecidableEq

inductive ColumnTest where
  | equals (text : String)
  | greater (text : String)
  deriving DecidableEq

def ColumnTest.accepts : ColumnTest → String → Bool
  | equals text, column => column = text
  | greater text, column => text < column

structure SegmentTest where
  position : Nat
  test : ColumnTest
  deriving DecidableEq

def SegmentTest.accepts (t : SegmentTest) (segments : List String) : Bool :=
  segments[t.position]?.any t.test.accepts

inductive Comparison where
  | eq
  | gt
  | ge
  | lt
  | le
  deriving DecidableEq

namespace Comparison

def sign : Comparison → String
  | eq => "="
  | gt => ">"
  | ge => ">="
  | lt => "<"
  | le => "<="

def holds : Comparison → Ordering → Bool
  | eq, o => o = .eq
  | gt, o => o = .gt
  | ge, o => o ≠ .lt
  | lt, o => o = .lt
  | le, o => o ≠ .gt

end Comparison

def textOrder (a b : String) : Ordering :=
  if a < b then .lt else if b < a then .gt else .eq

def boolOrder (a b : Bool) : Ordering :=
  compare a.toNat b.toNat

inductive Literal where
  | text (value : String)
  | number (value : Double)
  | bool (value : Bool)
  deriving DecidableEq

namespace Literal

def columnName : Literal → String
  | text _ => "text_value"
  | number _ => "dbl_value"
  | bool _ => "bool_value"

def display : Literal → String
  | text s => Text.quoted s
  | number d => d.plain
  | bool b => toString b

end Literal

structure Predicate where
  comparison : Comparison
  literal : Literal
  deriving DecidableEq

namespace Predicate

/-- How the typed column of a row compares with the literal; an empty column does not. -/
def order? (p : Predicate) (row : Row) : Option Ordering :=
  match p.literal with
  | .text s => row.text.map fun value => textOrder value s
  | .number d => row.number.bind fun value => value.compare? d
  | .bool b => row.bool.map fun value => boolOrder value b

def accepts (p : Predicate) (row : Row) : Bool :=
  (p.order? row).any p.comparison.holds

def display (p : Predicate) : String :=
  p.literal.columnName ++ " " ++ p.comparison.sign ++ " " ++ p.literal.display

end Predicate

inductive Columns where
  | full
  /-- The document id, the leaf column and the write time. -/
  | keyAndLeaf
  deriving DecidableEq

structure Select where
  document : Option String := none
  segments : List SegmentTest := []
  leaf : Option String := none
  value : Option Predicate := none
  columns : Columns := .full
  /-- The caller accepts that rows are read which do not match. -/
  allowFiltering : Bool := false
  after : Option String := none
  pageSize : Option Nat := none
  paging : Option String := none
  deriving DecidableEq

namespace Select

def ofDocument (document : String) : Select := { document := some document }

def scan : Select := { allowFiltering := true }

def pathTests (path : Path) : List SegmentTest :=
  path.columns.zipIdx.map fun (column, position) => ⟨position, .equals column⟩

def below (s : Select) (path : Path) : Select :=
  { s with segments := s.segments ++ pathTests path }

def withLeaf (s : Select) (leaf : String) : Select :=
  { s with leaf := some leaf, allowFiltering := true }

def withValue (s : Select) (p : Predicate) : Select :=
  { s with value := some p, allowFiltering := true }

def accepts (s : Select) (row : Row) : Bool :=
  s.document.all (· = row.document) && s.leaf.all (· = row.leaf) &&
    s.segments.all (·.accepts row.segments) && s.value.all (·.accepts row)

def isEquality : ColumnTest → Bool
  | .equals _ => true
  | .greater _ => false

def isLeadingRun (positions : List Nat) : Bool :=
  positions.mergeSort (· ≤ ·) = List.range positions.length

/-- The statement restricts more than the partition and a leading run of clustering columns by
equality. -/
def needsFiltering (s : Select) : Bool :=
  s.document.isNone || s.leaf.isSome || s.value.isSome ||
    !s.segments.all (isEquality ·.test) || !isLeadingRun (s.segments.map (·.position))

def columnsOf (s : Select) (row : Row) : Row :=
  match s.columns with
  | .full => row
  | .keyAndLeaf => { row with segments := [], text := none, number := none, bool := none }

end Select

end LeafStore
