import LeafStore.Filter
/-!
Search plans: for each condition, whether the store can narrow down the candidate documents, and
the select that does.
-/
namespace LeafStore

inductive Strategy where
  /-- The documents that meet the condition, and no others. -/
  | pushdown
  /-- The documents that meet the condition, and others. -/
  | superset
  | inMemory
  deriving DecidableEq

def Strategy.name : Strategy → String
  | pushdown => "PUSHDOWN"
  | superset => "SUPERSET"
  | inMemory => "IN_MEMORY"

namespace PatternStep

/-- The test of the column that a step is about. A step left open asks for any segment. -/
def columnTest : PatternStep → ColumnTest
  | exact segment => .equals segment.column
  | wildcard => .greater ""

end PatternStep

namespace Pattern

def columnTests (p : Pattern) (width : Nat) : List SegmentTest :=
  (p.map PatternStep.columnTest ++
      List.replicate (width - p.length) (ColumnTest.equals "")).zipIdx.map
    fun (test, position) => ⟨position, test⟩

end Pattern

namespace Condition

def strategy (c : Condition) : Strategy :=
  if c.pushdown?.isNone then .inMemory
  else if c.pattern.hasWildcard then .superset
  else .pushdown

def candidateSelect (maxDepth : Nat) (c : Condition) (p : Predicate) : Select :=
  { document := none
    segments := c.pattern.columnTests maxDepth
    leaf := c.pattern.lastColumn?
    value := some p
    columns := .keyAndLeaf
    allowFiltering := true }

def candidates? (maxDepth : Nat) (c : Condition) : Option Select :=
  c.pushdown?.map (c.candidateSelect maxDepth)

def explain (c : Condition) : Json :=
  .ofMembers
    ([("path", .text c.pattern.display), ("strategy", .text c.strategy.name),
      ("operators", .array (c.operators.map fun o => .text o.display))] ++
      (c.pushdown?.map fun p => ("pushed", Json.text p.display)).toList)

def explainText (c : Condition) : String :=
  "  - " ++ c.pattern.display ++ " [" ++ c.strategy.name ++ "] " ++
    String.intercalate ", " (c.operators.map Operator.display) ++ "\n" ++
    (c.pushdown?.map fun p => "      pushed: " ++ p.display ++ "\n").getD ""

end Condition

namespace Filter

/-- The selects for candidate documents, in the order of the conditions. -/
def candidateSelects (maxDepth : Nat) (f : Filter) : List Select :=
  f.filterMap (Condition.candidates? maxDepth)

def isFullScan (f : Filter) : Bool :=
  f.all fun c => c.pushdown?.isNone

def scanType (f : Filter) : String :=
  if f.isFullScan then "FULL_SCAN" else "CANDIDATE_QUERIES"

def explain (maxDepth : Nat) (f : Filter) : Json :=
  .ofMembers
    [("scan_type", .text f.scanType),
      ("candidate_queries", .int (f.candidateSelects maxDepth).length),
      ("conditions", .array (f.map Condition.explain))]

def explainText (maxDepth : Nat) (f : Filter) : String :=
  "=== EXPLAIN PLAN ===\n" ++ "Scan Type: " ++ f.scanType ++ "\n" ++
    "Candidate Queries: " ++ toString (f.candidateSelects maxDepth).length ++ "\n" ++
    (if f.isEmpty then "" else "Conditions:\n" ++ String.join (f.map Condition.explainText))

end Filter

end LeafStore
