import LeafStore.Operator
import LeafStore.Pattern
/-!
Filters of documents: conditions on the leaves at the paths that fit a pattern. A condition
holds of a document when one leaf passes all its operators; a filter when all conditions hold.
-/
namespace LeafStore

/-- Operators that one leaf at a path of the pattern has to pass together. -/
structure Condition where
  pattern : Pattern
  operators : List Operator
  deriving DecidableEq

namespace Condition

def accepts (c : Condition) (cell : Cell) : Bool :=
  c.pattern.accepts cell.path && c.operators.all (·.accepts cell.leaf)

def holds (c : Condition) (cells : List Cell) : Bool :=
  cells.any c.accepts

def display (c : Condition) : String :=
  c.pattern.display ++ " \x7b" ++ String.intercalate ", " (c.operators.map Operator.display) ++
    "\x7d"

def under (base : Path) (c : Condition) : Condition :=
  { c with pattern := c.pattern.under base }

/-- The first operator that a store can evaluate, as the store evaluates it. -/
def pushdown? (c : Condition) : Option Predicate :=
  c.operators.findSome? Operator.pushdown?

end Condition

/-- Conditions that hold together, at most one for each pattern. -/
abbrev Filter := List Condition

namespace Filter

def admitPattern (maxDepth : Nat) (seen : Filter) (raw : String) (p : Pattern) :
    Except FilterError Unit :=
  if maxDepth < p.length then .error (.tooDeep raw maxDepth)
  else if seen.any (·.pattern = p) then .error (.repeatedPath p.display)
  else .ok ()

def readOperators (raw : String) : Json → Except FilterError (List Operator)
  | .object [] => .error (.noOperators raw)
  | .object members => members.mapM fun (name, operand) => Operator.read name operand
  | _ => .error (.notOperators raw)

def readCondition (maxDepth : Nat) (seen : Filter) (raw : String) (operators : Json) :
    Except FilterError Filter := do
  let pattern ← Pattern.read raw
  admitPattern maxDepth seen raw pattern
  let operators ← readOperators raw operators
  pure (seen ++ [⟨pattern, operators⟩])

def ofJson (maxDepth : Nat) : Json → Except FilterError Filter
  | .object members =>
    members.foldlM (fun seen member => readCondition maxDepth seen member.1 member.2) []
  | _ => .error .notObject

def ofText (maxDepth : Nat) (raw : String) : Except FilterError Filter := do
  let json ← (Json.ofText .document raw).mapError .text
  ofJson maxDepth json

def under (base : Path) (f : Filter) : Filter :=
  f.map (Condition.under base)

def accepts (f : Filter) (cells : List Cell) : Bool :=
  f.all (·.holds cells)

end Filter

end LeafStore
