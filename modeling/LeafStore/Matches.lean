import LeafStore.Search
/-!
Searches inside one document: the places below a base whose leaves meet every condition of a
filter, a page at a time in the order of their paths.
-/
namespace LeafStore

structure MatchQuery where
  base : Path
  /-- Conditions on paths from the root, whose patterns have one parent. -/
  conditions : Filter
  parent : Pattern
  fields : Option Projection
  pageSize : Nat
  /-- The place that the page before this one ended with. -/
  after : Option Path

structure MatchPage where
  results : List Json
  /-- The token of the last place, if there are more. -/
  pageState : Option String

namespace MatchQuery

def readToken (token : String) : Except FilterError Path := do
  let key ← Query.readToken token
  (Path.ofDotted key).mapError fun cause => .token (.path cause)

def sharedParent : Filter → Except FilterError Pattern
  | [] => .error .noConditions
  | first :: others =>
    if others.all fun c => c.pattern.parent = first.pattern.parent then
      .ok first.pattern.parent
    else .error .differentParents

def resuming (base : Path) (filter : Filter) (fields : Option Projection) (pageSize : Nat)
    (token : Option String) : Except FilterError MatchQuery := do
  let after ← token.mapM readToken
  let conditions := filter.under base
  let parent ← sharedParent conditions
  pure ⟨base, conditions, parent, fields, pageSize, after⟩

/-- A single condition is evaluated by the store as far as it can. -/
def narrow (c : Condition) (s : Select) : Select :=
  let byLeaf := (c.pattern.lastColumn?.map s.withLeaf).getD s
  (c.pushdown?.map byLeaf.withValue).getD byLeaf

/-- The select for the leaves that matter. A projection needs the leaves that meet no condition,
and so do conditions that different leaves may meet. -/
def select (q : MatchQuery) (document : String) : Select :=
  let s := (Select.ofDocument document).below q.parent.fixedPart
  match q.conditions, q.fields with
  | [condition], none => narrow condition s
  | _, _ => s

def places (cells : List Cell) (c : Condition) : List Path :=
  Sorted.ofKeys ((cells.filter c.accepts).map fun cell => cell.path.parent)

/-- The places with a leaf for every condition, after the last page. -/
def remaining (q : MatchQuery) (cells : List Cell) : List Path :=
  (Engine.common (q.conditions.map (places cells))).filter fun place => q.after.all (· < place)

def selects (q : MatchQuery) (place : Path) (cell : Cell) : Bool :=
  match q.fields with
  | some fields => (place.below? cell.path).any fields.includes
  | none => cell.path.parent = place && q.conditions.any (·.accepts cell)

def result (q : MatchQuery) (cells : List Cell) (place : Path) : Except RowError Json :=
  (Assembly.assemble q.base none (cells.filter (q.selects place))).map (·.getD (.object []))

def page (q : MatchQuery) (cells : List Cell) : Except RowError MatchPage :=
  let remaining := q.remaining cells
  let taken := remaining.take q.pageSize
  (taken.mapM (q.result cells)).map fun results =>
    { results := results
      pageState :=
        if taken.length < remaining.length then
          taken.getLast?.map fun place => PageToken.encode place.dotted
        else none }

end MatchQuery

def Engine.findMatches {σ : Type} (e : Engine σ) (table : TableName) (document : String)
    (q : MatchQuery) : Access σ MatchPage := do
  let rows ← e.readAll table (q.select document)
  let cells ← Engine.decodeRows rows
  Access.row (q.page cells)

end LeafStore
