import LeafStore.Path.Parser
/-!
Projections: the fields of a document that a reader asks for.
-/
namespace LeafStore

abbrev Projection := List Path

namespace Projection

def readField : Json → Except FilterError Path
  | .text raw =>
    if raw.isEmpty then .error .emptyField
    else (Path.ofDotted raw).mapError (.malformedField raw)
  | json => .error (.fieldNotText json)

/-- The projection that a JSON value is; an empty list asks for everything. -/
def ofJson : Json → Except FilterError (Option Projection)
  | .array items => do
    let fields ← items.mapM readField
    pure (if fields.isEmpty then none else some fields)
  | _ => .error .fieldsNotList

def ofText (raw : String) : Except FilterError (Option Projection) :=
  match Json.ofText .fields raw with
  | .ok json => ofJson json
  | .error _ => .error .fieldsText

def includes (fields : Projection) (path : Path) : Bool :=
  fields.any (·.isPrefixOf path)

def maxLength (fields : Projection) : Nat :=
  (fields.map List.length).foldl max 0

end Projection

end LeafStore
