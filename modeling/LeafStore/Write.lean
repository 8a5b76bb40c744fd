import LeafStore.Config
import LeafStore.Mutation
/-!
Writes of documents. A value written at a path becomes one row for each of its leaves, and
deletions of what it replaces: at the path itself, and on the way there whatever is of another
kind than the path needs.
-/
namespace LeafStore

structure Limits where
  maxDepth : Nat
  maxArrayLength : Nat
  deriving DecidableEq

def Config.limits (c : Config) : Limits := ⟨c.maxDepth, c.maxArrayLength⟩

structure Batch where
  document : String
  writeTime : Int
  deletions : List Deletion
  rows : List Row

namespace Batch

/-- The changes in the order in which they are applied: deletions first. -/
def mutations (b : Batch) : List Mutation :=
  b.deletions.map .delete ++ b.rows.map .insert

def size (b : Batch) : Nat := b.deletions.length + b.rows.length

end Batch

namespace Limits

structure Target where
  document : String
  writeTime : Int

def leafRow (limits : Limits) (t : Target) (path : Path) (leaf : Leaf) :
    Except PathError (List Row) :=
  (Row.encode t.document path leaf limits.maxDepth t.writeTime).map ([·])

/-- Refuse a container where no column is left for what is in it. -/
def checkRoom (limits : Limits) (path : Path) : Except PathError Unit :=
  if limits.maxDepth ≤ path.length then .error (.nestsTooDeep path limits.maxDepth) else .ok ()

def checkLength (limits : Limits) (path : Path) (size : Nat) : Except PathError Unit :=
  if limits.maxArrayLength < size then .error (.arrayTooLong path size limits.maxArrayLength)
  else .ok ()

mutual

def rows (limits : Limits) (t : Target) (path : Path) : Json → Except PathError (List Row)
  | .null => limits.leafRow t path .null
  | .bool b => limits.leafRow t path (.bool b)
  | .int n => limits.leafRow t path (.number (Double.ofInt n))
  | .float d => limits.leafRow t path (.number d)
  | .text s => limits.leafRow t path (.text s)
  | .array [] => limits.leafRow t path .emptyArray
  | .array (item :: rest) => do
    limits.checkRoom path
    limits.checkLength path (rest.length + 1)
    let segment ← Segment.ofPosition 0
    let first ← rows limits t (path.child segment) item
    let others ← itemRows limits t path 1 rest
    pure (first ++ others)
  | .object [] => limits.leafRow t path .emptyObject
  | .object ((name, value) :: rest) => do
    limits.checkRoom path
    let segment ← Segment.ofName name
    let first ← rows limits t (path.child segment) value
    let others ← memberRows limits t path rest
    pure (first ++ others)

def itemRows (limits : Limits) (t : Target) (path : Path) (position : Nat) :
    List Json → Except PathError (List Row)
  | [] => .ok []
  | item :: rest => do
    let segment ← Segment.ofPosition position
    let first ← rows limits t (path.child segment) item
    let others ← itemRows limits t path (position + 1) rest
    pure (first ++ others)

def memberRows (limits : Limits) (t : Target) (path : Path) :
    List (String × Json) → Except PathError (List Row)
  | [] => .ok []
  | (name, value) :: rest => do
    let segment ← Segment.ofName name
    let first ← rows limits t (path.child segment) value
    let others ← memberRows limits t path rest
    pure (first ++ others)

end

def earliestTime : Int := -(2 ^ 63 : Nat)

/-- Deletions of a write come just before its rows, unless nothing comes before them. -/
def deletionTime (writeTime : Int) : Int := max earliestTime (writeTime - 1)

/-- Deletions at one place on the way to a path that goes on with `next`: the leaf there, and
whatever goes on with a segment of the other kind. -/
def reshaping (document : String) (time : Int) (place : Path) : Segment → List Deletion
  | .field _ =>
    [⟨document, place, .keys [""], time⟩, ⟨document, place, .range .indexes, time⟩]
  | .index _ =>
    [⟨document, place, .range .belowIndexes, time⟩,
      ⟨document, place, .range .aboveIndexes, time⟩]

def ancestorDeletions (document : String) (time : Int) (path : Path) : List Deletion :=
  path.zipIdx.flatMap fun (next, depth) => reshaping document time (path.take depth) next

def replacing (document : String) (time : Int) (path : Path) : List Deletion :=
  [⟨document, path, .subtree, time⟩]

/-- The deletions at the path of a patch: an array or a leaf there, and the members named. -/
def merging (document : String) (time : Int) (path : Path) (names : List String) :
    List Deletion :=
  [⟨document, path, .range .indexes, time⟩, ⟨document, path, .keys ("" :: names), time⟩]

def patchedNames : Json → Except DocumentError (List String)
  | .object [] => .error .emptyPatch
  | .object members => .ok (members.map (·.1))
  | _ => .error .patchNotObject

def targetDeletions (patching : Bool) (document : String) (time : Int) (path : Path)
    (value : Json) : Except DocumentError (List Deletion) :=
  if patching then (patchedNames value).map (merging document time path)
  else .ok (replacing document time path)

def put (limits : Limits) (document : String) (path : Path) (value : Json) (patching : Bool)
    (writeTime : Int) : Except Error Batch := do
  (path.checkDepth limits.maxDepth).mapError .invalidPath
  let time := deletionTime writeTime
  let rows ← (limits.rows ⟨document, writeTime⟩ path value).mapError .invalidPath
  let deletions ← (targetDeletions patching document time path value).mapError .invalidDocument
  pure ⟨document, writeTime, deletions ++ ancestorDeletions document time path, rows⟩

def delete (limits : Limits) (document : String) (path : Path) (writeTime : Int) :
    Except PathError Batch := do
  path.checkDepth limits.maxDepth
  pure ⟨document, writeTime, replacing document writeTime path, []⟩

end Limits

namespace Mutation

def describeRow (row : Row) : Json :=
  .ofMembers
    [("op", .text "insert"),
      ("segments", .array ((row.segments.takeWhile (!·.isEmpty)).map .text)),
      ("leaf", .text row.leaf),
      ("text_value", .ofText? row.text),
      ("dbl_value", row.number.elim .null Json.ofDoubleExactly),
      ("bool_value", row.bool.elim .null .bool),
      ("write_time", .int row.writeTime)]

def describeRange (d : Deletion) (range : Json) : Json :=
  .ofMembers
    [("op", .text "delete_range"), ("prefix", .text d.path.dotted), ("range", range),
      ("write_time", .int d.writeTime)]

def describeKeys (d : Deletion) (keys : List String) : Json :=
  .ofMembers
    [("op", .text "delete_keys"), ("prefix", .text d.path.dotted),
      ("keys", .array (keys.map .text)), ("write_time", .int d.writeTime)]

def describe : Mutation → Json
  | insert row => describeRow row
  | delete d =>
    match d.scope with
    | .subtree => describeRange d .null
    | .range interval => describeRange d (.text interval.display)
    | .keys keys => describeKeys d keys

end Mutation

def Batch.describe (b : Batch) : Json := .array (b.mutations.map Mutation.describe)

end LeafStore
