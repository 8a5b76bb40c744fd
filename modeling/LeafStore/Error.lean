import LeafStore.FileFault
import LeafStore.Json.Printer
import LeafStore.Json.Reader
import LeafStore.Path
/-!
What can go wrong, by cause, and the one wording of each cause. A text in angle brackets names
the format that an input does not follow.
-/
namespace LeafStore

inductive PathError where
  | malformedIndex (raw : String)
  | longIndex (raw : String)
  | largeIndex (position : Nat)
  | emptyName
  | reservedCharacter (name : String) (c : Char)
  | reservedName (name : String)
  | tooLong (path : Path) (limit : Nat)
  | nestsTooDeep (path : Path) (limit : Nat)
  | arrayTooLong (path : Path) (size limit : Nat)
  | emptyDocumentId
  deriving DecidableEq

namespace PathError

def indexBoundText : String := " exceeds the maximum of " ++ toString (positionCount - 1)

def message : PathError → String
  | malformedIndex raw => "malformed array index '" ++ raw ++ "'"
  | longIndex raw => "array index '" ++ raw ++ "'" ++ indexBoundText
  | largeIndex position => "array index " ++ toString position ++ indexBoundText
  | emptyName => "field names cannot be empty"
  | reservedCharacter name c =>
    "field name '" ++ name ++ "' contains reserved character '" ++ c.toString ++ "'"
  | reservedName name => "field name '" ++ name ++ "' is reserved for empty containers"
  | tooLong path limit =>
    "path '" ++ path.display ++ "' has " ++ toString path.length ++
      " segments, maximum depth is " ++ toString limit
  | nestsTooDeep path limit =>
    "document nests deeper than the maximum depth of " ++ toString limit ++ " below '" ++
      path.display ++ "'"
  | arrayTooLong path size limit =>
    "array at '" ++ path.display ++ "' has " ++ toString size ++ " elements, maximum is " ++
      toString limit
  | emptyDocumentId => "document id cannot be empty"

end PathError

inductive ConfigError where
  | malformed
  | depth (limit : Nat)
  | arrayLength (limit : Nat)
  | pageSizes
  | concurrency
  deriving DecidableEq

def ConfigError.message : ConfigError → String
  | malformed => "<json>"
  | depth limit => "max_depth must be in 1..=" ++ toString limit
  | arrayLength limit => "max_array_length cannot exceed " ++ toString limit
  | pageSizes => "page sizes must be positive"
  | concurrency => "max_concurrency must be positive"

inductive DocumentError where
  | text (fault : Json.Fault)
  | emptyPatch
  | patchNotObject
  | collectionNotObject
  | config (cause : ConfigError)
  | unreadableConfig (file : String) (fault : FileFault)
  deriving DecidableEq

def Json.Fault.message : Json.Fault → String
  | malformed => "<json>"
  | repeatedName name => "duplicate key '" ++ name ++ "'"

def DocumentError.message : DocumentError → String
  | text fault => fault.message
  | emptyPatch => "a patch must contain at least one field"
  | patchNotObject => "a patch payload must be a JSON object"
  | collectionNotObject => "docs file must hold an object of id to document"
  | config cause => "config: " ++ cause.message
  | unreadableConfig file fault => "config " ++ file ++ ": " ++ fault.message

inductive TokenError where
  | malformed
  | notUnicode
  | path (cause : PathError)
  deriving DecidableEq

def invalidPathText : String := "Invalid path: "

def invalidDocumentText : String := "Invalid document: "

def invalidFilterText : String := "Invalid filter: "

def TokenError.message : TokenError → String
  | malformed => "<base64>"
  | notUnicode => "not UTF-8"
  | path cause => invalidPathText ++ cause.message

inductive FilterError where
  | text (fault : Json.Fault)
  | notObject
  | emptyPath
  | malformedPath (raw : String) (cause : PathError)
  | tooDeep (raw : String) (limit : Nat)
  | repeatedPath (path : String)
  | notOperators (raw : String)
  | noOperators (raw : String)
  | unknownOperator (name : String)
  | notScalar (operand : Json)
  | notList (name : String)
  | fieldsText
  | fieldsNotList
  | fieldNotText (item : Json)
  | emptyField
  | malformedField (raw : String) (cause : PathError)
  | token (cause : TokenError)
  | noConditions
  | differentParents

def FilterError.message : FilterError → String
  | text fault => "malformed filter: " ++ invalidDocumentText ++ fault.message
  | notObject => "filter must be a JSON object"
  | emptyPath => "filter paths cannot be empty"
  | malformedPath raw cause => "path '" ++ raw ++ "': " ++ invalidPathText ++ cause.message
  | tooDeep raw limit =>
    "path '" ++ raw ++ "' is deeper than the maximum depth of " ++ toString limit
  | repeatedPath path => "path '" ++ path ++ "' appears more than once"
  | notOperators raw => "conditions for '" ++ raw ++ "' must be an operator object"
  | noOperators raw => "conditions for '" ++ raw ++ "' cannot be empty"
  | unknownOperator name => "unknown operator '" ++ name ++ "'"
  | notScalar operand => "operator values must be scalars, got " ++ operand.compact
  | notList name => name ++ " requires an array of values"
  | fieldsText => "fields: <json>"
  | fieldsNotList => "fields must be a JSON array of strings"
  | fieldNotText item => "field " ++ item.compact ++ " is not a string"
  | emptyField => "field paths cannot be empty"
  | malformedField raw cause => "field '" ++ raw ++ "': " ++ invalidPathText ++ cause.message
  | token cause => "malformed page state: " ++ cause.message
  | noConditions => "filter must contain at least one condition"
  | differentParents => "all filter paths of a document get must share one parent path"

inductive AccessError where
  | unauthenticated
  | denied (reason : String)
  deriving DecidableEq

namespace AccessError

def message : AccessError → String
  | unauthenticated => "Authentication required"
  | denied reason => "Access denied: " ++ reason

def status : AccessError → Nat
  | unauthenticated => 401
  | denied _ => 403

end AccessError

inductive RowError where
  | gap (position : Nat)
  | typedValues (document : String) (path : Path) (count : Nat)
  | markerWithValue (document : String) (path : Path)
  | leafWithDescendants (path : Path)
  | mixedKinds (path : Path)
  deriving DecidableEq

def RowError.message : RowError → String
  | gap position =>
    "empty segment at position " ++ toString position ++ " precedes a non-empty one"
  | typedValues document path count =>
    "document '" ++ document ++ "' path '" ++ path.display ++ "' has " ++ toString count ++
      " typed values"
  | markerWithValue document path =>
    "document '" ++ document ++ "' path '" ++ path.display ++
      "' is an empty-container marker with a value"
  | leafWithDescendants path => "leaf at '" ++ path.display ++ "' also has descendants"
  | mixedKinds path => "'" ++ path.display ++ "' mixes array indexes and object fields"

inductive QueryError where
  | needsFiltering
  | malformedPaging
  | refused (reason : String)
  deriving DecidableEq

def QueryError.message : QueryError → String
  | needsFiltering => "statement restricts non-key columns and requires ALLOW FILTERING"
  | malformedPaging => "paging state: <json>"
  | refused reason => reason

inductive StoreError where
  | unavailable (reason : String)
  | timeout (reason : String)
  | invalidQuery (cause : QueryError)
  deriving DecidableEq

namespace StoreError

def message : StoreError → String
  | unavailable reason => reason
  | timeout reason => "timed out: " ++ reason
  | invalidQuery cause => "invalid query: " ++ cause.message

def isTransient : StoreError → Bool
  | unavailable _ | timeout _ => true
  | invalidQuery _ => false

end StoreError

inductive Error where
  | invalidPath (cause : PathError)
  | invalidDocument (cause : DocumentError)
  | invalidFilter (cause : FilterError)
  | unauthorized (cause : AccessError)
  | corruptRow (cause : RowError)
  | storeUnavailable (cause : StoreError)

namespace Error

def message : Error → String
  | invalidPath cause => invalidPathText ++ cause.message
  | invalidDocument cause => invalidDocumentText ++ cause.message
  | invalidFilter cause => invalidFilterText ++ cause.message
  | unauthorized cause => cause.message
  | corruptRow cause => "Corrupt row: " ++ cause.message
  | storeUnavailable cause => "Row store unavailable: " ++ cause.message

def code : Error → String
  | invalidPath _ => "DOCS_INVALID_PATH"
  | invalidDocument _ => "DOCS_INVALID_DOCUMENT"
  | invalidFilter _ => "DOCS_INVALID_FILTER"
  | unauthorized _ => "DOCS_UNAUTHORIZED"
  | corruptRow _ => "DOCS_CORRUPT_ROW"
  | storeUnavailable _ => "DOCS_ROW_STORE_UNAVAILABLE"

def isClient : Error → Bool
  | invalidPath _ | invalidDocument _ | invalidFilter _ | unauthorized _ => true
  | corruptRow _ | storeUnavailable _ => false

def isRetryable : Error → Bool
  | storeUnavailable cause => cause.isTransient
  | _ => false

end Error

end LeafStore
