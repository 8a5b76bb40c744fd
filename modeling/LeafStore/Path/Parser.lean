import LeafStore.Error
import LeafStore.Text.DecimalDigit
/-!
Reading segments and dotted paths as callers write them.
-/
namespace LeafStore

/-- What the leaf column of an empty object holds; no member may be called so. -/
def emptyObjectMarker : String := "␀EMPTY_OBJECT"

/-- What the leaf column of an empty array holds; no member may be called so. -/
def emptyArrayMarker : String := "␀EMPTY_ARRAY"

namespace Segment

def isReserved (c : Char) : Bool :=
  c = '[' || c = ']' || c = '.' || c = '*'

def ofName (name : String) : Except PathError Segment :=
  if name.isEmpty then .error .emptyName
  else
    match name.toList.find? isReserved with
    | some c => .error (.reservedCharacter name c)
    | none =>
      if name = emptyObjectMarker ∨ name = emptyArrayMarker then .error (.reservedName name)
      else .ok (field name)

def ofPosition (position : Nat) : Except PathError Segment :=
  if h : position < positionCount then .ok (index ⟨position, h⟩)
  else .error (.largeIndex position)

def bracketed? : List Char → Option (List Char)
  | '[' :: rest => if rest.getLast? = some ']' then some rest.dropLast else none
  | _ => none

def byteLength (chars : List Char) : Nat :=
  chars.foldl (fun bytes c => bytes + c.utf8Size) 0

/-- A position between brackets. The digits of every script are digits here, but only those of
ASCII are read, at most six of them. -/
def readIndex (raw : String) : Except PathError Segment :=
  match bracketed? raw.toList with
  | none => .error (.malformedIndex raw)
  | some digits =>
    if digits.isEmpty || !digits.all Text.isDecimalDigit then .error (.malformedIndex raw)
    else if 6 < byteLength digits then .error (.longIndex raw)
    else if !digits.all Char.isDigit then .error (.malformedIndex raw)
    else ofPosition (Text.digitsValue digits)

def read (raw : String) : Except PathError Segment :=
  if raw.toList.head? = some '[' then readIndex raw else ofName raw

end Segment

namespace Path

def splitPoints : List Char → List (List Char)
  | [] => [[]]
  | c :: rest =>
    if c = '.' then [] :: splitPoints rest
    else
      match splitPoints rest with
      | [] => [[c]]
      | piece :: pieces => (c :: piece) :: pieces

def pieces (raw : String) : List String :=
  (splitPoints raw.toList).map String.ofList

def ofSegments (raw : List String) : Except PathError Path :=
  raw.mapM Segment.read

def ofDotted (raw : String) : Except PathError Path :=
  if raw.isEmpty then .ok root else ofSegments (pieces raw)

def checkDepth (limit : Nat) (p : Path) : Except PathError Unit :=
  if limit < p.length then .error (.tooLong p limit) else .ok ()

def toColumns (width : Nat) (p : Path) : Except PathError (List String) :=
  (p.checkDepth width).map fun _ => p.padded width

def usedColumns (columns : List String) : List String :=
  (columns.reverse.dropWhile String.isEmpty).reverse

/-- The path that columns hold. Only the columns after the path may be empty. -/
def ofColumns (columns : List String) : Except RowError Path :=
  let used := usedColumns columns
  match used.findIdx? String.isEmpty with
  | some position => .error (.gap position)
  | none => .ok (used.map Segment.ofColumn)

end Path

end LeafStore
