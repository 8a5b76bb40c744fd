import LeafStore.FileFault
/-!
Files by name: a tree of folders held in memory, and where a name leads in it. A name is followed
part by part, so that the first part that leads nowhere decides what is wrong with it.
-/
namespace LeafStore

/-- A tree of folders with the files in it. There are no empty folders, except that the one in
which names begin may be empty. -/
structure FileTree where
  /-- The contents of each file, by the names that lead to it from the root. -/
  files : List (List String × String)
  /-- The folder in which a name begins that does not begin at the root. -/
  here : List String

namespace FileTree

def partLimit : Nat := 255

def nameLimit : Nat := 4095

/-- A place that a file or the folder in which names begin is in, or that folder itself. -/
def isFolder (t : FileTree) (place : List String) : Bool :=
  place.isPrefixOf t.here ||
    t.files.any fun file => place.isPrefixOf file.1 && place.length < file.1.length

def contents? (t : FileTree) (place : List String) : Option String := t.files.lookup place

/-- Where one part of a name leads from a place. Only a folder can be gone on from; an empty part
and a point stay in it, and two points leave it. -/
def follow (t : FileTree) (place : List String) (part : String) :
    Except FileFault (List String) :=
  let next := place ++ [part]
  if !t.isFolder place then .error .notFolder
  else if part = "" ∨ part = "." then .ok place
  else if part = ".." then .ok place.dropLast
  else if partLimit < part.utf8ByteSize then .error .nameTooLong
  else if t.isFolder next || (t.contents? next).isSome then .ok next
  else .error .missing

/-- Where a name leads. A name that begins with a slash begins at the root. -/
def resolve (t : FileTree) (name : String) : Except FileFault (List String) :=
  if name = "" then .error .missing
  else if nameLimit < name.utf8ByteSize then .error .nameTooLong
  else
    (name.splitOn "/").foldlM t.follow (if name.toList.head? = some '/' then [] else t.here)

def read (t : FileTree) (name : String) : Except FileFault String := do
  let place ← t.resolve name
  match t.contents? place with
  | some contents => .ok contents
  | none => .error .isFolder

end FileTree

end LeafStore
