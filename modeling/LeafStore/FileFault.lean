/-!
Why a file cannot be read, in the words of the operating system.
-/
namespace LeafStore

inductive FileFault where
  | missing
  | denied
  | notFolder
  | isFolder
  /-- The name, or a part of it, has more bytes than a name can have. -/
  | nameTooLong
  | notText
  | other (reason : String)
  deriving DecidableEq

def FileFault.message : FileFault → String
  | missing => "No such file or directory (os error 2)"
  | denied => "Permission denied (os error 13)"
  | notFolder => "Not a directory (os error 20)"
  | isFolder => "Is a directory (os error 21)"
  | nameTooLong => "File name too long (os error 36)"
  | notText => "stream did not contain valid UTF-8"
  | other reason => reason

end LeafStore
