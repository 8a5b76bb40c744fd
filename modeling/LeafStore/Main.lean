import LeafStore.CommandLine
import Std.Time.DateTime.Timestamp
/-!
The program: what the command line asks for is read from the file system and the input, and the
answer is printed on one line.
-/
namespace LeafStore.CommandLine

def errorNumber (code : UInt32) : UInt32 := min code (-code)

def faultOf (error : IO.Error) : FileFault :=
  match error with
  | .noFileOrDirectory .. => .missing
  | .permissionDenied .. => .denied
  | .inappropriateType _ code _ => if errorNumber code = 20 then .notFolder else .isFolder
  | .invalidArgument _ code _ =>
    if errorNumber code = 36 then .nameTooLong else .other (toString error)
  | _ => .other (toString error)

def textOf (bytes : ByteArray) : Except FileFault String :=
  match String.fromUTF8? bytes with
  | some text => .ok text
  | none => .error .notText

def readContents (name : String) : IO (Except FileFault String) := do
  try
    let contents ← IO.FS.readBinFile name
    pure (textOf contents)
  catch error => pure (.error (faultOf error))

partial def readRest (stream : IO.FS.Stream) (before : ByteArray) : IO ByteArray := do
  let bytes ← stream.read 65536
  if bytes.isEmpty then pure before else readRest stream (before ++ bytes)

def readInput : IO (Except FileFault String) := do
  try
    let stream ← IO.getStdin
    let input ← readRest stream ByteArray.empty
    pure (textOf input)
  catch error => pure (.error (faultOf error))

def microseconds : IO Int := do
  let now ← Std.Time.Timestamp.now
  pure (now.toNanosecondsSinceUnixEpoch.val / 1000)

def look (invocation : Option Invocation) : IO Surroundings := do
  let names := (invocation.map filesNeeded).getD []
  let files ← names.mapM fun name => do
    let contents ← readContents name
    pure (name, contents)
  let input ← if invocation.any needsInput then readInput else pure (.ok "")
  let now ← microseconds
  pure
    { file := fun name => (files.lookup name).getD (.error .missing)
      input := input
      now := now }

def usage : String :=
  "Usage: leafstore [--config FILE] decompose [--id ID] [--path PATH] [--patch]\n" ++
  "       leafstore [--config FILE] search --docs FILE [--where FILTER] [--fields FIELDS]\n" ++
  "                 [--page-size N] [--page-state TOKEN] [--raw]\n" ++
  "       leafstore [--config FILE] explain --where FILTER"

end LeafStore.CommandLine

open LeafStore CommandLine in
def main (arguments : List String) : IO UInt32 := do
  let surroundings ← look (read arguments)
  let outcome := run surroundings arguments
  match outcome.line with
  | some line => IO.println line.compact
  | none => if outcome.exit = 0 then IO.println usage else IO.eprintln usage
  pure outcome.exit.toUInt32
