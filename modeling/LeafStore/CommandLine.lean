import LeafStore.Clock
import LeafStore.Service
import LeafStore.Text.Blank
/-!
The command line: `decompose` shows the changes that a write makes, `search` searches the
documents of a file, and `explain` shows how a filter is executed. The answer is one line of
JSON.
-/
namespace LeafStore.CommandLine

inductive Command where
  | decompose (id : String) (path : Option String) (patch : Bool)
  | search (docs : String) (request : SearchRequest) (raw : Bool)
  | explain (filter : String)

inductive Invocation where
  | run (config : Option String) (command : Command)
  | help

/-! Arguments. -/

/-- The options that a command takes, by name; those that take a value are marked. -/
structure Options where
  withValue : List String
  flags : List String

abbrev Given := List (String × String)

def value? (given : Given) (name : String) : Option String := given.lookup name

def isValue (argument : String) : Bool :=
  argument = "-" || argument.toList.head? ≠ some '-'

def splitOption (body : List Char) : String × Option String :=
  match body.span (· ≠ '=') with
  | (name, _ :: value) => (String.ofList name, some (String.ofList value))
  | (name, []) => (String.ofList name, none)

/-- A number of 64 bits; a plus sign may stand before it. -/
def readSize (text : String) : Option Nat :=
  let digits :=
    match text.toList with
    | '+' :: rest => rest
    | all => all
  if digits.isEmpty || !digits.all Char.isDigit then none
  else if Text.digitsValue digits < 2 ^ 64 then some (Text.digitsValue digits) else none

/-- A value that the option of a name can have: files have a name, and sizes are numbers. -/
def admitValue (name value : String) : Bool :=
  if name = "config" || name = "docs" then !value.isEmpty
  else if name = "page-size" then (readSize value).isSome
  else true

/-- An option is given once at each level of the command line. -/
def addOption (given : Given) (name value : String) : Option Given :=
  if (value? given name).isSome || !admitValue name value then none
  else some ((name, value) :: given)

structure Reading where
  given : Given
  /-- An option that takes its value from the argument after it. It counts as given only once
  something else has been read, so that a call for help can come before a mistake in it. -/
  last : Option (String × String) := none

def Reading.settle (r : Reading) : Option Given :=
  match r.last with
  | none => some r.given
  | some (name, value) => addOption r.given name value

inductive Level where
  /-- Options, and what follows the first argument that is none. -/
  | options (reading : Reading) (rest : List String)
  | help
  | mistake

/-- An argument that calls for help, or for the version where there is one to show. -/
def callsHelp (versioned : Bool) (argument : String) : Bool :=
  match argument.toList with
  | '-' :: 'h' :: _ => true
  | '-' :: 'V' :: _ => versioned
  | _ => argument = "--help" || (versioned && argument = "--version")

def readOptions (options : Options) (versioned : Bool) :
    (arguments : List String) → (reading : Reading) → Level
  | [], reading => .options reading []
  | argument :: rest, reading =>
    if isValue argument then .options reading (argument :: rest)
    else if argument = "--" then if rest.isEmpty then .options reading [] else .mistake
    else
      match reading.settle with
      | none => .mistake
      | some given =>
        if callsHelp versioned argument then .help
        else
          match argument.toList with
          | '-' :: '-' :: body =>
            match splitOption body with
            | (name, some value) =>
              if options.withValue.contains name then
                match addOption given name value with
                | some given => readOptions options versioned rest { given }
                | none => .mistake
              else .mistake
            | (name, none) =>
              if options.flags.contains name then
                match addOption given name "" with
                | some given => readOptions options versioned rest { given }
                | none => .mistake
              else if options.withValue.contains name then
                match rest with
                | value :: rest =>
                  if isValue value then
                    readOptions options versioned rest { given, last := some (name, value) }
                  else .mistake
                | [] => .mistake
              else .mistake
          | _ => .mistake

def globalOptions : Options := ⟨["config"], []⟩

def commands : List (String × Options) :=
  [("decompose", ⟨["config", "id", "path"], ["patch"]⟩),
    ("search", ⟨["config", "docs", "where", "fields", "page-size", "page-state"], ["raw"]⟩),
    ("explain", ⟨["config", "where"], []⟩)]

def searchCommand (given : Given) : Option Command := do
  let docs ← value? given "docs"
  let pageSize ← (value? given "page-size").mapM readSize
  pure (.search docs
    { filter := value? given "where"
      fields := value? given "fields"
      pageSize := pageSize
      pageState := value? given "page-state" }
    (value? given "raw").isSome)

def command? (name : String) (given : Given) : Option Command :=
  match name with
  | "decompose" =>
    some (.decompose ((value? given "id").getD "doc") (value? given "path")
      (value? given "patch").isSome)
  | "search" => searchCommand given
  | "explain" => (value? given "where").map .explain
  | _ => none

/-- The file with the settings. One named after the command counts before one named earlier. -/
def configFile (before after : Given) : Option String :=
  (value? after "config").or (value? before "config")

/-- A command and its arguments. What is wrong before the command is found after it has been
read, and does not keep its help from being shown. -/
def readCommand (before : Reading) (name : String) (arguments : List String) :
    Option Invocation := do
  let options ← commands.lookup name
  match readOptions options false arguments { given := [] } with
  | .options reading [] =>
    let after ← reading.settle
    let before ← before.settle
    let command ← command? name after
    pure (.run (configFile before after) command)
  | .help => pure .help
  | _ => none

def readHelp : List String → Option Invocation
  | [] => some .help
  | [name] => if name = "help" || (commands.lookup name).isSome then some .help else none
  | _ => none

def read (arguments : List String) : Option Invocation :=
  match readOptions globalOptions true arguments { given := [] } with
  | .options before (name :: rest) =>
    if name = "help" then readHelp rest else readCommand before name rest
  | .options _ [] => none
  | .help => some .help
  | .mistake => none

/-! Running a command. -/

/-- What a command can see: files and the input, or why they cannot be read, and the time. -/
structure Surroundings where
  file : String → Except FileFault String
  input : Except FileFault String
  now : Int

inductive Failure where
  | unreadable (fault : FileFault)
  | emptyInput
  | request (cause : Error)

namespace Failure

def code : Failure → String
  | unreadable _ | emptyInput => "DOCS_CLI_IO_ERROR"
  | request cause => cause.code

def message : Failure → String
  | unreadable fault => "I/O error: " ++ fault.message
  | emptyInput => "I/O error: empty input"
  | request cause => cause.message

end Failure

def loadConfig (s : Surroundings) : Option String → Except Error Config
  | none => .ok {}
  | some file =>
    match s.file file with
    | .error fault => .error (.invalidDocument (.unreadableConfig file fault))
    | .ok raw => (Config.ofText raw).mapError fun cause => .invalidDocument (.config cause)

def decompose (config : Config) (document : String) (path : Option String) (patching : Bool)
    (payload : String) (now : Int) : Except Error Json := do
  let target ← (Path.ofDotted (path.getD "")).mapError .invalidPath
  let value ← (Json.ofText .document payload).mapError fun fault => .invalidDocument (.text fault)
  let batch ← config.limits.put document target value patching now
  pure (.ofMembers
    [("documentId", .text batch.document), ("writeTime", .int batch.writeTime),
      ("mutations", batch.describe)])

def table : TableName := ⟨"leafstore", "documents"⟩

def caller : Subject := ⟨"cli", "cli"⟩

def openService (config : Config) : Except Error (Service MemoryStore) :=
  Service.create MemoryStore.rowStore .allowAll config

def load (s : Service MemoryStore) : List (String × Json) → Clock → Access MemoryStore Unit
  | [], _ => pure ()
  | (id, document) :: rest, clock => do
    let _ ← s.put caller table id Path.root document.compact clock.now
    load s rest (clock.observe clock.now)

def collection (raw : String) : Except Error (List (String × Json)) :=
  match Json.ofText .document raw with
  | .ok (.object documents) => .ok documents
  | .ok _ => .error (.invalidDocument .collectionNotObject)
  | .error fault => .error (.invalidDocument (.text fault))

def search (config : Config) (docs : String) (request : SearchRequest) (raw : Bool)
    (now : Int) : Except Error Json := do
  let documents ← collection docs
  let service ← openService config
  let answer : Access MemoryStore SearchPage := do
    load service documents ⟨now⟩
    service.search caller table request
  let page ← (answer.run.run {}).1
  pure (page.render raw)

def explain (config : Config) (filter : String) : Except Error Json := do
  let service ← openService config
  service.explain filter

def payload (s : Surroundings) : Except Failure String :=
  match s.input with
  | .error fault => .error (.unreadable fault)
  | .ok input => if Text.allBlank input then .error .emptyInput else .ok input

def execute (s : Surroundings) (config : Config) : Command → Except Failure Json
  | .decompose id path patch => do
    let input ← payload s
    (decompose config id path patch input s.now).mapError .request
  | .search docs request raw => do
    let documents ← (s.file docs).mapError .unreadable
    (search config documents request raw s.now).mapError .request
  | .explain filter => (explain config filter).mapError .request

def perform (s : Surroundings) (config : Option String) (command : Command) :
    Except Failure Json := do
  let config ← (loadConfig s config).mapError .request
  execute s config command

def answer : Except Failure Json → Json
  | .ok data => .ofMembers [("status", .text "ok"), ("data", data)]
  | .error failure =>
    .ofMembers
      [("status", .text "error"), ("code", .text failure.code),
        ("message", .text failure.message)]

structure Outcome where
  exit : Nat
  line : Option Json

def run (s : Surroundings) (arguments : List String) : Outcome :=
  match read arguments with
  | none => ⟨2, none⟩
  | some .help => ⟨0, none⟩
  | some (.run config command) =>
    let result := perform s config command
    ⟨if result.toBool then 0 else 1, some (answer result)⟩

def filesNeeded : Invocation → List String
  | .help => []
  | .run config command =>
    config.toList ++
      match command with
      | .search docs _ _ => [docs]
      | _ => []

def needsInput : Invocation → Bool
  | .run _ (.decompose _ _ _) => true
  | _ => false

end LeafStore.CommandLine
