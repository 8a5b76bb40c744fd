import LeafStore.Error
/-!
Settings of the engine: the limits of documents and the sizes of pages.
-/
namespace LeafStore

def maxSupportedDepth : Nat := 64

structure Config where
  maxDepth : Nat := maxSupportedDepth
  maxArrayLength : Nat := positionCount
  /-- Documents on a page where the caller does not say. -/
  defaultPageSize : Nat := 100
  maxPageSize : Nat := 1000
  maxConcurrency : Nat := 8
  storePageSize : Nat := 1000
  deriving DecidableEq

namespace Config

def validate (c : Config) : Except ConfigError Unit :=
  if c.maxDepth = 0 ∨ maxSupportedDepth < c.maxDepth then .error (.depth maxSupportedDepth)
  else if positionCount < c.maxArrayLength then .error (.arrayLength positionCount)
  else if c.defaultPageSize = 0 ∨ c.maxPageSize = 0 ∨ c.storePageSize = 0 then
    .error .pageSizes
  else if c.maxConcurrency = 0 then .error .concurrency
  else .ok ()

/-- The size of a page for a caller's wish; zero is no wish. -/
def pageSize (c : Config) : Option Nat → Nat
  | none | some 0 => c.defaultPageSize
  | some size => min size c.maxPageSize

def names : List String :=
  ["max_depth", "max_array_length", "default_page_size", "max_page_size", "max_concurrency",
    "store_page_size"]

def ofValues (value : String → Option Nat) : Config :=
  let d : Config := {}
  { maxDepth := (value "max_depth").getD d.maxDepth
    maxArrayLength := (value "max_array_length").getD d.maxArrayLength
    defaultPageSize := (value "default_page_size").getD d.defaultPageSize
    maxPageSize := (value "max_page_size").getD d.maxPageSize
    maxConcurrency := (value "max_concurrency").getD d.maxConcurrency
    storePageSize := (value "store_page_size").getD d.storePageSize }

/-- The value of a setting: a natural number of 64 bits without point or power. -/
def settingValue? : Json.Tree → Option Nat
  | .number numeral => numeral.integer?.bind Int.toNat?
  | _ => none

/-- Settings with their values. A setting may be given once; other members are passed over. -/
def readSettings (given : List (String × Json.Tree)) : Except ConfigError Config :=
  let known := given.filter fun setting => names.contains setting.1
  match known.mapM fun setting => (settingValue? setting.2).map (setting.1, ·) with
  | some values =>
    if (known.map (·.1)).Nodup then .ok (ofValues fun name => values.lookup name)
    else .error .malformed
  | none => .error .malformed

/-- Settings from a JSON text, not yet validated: an object, or a list in the order of the
names. -/
def read (raw : String) : Except ConfigError Config :=
  match Json.Tree.ofText .settings raw with
  | .ok (.object members) => readSettings members
  | .ok (.array items) =>
    if items.length ≤ names.length then readSettings (names.zip items) else .error .malformed
  | _ => .error .malformed

def ofText (raw : String) : Except ConfigError Config := do
  let config ← read raw
  config.validate
  pure config

def toJson (c : Config) : Json :=
  .ofMembers
    ((names.zip
      [c.maxDepth, c.maxArrayLength, c.defaultPageSize, c.maxPageSize, c.maxConcurrency,
        c.storePageSize]).map fun (name, value) => (name, .int value))

end Config

inductive Consistency where
  | one
  | localQuorum
  | quorum
  | all
  deriving DecidableEq

namespace Consistency

def name : Consistency → String
  | one => "ONE"
  | localQuorum => "LOCAL_QUORUM"
  | quorum => "QUORUM"
  | all => "ALL"

def ofName? (name : String) : Option Consistency :=
  [one, localQuorum, quorum, all].find? (·.name = name)

/-- A level in a JSON text: its name, alone or as the one member of an object. -/
def ofTree? : Json.Tree → Option Consistency
  | .text name => ofName? name
  | .object [(name, .null)] => ofName? name
  | _ => none

end Consistency

structure WriteOptions where
  consistency : Consistency := .localQuorum
  deriving DecidableEq

namespace WriteOptions

/-- Options from the members of an object; the level may be given once. -/
def ofMembers? (members : List (String × Json.Tree)) : Option WriteOptions :=
  match members.filter (·.1 = "consistency") with
  | [] => some {}
  | [(_, level)] => (Consistency.ofTree? level).map (⟨·⟩)
  | _ => none

/-- Options from a JSON text: an object, or a list with the level at most. -/
def ofText? (raw : String) : Option WriteOptions :=
  match Json.Tree.ofText .settings raw with
  | .ok (.object members) => ofMembers? members
  | .ok (.array []) => some {}
  | .ok (.array [level]) => (Consistency.ofTree? level).map (⟨·⟩)
  | _ => none

end WriteOptions

end LeafStore
