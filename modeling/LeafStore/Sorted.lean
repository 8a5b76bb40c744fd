/-!
Lists kept in strictly ascending order: sets of keys, and maps as lists of pairs sorted by key.
Reading a map is `List.lookup`.
-/
namespace LeafStore.Sorted

variable {κ ν : Type} [LT κ] [DecidableLT κ]

def add (key : κ) : List κ → List κ
  | [] => [key]
  | other :: rest =>
    if key < other then key :: other :: rest
    else if other < key then other :: add key rest
    else key :: rest

def ofKeys (keys : List κ) : List κ :=
  keys.foldl (fun set key => add key set) []

def insert (key : κ) (value : ν) : List (κ × ν) → List (κ × ν)
  | [] => [(key, value)]
  | (other, old) :: rest =>
    if key < other then (key, value) :: (other, old) :: rest
    else if other < key then (other, old) :: insert key value rest
    else (key, value) :: rest

/-- The map of the given pairs; of two values for one key the later is kept. -/
def ofPairs (pairs : List (κ × ν)) : List (κ × ν) :=
  pairs.foldl (fun map pair => insert pair.1 pair.2 map) []

/-- A map whose value at one key is changed, starting from `initial` where there is none. -/
def update [BEq κ] (key : κ) (initial : ν) (change : ν → ν) (map : List (κ × ν)) :
    List (κ × ν) :=
  insert key (change ((map.lookup key).getD initial)) map

end LeafStore.Sorted
