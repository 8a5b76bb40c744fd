import LeafStore.Text.Digits
/-!
Places inside a document: the members and array positions that lead from the root to a value,
and the texts that name them in the columns of a table.
-/
namespace LeafStore

abbrev positionCount : Nat := 1000000

inductive Segment where
  | field (name : String)
  | index (position : Fin positionCount)
  deriving DecidableEq

namespace Segment

def indexText (n : Nat) : String :=
  String.ofList ('[' :: Text.sixDigits n ++ [']'])

def column : Segment → String
  | field name => name
  | index position => indexText position

def firstIndexText : String := indexText 0

def lastIndexText : String := indexText (positionCount - 1)

def columnDigits? : List Char → Option (List Char)
  | ['[', a, b, c, d, e, f, ']'] =>
    if [a, b, c, d, e, f].all Char.isDigit then some [a, b, c, d, e, f] else none
  | _ => none

/-- The segment that a column holds. Every text but six digits between brackets is a name. -/
def ofColumn (text : String) : Segment :=
  match columnDigits? text.toList with
  | some digits =>
    if h : Text.digitsValue digits < positionCount then index ⟨Text.digitsValue digits, h⟩ else field text
  | none => field text

def isIndex : Segment → Bool
  | field _ => false
  | index _ => true

/-- The order of the columns: names by code points, positions by number, and all positions
together where their opening bracket sorts. -/
def lt : Segment → Segment → Prop
  | field a, field b => a < b
  | index a, index b => a < b
  | field a, index _ => a < "["
  | index _, field b => ¬ b < "["

instance : LT Segment := ⟨lt⟩

instance decidableLT : (a b : Segment) → Decidable (a < b)
  | field a, field b => inferInstanceAs (Decidable (a < b))
  | index a, index b => inferInstanceAs (Decidable (a < b))
  | field a, index _ => inferInstanceAs (Decidable (a < "["))
  | index _, field b => inferInstanceAs (Decidable (¬ b < "["))

end Segment

/-- A path from the root of a document. Paths are ordered segment by segment, a path before
its extensions. -/
abbrev Path := List Segment

namespace Path

def root : Path := []

def child (p : Path) (s : Segment) : Path := p ++ [s]

/-- The path without its last step; the root stays the root. -/
def parent (p : Path) : Path := p.dropLast

def columns (p : Path) : List String := p.map Segment.column

def dotted (p : Path) : String := String.intercalate "." p.columns

def display (p : Path) : String := if p.isEmpty then "$" else p.dotted

def below? (base : Path) (p : Path) : Option Path :=
  if base.isPrefixOf p then some (p.drop base.length) else none

def isAncestorOf (p other : Path) : Bool :=
  p.length < other.length && p.isPrefixOf other

def order (p other : Path) : Ordering :=
  if p < other then .lt else if other < p then .gt else .eq

def padded (p : Path) (width : Nat) : List String :=
  p.columns ++ List.replicate (width - p.length) ""

end Path

end LeafStore
