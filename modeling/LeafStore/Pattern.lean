import LeafStore.Path.Parser
/-!
Path patterns: paths in which a step may be left open.
-/
namespace LeafStore

inductive PatternStep where
  | exact (segment : Segment)
  | wildcard
  deriving DecidableEq

namespace PatternStep

def isWildcard : PatternStep → Bool
  | exact _ => false
  | wildcard => true

def accepts : PatternStep → Segment → Bool
  | exact expected, segment => expected = segment
  | wildcard, _ => true

def display : PatternStep → String
  | exact segment => segment.column
  | wildcard => "*"

def segment? : PatternStep → Option Segment
  | exact segment => some segment
  | wildcard => none

end PatternStep

abbrev Pattern := List PatternStep

namespace Pattern

def readStep (raw piece : String) : Except FilterError PatternStep :=
  if piece = "*" then .ok .wildcard
  else ((Segment.read piece).map .exact).mapError (.malformedPath raw)

def read (raw : String) : Except FilterError Pattern :=
  if raw.isEmpty then .error .emptyPath else (Path.pieces raw).mapM (readStep raw)

def display (p : Pattern) : String :=
  String.intercalate "." (p.map PatternStep.display)

def hasWildcard (p : Pattern) : Bool := p.any PatternStep.isWildcard

def parent (p : Pattern) : Pattern := p.dropLast

def lastColumn? (p : Pattern) : Option String :=
  (p.getLast?.bind PatternStep.segment?).map Segment.column

def fixedPart (p : Pattern) : Path :=
  (p.takeWhile (!·.isWildcard)).filterMap PatternStep.segment?

def under (base : Path) (p : Pattern) : Pattern :=
  base.map .exact ++ p

def accepts : Pattern → Path → Bool
  | [], [] => true
  | step :: steps, segment :: segments => step.accepts segment && accepts steps segments
  | _, _ => false

end Pattern

end LeafStore
