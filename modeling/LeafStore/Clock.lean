/-!
Clocks for write times, in microseconds of 64 bits.
-/
namespace LeafStore

structure Clock where
  now : Int
  deriving DecidableEq

namespace Clock

/-- The clock moved forward. Past the last time it begins again at the first. -/
def advance (c : Clock) (micros : Int) : Clock := ⟨Int.bmod (c.now + micros) UInt64.size⟩

/-- The clock after a reading of the time of day: never back, and never twice the same time. -/
def observe (c : Clock) (reading : Int) : Clock := ⟨max reading (c.now + 1)⟩

end Clock

end LeafStore
