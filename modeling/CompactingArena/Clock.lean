import CompactingArena.Word
/-!
# Clocks

A compaction sees a clock only through its readings: the first when it starts,
and then one before each pass.  Readings are in nanoseconds and only their
differences matter.
-/

namespace CompactingArena

/-- The readings of a clock in the order in which they are taken. -/
abbrev Readings : Type := Nat → Nat

/-- The readings of a clock that stands still. -/
def Readings.still : Readings := fun _ => 0

/-- Given readings, the last of which repeats; zero if there are none. -/
def Readings.ofArray (readings : Array Nat) : Readings := fun i =>
  readings[min i (readings.size - 1)]?.getD 0

/-- A clock that moves only when told to, and by `step` after every reading. -/
structure ManualClock where
  now : Nat := 0
  step : Nat := 0
deriving DecidableEq

namespace ManualClock

/-- A clock that stays at the last word once it gets there. -/
private def saturate (nanos : Nat) : Nat := min nanos Word.max

def advance (c : ManualClock) (nanos : Nat) : ManualClock :=
  { c with now := saturate (c.now + nanos) }

def set (c : ManualClock) (nanos : Nat) : ManualClock :=
  { c with now := nanos }

def read (c : ManualClock) : Nat × ManualClock :=
  (c.now, c.advance c.step)

/-- The readings that a clock gives if nobody else moves it. -/
def readings (c : ManualClock) : Readings := fun i =>
  saturate (c.now + i * c.step)

end ManualClock

end CompactingArena
