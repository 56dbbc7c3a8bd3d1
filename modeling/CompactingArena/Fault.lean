import CompactingArena.Error
import CompactingArena.Text
/-!
# Faults

A fault ends an operation at once.  Correct clients meet none; most of them are
found only by the checks of a debug build.
-/

namespace CompactingArena

/-- Why an operation ended without a result. -/
inductive Fault
  /-- A broken invariant was met in the course of an operation. -/
  | violated (violation : Violation)
  /-- The audit after an operation failed; `map` is the layout map. -/
  | auditFailed (violation : Violation) (map : String)
  | danglingFree (h : Handle)
  | danglingUnlock (h : Handle)
  | freeUnlock (h : Handle)
  | danglingLock (h : Handle)
  | freeLock (h : Handle)
  | releasedTwice (h : Handle)
  /-- A byte range that leaves a region of `size` bytes. -/
  | outOfRegion (offset length size : Nat)
  /-- A sum, difference or product that no word holds. -/
  | overflow
  /-- A position outside a table. -/
  | index
  /-- The logarithm of zero. -/
  | logarithm
  /-- A condition that the code relies on does not hold. -/
  | assertion
  /-- A loop that never ends, as over a chain that returns to itself. -/
  | endless
deriving DecidableEq

namespace Fault

def violationText (violation : Violation) : String :=
  "rmalloc invariant violated: " ++ violation.message

/-- The wording of a fault, for those that have one of their own. -/
def message? : Fault → Option String
  | violated violation => some (violationText violation)
  | auditFailed violation map => some (violationText violation ++ "\n" ++ map)
  | danglingFree h => some ("free of dangling " ++ h.text)
  | danglingUnlock h => some ("unlock of dangling " ++ h.text)
  | freeUnlock h => some ("unlock of free " ++ h.text)
  | danglingLock h => some ("lock of dangling " ++ h.text)
  | freeLock h => some ("lock of free " ++ h.text)
  | releasedTwice h => some (h.text ++ " released twice")
  | outOfRegion offset length size =>
      some (Text.hex offset ++ "+" ++ toString length ++ " out of " ++ Text.region size)
  | overflow | index | logarithm | assertion | endless => none

end Fault

end CompactingArena
