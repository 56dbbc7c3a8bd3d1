import CompactingArena.Arena.Contents
import CompactingArena.Clock
/-!
# Operations

The operations that clients call, as data.  A history of an arena is a list of
them, and a handler of shortages chooses among them as well.
-/

namespace CompactingArena

/-- A call of a client. -/
inductive Op
  | allocate (size : Nat)
  | free (h : Handle)
  | tryFree (h : Handle)
  | lock (h : Handle)
  | weakLock (h : Handle)
  | unlock (h : Handle)
  | tryLock (h : Handle)
  | tryWeakLock (h : Handle)
  | tryUnlock (h : Handle)
  | write (h : Handle) (start : Nat) (bytes : ByteArray)
  | compact (budget : Nat) (clock : Readings)
  | totalFreeBytes
  | largestFreeChunk
  | highestUsed (exact : Bool)

/-- The type of what a call answers. -/
def Op.Reply : Op → Type
  | allocate _ => Except OutOfMemory Handle
  | free _ | unlock _ => Unit
  | tryFree _ | tryUnlock _ => Except Misuse Unit
  | lock _ | weakLock _ => Option Nat
  | tryLock _ | tryWeakLock _ => Except Misuse Nat
  | write .. => Except Arena.WriteRefusal Unit
  | compact .. => CompactionReport
  | totalFreeBytes | largestFreeChunk | highestUsed _ => Nat

end CompactingArena
