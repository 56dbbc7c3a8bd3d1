import CompactingArena.Text
import CompactingArena.Handle
import CompactingArena.ChunkState
/-!
# Errors and their messages

Four kinds of failure are told apart: an exhausted arena, a broken invariant,
a misused handle, and an arena that cannot be set up.
-/

namespace CompactingArena

/-- Neither fresh memory nor a reclaimed chunk served a request, and the
handler of the shortage gave up. -/
inductive OutOfMemory
  | outOfMemory
deriving DecidableEq

def OutOfMemory.message (_ : OutOfMemory) : String := "out of memory"

/-- A broken invariant: a defect, or region bytes overwritten through a stale
address. -/
inductive Violation
  | sizeClassMismatch (sizeClass size : Nat)
  | cycleDetected
  | regionOverlap (offset : Nat)
  | outOfBounds (offset : Nat)
  | trailerMismatch (h : Handle)
  | unsortedChain (offset : Nat)
  | zeroOffset
  | headerExhausted
  | conservation
deriving DecidableEq

def Violation.message : Violation → String
  | sizeClassMismatch sizeClass size =>
      "free chunk of " ++ toString size ++ " bytes is filed under size class " ++
        toString sizeClass
  | cycleDetected => "cycle detected in a chain"
  | regionOverlap offset => "chunks overlap at offset " ++ Text.hex offset
  | outOfBounds offset =>
      "chunk or table bound at offset " ++ Text.hex offset ++ " is out of bounds"
  | trailerMismatch h => "trailer record of " ++ h.text ++ " does not refer back to it"
  | unsortedChain offset =>
      "header chain is not in address order at offset " ++ Text.hex offset
  | zeroOffset => "compaction computed a zero slide offset"
  | headerExhausted => "header table exhausted in the middle of compaction"
  | conservation => "accounted bytes exceed the region size"

/-- A handle operation that the state of the chunk does not permit. -/
inductive Misuse
  | dangling (h : Handle)
  | wrongState (h : Handle) (state : ChunkState)
deriving DecidableEq

def Misuse.message : Misuse → String
  | dangling h => h.text ++ " does not describe a chunk"
  | wrongState h state =>
      h.text ++ " is " ++ state.text ++ ", which does not permit this operation"

/-- Why an arena cannot be set up. -/
inductive InitError
  | regionTooSmall (size least : Nat)
  | regionTooLarge (size : Nat)
  | allocFailed
deriving DecidableEq

def InitError.message : InitError → String
  | regionTooSmall size least =>
      "a region of " ++ toString size ++ " bytes is too small, at least " ++
        toString least ++ " are required"
  | regionTooLarge size =>
      "a region of " ++ toString size ++ " bytes is too large to index"
  | allocFailed => "the backing allocator failed to provide the region"

end CompactingArena
