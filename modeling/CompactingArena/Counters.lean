import CompactingArena.Word
/-!
# Counters

Running totals over the life of an arena, and the two that follow its state:
the number of chunks in use and the sum of their sizes.
-/

namespace CompactingArena

/-- What an arena has done so far. -/
structure Counters where
  /-- Chunks in use. -/
  allocationCount : Nat := 0
  /-- Allocations served. -/
  totalAllocationCount : Nat := 0
  /-- Bytes of the chunks in use. -/
  allocatedBytes : Nat := 0
  /-- Bytes of all allocations served. -/
  totalAllocatedBytes : Nat := 0
  /-- Allocations served from the free lists. -/
  freeListHits : Nat := 0
  /-- Bytes of the chunks taken from the free lists, before they were split. -/
  freeListBytes : Nat := 0
  /-- Compactions run. -/
  compactionCount : Nat := 0
  /-- Slides executed by compactions. -/
  totalCompactionPasses : Nat := 0
  /-- Bytes moved by compactions. -/
  totalBytesMoved : Nat := 0
  /-- Allocations that failed. -/
  oomCount : Nat := 0
deriving DecidableEq

namespace Counters

/-- The bytes of the allocations that are no longer in use. -/
def totalFreedBytes (c : Counters) : Act Nat :=
  Word.sub c.totalAllocatedBytes c.allocatedBytes

/-- A chunk of `size` bytes was handed out. -/
def accountAlloc (c : Counters) (size : Nat) : Act Counters := do
  return { c with
    allocationCount := ← Word.add c.allocationCount 1
    allocatedBytes := ← Word.add c.allocatedBytes size
    totalAllocationCount := ← Word.add c.totalAllocationCount 1
    totalAllocatedBytes := ← Word.add c.totalAllocatedBytes size }

/-- A chunk of `size` bytes was freed. -/
def accountFree (c : Counters) (size : Nat) : Act Counters := do
  return { c with
    allocationCount := ← Word.sub c.allocationCount 1
    allocatedBytes := ← Word.sub c.allocatedBytes size }

/-- A free chunk of `size` bytes serves an allocation. -/
def accountReuse (c : Counters) (size : Nat) : Act Counters := do
  return { c with
    freeListHits := ← Word.add c.freeListHits 1
    freeListBytes := ← Word.add c.freeListBytes size }

/-- A compaction grew a chunk by a remainder of `size` bytes. -/
def accountFold (c : Counters) (size : Nat) : Act Counters := do
  return { c with
    allocatedBytes := ← Word.add c.allocatedBytes size
    totalAllocatedBytes := ← Word.add c.totalAllocatedBytes size }

/-- A compaction ended. -/
def accountCompaction (c : Counters) (passes bytesMoved : Nat) : Act Counters := do
  return { c with
    compactionCount := ← Word.add c.compactionCount 1
    totalCompactionPasses := ← Word.add c.totalCompactionPasses passes
    totalBytesMoved := ← Word.add c.totalBytesMoved bytesMoved }

/-- An allocation failed. -/
def accountOom (c : Counters) : Act Counters := do
  return { c with oomCount := ← Word.add c.oomCount 1 }

end Counters

end CompactingArena
