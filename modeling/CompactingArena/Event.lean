import CompactingArena.Config
import CompactingArena.Error
import CompactingArena.Compaction.Report
import CompactingArena.Text
/-!
# Log records

What an operation reports while it runs, each with its level and its text.
-/

namespace CompactingArena

inductive Level
  | error
  | warn
  | debug
  | trace
deriving DecidableEq

def Level.text : Level → String
  | error => "ERROR"
  | warn => "WARN"
  | debug => "DEBUG"
  | trace => "TRACE"

inductive Event
  /-- An arena was set up over a region. -/
  | established (regionSize : Nat) (config : Config)
  /-- A release build met a broken invariant. -/
  | violated (violation : Violation)
  /-- The header table grew by the record of `h` to `tableBytes`. -/
  | carved (h : Handle) (tableBytes : Nat)
  /-- The header table lost its last `records` records. -/
  | tableShrunk (records tableBytes : Nat)
  /-- A request cannot be rounded up within a word. -/
  | requestOverflow (requested : Nat)
  | allocated (size : Nat) (h : Handle) (addr : Nat)
  | outOfMemory (size : Nat)
  | freed (h : Handle) (size addr : Nat)
  | danglingFree (h : Handle)
  | danglingUnlock (h : Handle)
  | freeUnlock (h : Handle)
  | danglingLock (h : Handle)
  | freeLock (h : Handle)
  | pinned (h : Handle) (state : ChunkState) (addr : Nat)
  /-- A chunk was filed lower than its size warrants and is filed anew. -/
  | demoted (h : Handle) (size sizeClass : Nat)
  /-- A moved chunk absorbed a remainder too small for a trailer. -/
  | folded (bytes : Nat) (h : Handle)
  | slid (bytes distance target : Nat) (pastPinned : Bool)
  | compacted (report : CompactionReport) (memoryHigh : Nat)
  /-- A compaction ran because a request of `size` bytes found no room. -/
  | compactedForRequest (size : Nat) (report : CompactionReport)
deriving DecidableEq

namespace Event

def level : Event → Level
  | violated _ | danglingLock _ => .error
  | requestOverflow _ | outOfMemory _ | danglingFree _ | danglingUnlock _ | freeUnlock _
  | freeLock _ => .warn
  | established .. | tableShrunk .. | compacted .. | compactedForRequest .. => .debug
  | carved .. | allocated .. | freed .. | pinned .. | demoted .. | folded .. | slid .. =>
      .trace

def text : Event → String
  | established regionSize config =>
      "established " ++ Text.region regionSize ++ " with " ++ config.text
  | violated violation => "rmalloc invariant violated: " ++ violation.message
  | carved h tableBytes =>
      "carved " ++ h.text ++ ", header table now " ++ toString tableBytes ++ " bytes"
  | tableShrunk records tableBytes =>
      "header table shrunk by " ++ toString records ++ " records to " ++
        toString tableBytes ++ " bytes"
  | requestOverflow requested =>
      "allocation of " ++ toString requested ++ " bytes overflows"
  | allocated size h addr =>
      "allocated " ++ toString size ++ " bytes as " ++ h.text ++ " at " ++ Text.hex addr
  | outOfMemory size => "out of memory allocating " ++ toString size ++ " bytes"
  | freed h size addr =>
      "freed " ++ h.text ++ ", " ++ toString size ++ " bytes at " ++ Text.hex addr
  | danglingFree h => "ignoring free of dangling " ++ h.text
  | danglingUnlock h => "ignoring unlock of dangling " ++ h.text
  | freeUnlock h => "ignoring unlock of free " ++ h.text
  | danglingLock h => "lock of dangling " ++ h.text
  | freeLock h => "lock of free " ++ h.text ++ " leaves it free"
  | pinned h state addr => h.text ++ " pinned as " ++ state.text ++ " at " ++ Text.hex addr
  | demoted h size sizeClass =>
      "demoting " ++ h.text ++ " of " ++ toString size ++ " bytes out of class " ++
        toString sizeClass
  | folded bytes h => "folding " ++ toString bytes ++ " bytes into " ++ h.text
  | slid bytes distance target pastPinned =>
      "slid " ++ toString bytes ++ " bytes down by " ++ Text.hex distance ++ " to " ++
        Text.hex target ++ (if pastPinned then " past pinned chunks" else "")
  | compacted report memoryHigh =>
      "compacted: " ++ toString report.passes ++ " passes, " ++
        toString report.bytesMoved ++ " bytes moved, " ++
        toString report.reclaimed ++ " bytes reclaimed, high-water mark " ++
        Text.hex memoryHigh ++ (if report.completed then "" else " (budget exhausted)")
  | compactedForRequest size report =>
      "compacted on OOM for " ++ toString size ++ " bytes: " ++ report.text

end Event

end CompactingArena
