import CompactingArena.SizeClasses
import CompactingArena.Counters
/-!
# Arenas

An arena hands out chunks of one region.  Chunks fill the region upward from
offset zero to the high-water mark; the header table grows downward from its
end.  Clients hold handles, and only a pinned chunk has an address they may
keep.
-/

namespace CompactingArena

structure Arena where
  config : Config
  region : Region
  headers : HeaderTable
  classes : SizeClasses
  /-- The high-water mark: the end of the highest chunk. -/
  memoryHigh : Nat
  /-- The record whose chunk ends at the high-water mark. -/
  highest : Option Handle
  counters : Counters

namespace Arena

/-- The least region that can host one chunk, its record and the reserve of
compaction. -/
def leastRegion : Nat := Trailer.bytes + Record.bytes * (1 + Record.reserved)

/-- The largest region whose offsets a signed word can express. -/
def largestRegion : Nat := 0x7fffffffffffffff

/-- Sets up an arena over a zeroed region of `size` bytes, rounded down to the
alignment.  The backing memory provides regions of up to `available` bytes. -/
def establish (config : Config) (available size : Nat) : Act (Except InitError Arena) := do
  let size := size - size % Word.alignment
  if size < leastRegion then
    return .error (.regionTooSmall size leastRegion)
  else if largestRegion < size then
    return .error (.regionTooLarge size)
  else if available < size then
    return .error .allocFailed
  else
    Act.log (.established size config)
    let classes ← SizeClasses.ofRegionSize size
    return .ok
      { config
        region := .zeroed size
        headers := .empty size
        classes
        memoryHigh := 0
        highest := none
        counters := {} }

/-- The lowest offset that the header table occupies. -/
def headerLow (a : Arena) : Nat := a.headers.low

def text (a : Arena) : String :=
  "Rmalloc \x7b region: " ++ Text.region a.region.size ++
    ", memory_high: " ++ toString a.memoryHigh ++
    ", header_low: " ++ toString a.headerLow ++
    ", config: " ++ a.config.text ++ ", .. \x7d"

/-! ## Chunks by handle -/

/-- The state of the chunk of `h`, unless `h` is dangling. -/
def state? (a : Arena) (h : Handle) : Option ChunkState :=
  (a.headers.live? h).map (·.state)

def offset? (a : Arena) (h : Handle) : Option Nat :=
  (a.headers.live? h).map (·.addr)

def size? (a : Arena) (h : Handle) : Option Nat :=
  (a.headers.live? h).map (·.size)

/-- The record of `h` if its chunk is in use. -/
def inUse? (a : Arena) (h : Handle) : Option Record :=
  (a.headers.live? h).filter fun record => !record.state.isFree

/-- The record of `h`, provided that its chunk is in use. -/
def permit (a : Arena) (h : Handle) : Except Misuse Record :=
  match a.headers.live? h with
  | none => .error (.dangling h)
  | some record =>
      if record.state.isFree then .error (.wrongState h record.state) else .ok record

end Arena

end CompactingArena
