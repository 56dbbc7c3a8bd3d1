import CompactingArena.Arena
/-!
# Contents of chunks

Clients read and write the bytes of a chunk in use through its handle.
-/

namespace CompactingArena.Arena

/-- The contents of the chunk of `h`, if it is in use. -/
def chunk (a : Arena) (h : Handle) : Act (Option ByteArray) := do
  match a.inUse? h with
  | none => return none
  | some record => return some (← a.region.read record.addr record.size)

/-- Why bytes of a chunk were not written. -/
inductive WriteRefusal
  /-- The handle names no chunk in use. -/
  | notInUse
  /-- The bytes do not lie within the chunk. -/
  | outOfChunk
deriving DecidableEq

/-- Writes bytes into the chunk of `h`, from an offset within the chunk on. -/
def write (a : Arena) (h : Handle) (start : Nat) (bytes : ByteArray) :
    Act (Except WriteRefusal Arena) := do
  match a.inUse? h with
  | none => return .error .notInUse
  | some record =>
      a.region.check record.addr record.size
      if start + bytes.size ≤ record.size then
        return .ok { a with region := a.region.overlay (record.addr + start) bytes }
      else
        return .error .outOfChunk

end CompactingArena.Arena
