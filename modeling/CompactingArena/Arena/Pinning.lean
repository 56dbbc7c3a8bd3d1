import CompactingArena.Arena
/-!
# Pinning

A pinned chunk stays where it is, so that its address may be kept until it is
unpinned.  Both kinds of lock pin alike, and neither nests.
-/

namespace CompactingArena.Arena

/-- Puts the record of `h` into a state. -/
def setState (a : Arena) (h : Handle) (state : ChunkState) : Act Arena := do
  let headers ← a.headers.update h fun record => { record with state }
  return { a with headers }

/-- The address of a chunk, as an offset. -/
def address (a : Arena) (record : Record) : Act Nat := do
  a.region.check record.addr 0
  return record.addr

/-- Pins the chunk in use of `h`, whose record is `record`. -/
def pinRecord (a : Arena) (h : Handle) (record : Record) (state : ChunkState) :
    Act (Nat × Arena) := do
  let a ← a.setState h state
  Act.log (.pinned h state record.addr)
  return (← a.address record, a)

/-- Pins the chunk of `h` and returns its address.  A release build leaves a
free chunk free, and has no address for a dangling handle. -/
def pin (a : Arena) (h : Handle) (state : ChunkState) : Act (Option Nat × Arena) := do
  match a.headers.live? h with
  | none =>
      Act.expect false (.danglingLock h)
      Act.log (.danglingLock h)
      return (none, a)
  | some record =>
      if record.state.isFree then
        Act.expect false (.freeLock h)
        Act.log (.freeLock h)
        return (some (← a.address record), a)
      else
        let (addr, a) ← a.pinRecord h record state
        return (some addr, a)

def lock (a : Arena) (h : Handle) : Act (Option Nat × Arena) :=
  a.pin h .locked

def weakLock (a : Arena) (h : Handle) : Act (Option Nat × Arena) :=
  a.pin h .weakLocked

/-- Lets the chunk of `h` move again. -/
def unlock (a : Arena) (h : Handle) : Act Arena := do
  match a.headers.live? h with
  | none =>
      Act.expect false (.danglingUnlock h)
      Act.log (.danglingUnlock h)
      return a
  | some record =>
      if record.state.isFree then
        Act.expect false (.freeUnlock h)
        Act.log (.freeUnlock h)
        return a
      else
        a.setState h .unlocked

/-- Pins the chunk of `h`, and refuses handles without a chunk in use. -/
def tryPin (a : Arena) (h : Handle) (state : ChunkState) : Act (Except Misuse Nat × Arena) := do
  match a.permit h with
  | .error misuse => return (.error misuse, a)
  | .ok record =>
      let (addr, a) ← a.pinRecord h record state
      return (.ok addr, a)

/-- `lock`, but refuses handles without a chunk in use. -/
def tryLock (a : Arena) (h : Handle) : Act (Except Misuse Nat × Arena) :=
  a.tryPin h .locked

/-- `weakLock`, but refuses handles without a chunk in use. -/
def tryWeakLock (a : Arena) (h : Handle) : Act (Except Misuse Nat × Arena) :=
  a.tryPin h .weakLocked

/-- `unlock`, but refuses handles without a chunk in use. -/
def tryUnlock (a : Arena) (h : Handle) : Act (Except Misuse Unit × Arena) := do
  match a.permit h with
  | .error misuse => return (.error misuse, a)
  | .ok _ => return (.ok (), ← a.setState h .unlocked)

end CompactingArena.Arena
