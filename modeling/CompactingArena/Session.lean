import CompactingArena.Arena.Allocation
import CompactingArena.Arena.Freeing
import CompactingArena.Arena.Pinning
import CompactingArena.Arena.Compaction
import CompactingArena.Handler
/-!
# Sessions

A session is an arena in use: the operations of clients run on it one after the
other, and the handler of shortages steps in where an allocation finds no room.
-/

namespace CompactingArena

/-- An arena in use. -/
structure Session where
  arena : Arena
  /-- The sizes of the requests that the handler was asked about. -/
  shortages : List Nat := []

namespace Session

/-- What serves requests: it takes the requested size. -/
abbrev Server : Type := Nat → Session → Act (Except OutOfMemory Handle × Session)

/-- Runs a change of the arena as a change of the session. -/
def changing {α : Type} (s : Session) (change : Arena → Act (α × Arena)) :
    Act (α × Session) := do
  let (answer, arena) ← change s.arena
  return (answer, { s with arena })

def updating (s : Session) (change : Arena → Act Arena) : Act (Unit × Session) := do
  return ((), { s with arena := ← change s.arena })

def asking {α : Type} (s : Session) (query : Arena → Act α) : Act (α × Session) := do
  return (← query s.arena, s)

/-- Writes into a chunk; a refused write changes nothing. -/
def write (s : Session) (h : Handle) (start : Nat) (bytes : ByteArray) :
    Act (Except Arena.WriteRefusal Unit × Session) := do
  match ← s.arena.write h start bytes with
  | .error refusal => return (.error refusal, s)
  | .ok arena => return (.ok (), { s with arena })

/-- Calls one operation; `serve` serves requests for memory. -/
def perform (serve : Server) (op : Op) (s : Session) : Act (op.Reply × Session) :=
  match op with
  | .allocate size => serve size s
  | .free h => s.updating (·.free h)
  | .tryFree h => s.changing (·.tryFree h)
  | .lock h => s.changing (·.lock h)
  | .weakLock h => s.changing (·.weakLock h)
  | .unlock h => s.updating (·.unlock h)
  | .tryLock h => s.changing (·.tryLock h)
  | .tryWeakLock h => s.changing (·.tryWeakLock h)
  | .tryUnlock h => s.changing (·.tryUnlock h)
  | .write h start bytes => s.write h start bytes
  | .compact budget clock => s.changing (·.compact budget clock)
  | .totalFreeBytes => s.asking (·.totalFreeBytes)
  | .largestFreeChunk => s.asking (·.largestFreeChunk)
  | .highestUsed exact => s.asking (·.highestUsed exact)

/-- Follows a plan to its end.  The answer is whether the request is to be
tried again. -/
def follow (serve : Server) : Plan → Session → Act (Bool × Session)
  | .giveUp, s => return (false, s)
  | .retry, s => return (true, s)
  | .say event next, s => do
      Act.log event
      follow serve next s
  | .perform op next, s => do
      let (reply, s) ← s.perform serve op
      follow serve (next reply s.arena) s

/-- Rounds a request up to the size of a chunk. -/
def request (serveChunk : Server) : Server := fun requested s => do
  match Arena.chunkSize? requested with
  | none =>
      Act.log (.requestOverflow requested)
      return (.error .outOfMemory, s)
  | some size => serveChunk size s

/-- Serves a request for a chunk of `size` bytes in at most so many rounds: as
long as there is no room, the handler decides whether to try again. -/
def serveChunk (handler : Handler) : Nat → Server
  | 0, _, _ => Act.fail .endless
  | rounds + 1, size, s => do
      match ← s.arena.tryAllocate size with
      | (some h, arena) =>
          let arena ← arena.concludeAllocation h size
          return (.ok h, { s with arena })
      | (none, arena) =>
          let plan := handler.plan s.shortages size arena
          let s := { arena, shortages := s.shortages ++ [size] }
          let (again, s) ← follow (request (serveChunk handler rounds)) plan s
          if again then
            serveChunk handler rounds size s
          else
            let arena ← s.arena.refuseAllocation size
            return (.error .outOfMemory, { s with arena })

/-- Allocates a chunk of at least `requested` bytes. -/
def allocate (handler : Handler) : Server := fun requested s =>
  request (serveChunk handler (handler.rounds s.arena.region.size)) requested s

def call (handler : Handler) (op : Op) (s : Session) : Act (op.Reply × Session) :=
  s.perform (allocate handler) op

def run (handler : Handler) : List Op → Session → Act Session
  | [], s => return s
  | op :: rest, s => do
      let (_, s) ← s.call handler op
      run handler rest s

end Session

end CompactingArena
