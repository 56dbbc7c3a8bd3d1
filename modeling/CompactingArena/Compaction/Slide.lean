import CompactingArena.Arena
import CompactingArena.Compaction.Search
/-!
# Sliding

A slide copies a run of unlocked chunks down to the start of a hole and relinks
the chain in address order.  If the run was adjacent to the hole, the hole ends
up above it; otherwise the run leaves a new hole where it was, and what is left
of the old one becomes a free chunk if it can hold a trailer.
-/

namespace CompactingArena

/-- What one pass of a compaction did. -/
inductive Pass
  /-- It moved `bytes` bytes; the next pass begins after `cursor`. -/
  | slid (cursor : Handle) (bytes : Nat)
  | skipped (cursor : Handle)
  | done
deriving DecidableEq

/-- Moves the chunks from `current` to `last` down by `distance` bytes. -/
def moveRun (distance : Nat) (last : Handle) :
    Nat → Option Handle → HeaderTable → Region → Act (HeaderTable × Region)
  | _, none, headers, region => return (headers, region)
  | 0, some _, _, _ => Act.fail .endless
  | limit + 1, some h, headers, region => do
      let record ← headers.get h
      let addr ← Word.sub record.addr distance
      let headers ← headers.update h fun record => { record with addr }
      let region ← region.copyWithin record.addr addr record.size
      if h = last then
        return (headers, region)
      else
        moveRun distance last limit record.next headers region

/-- Releases the records from `current` to `last`, which describe space that no
client can reach. -/
def releaseRun (last : Handle) : Nat → Option Handle → HeaderTable → Act HeaderTable
  | _, none, headers => return headers
  | 0, some _, _ => Act.fail .endless
  | limit + 1, some h, headers => do
      let next ← headers.next h
      let headers ← headers.release h
      if h = last then
        return headers
      else
        releaseRun last limit next headers

namespace HeaderTable

/-- Lets `next` follow `before`, or head the chain. -/
def linkAfter (t : HeaderTable) (before next : Option Handle) : HeaderTable :=
  match before with
  | some h => t.setNext h next
  | none => { t with chain := next }

/-- Obtains a record for the free bytes at `addr`, not yet linked.  Compaction
may use the reserve of records. -/
def freeRecord (t : HeaderTable) (memoryHigh addr size : Nat) :
    Act (Option (Handle × HeaderTable)) := do
  match ← t.allocate false memoryHigh 0 with
  | none => return none
  | some (h, t) =>
      let t ← t.update h fun record => { record with addr, size, state := .free }
      return some (h, t)

end HeaderTable

namespace Arena

/-- Puts the hole above a run that was adjacent to it. -/
def relinkAdjacent (a : Arena) (job : Slide) (holeAddr : Nat) (rest : Option Handle) :
    Act (Except Violation Unit × Arena) := do
  let addr ← Word.add holeAddr job.moved.size
  match ← a.headers.freeRecord a.memoryHigh addr job.hole.size with
  | none => return (.error .headerExhausted, a)
  | some (hole, headers) =>
      let headers := headers.setNext job.moved.last (some hole)
      let headers := headers.setNext hole rest
      return (.ok (), { a with headers })

/-- Lets the last moved chunk absorb the rest of a hole. -/
def fold (a : Arena) (job : Slide) (remainder : Nat) : Act Arena := do
  let counters ←
    if remainder = 0 then pure a.counters
    else do
      Act.log (.folded remainder job.moved.last)
      a.counters.accountFold remainder
  let size ← Word.add (← a.headers.get job.moved.last).size remainder
  let headers ← a.headers.update job.moved.last fun record => { record with size }
  let headers := headers.setNext job.moved.last (some job.afterHole)
  return { a with headers, counters }

/-- Puts a new hole where a run was that moved past pinned chunks, and keeps
the rest of the old hole free if it can hold a trailer. -/
def relinkPast (a : Arena) (job : Slide) (holeAddr vacatedAddr : Nat) (rest : Option Handle) :
    Act (Except Violation Unit × Arena) := do
  match ← a.headers.freeRecord a.memoryHigh vacatedAddr job.moved.size with
  | none => return (.error .headerExhausted, a)
  | some (vacated, headers) =>
      let headers := headers.setNext job.beforeMoved (some vacated)
      let headers := headers.setNext vacated rest
      let a := { a with headers }
      let remainder ← Word.sub job.hole.size job.moved.size
      let spare ←
        if remainder < Trailer.bytes then pure none
        else do
          let addr ← Word.add holeAddr job.moved.size
          a.headers.freeRecord a.memoryHigh addr remainder
      match spare with
      | some (spare, headers) =>
          let headers := headers.setNext job.moved.last (some spare)
          let headers := headers.setNext spare (some job.afterHole)
          return (.ok (), { a with headers })
      | none => return (.ok (), ← a.fold job remainder)

def slide (a : Arena) (job : Slide) : Act (Except Violation Pass × Arena) := do
  let holeAddr := (← a.headers.get job.hole.first).addr
  let movedAddr := (← a.headers.get job.moved.first).addr
  let distance ← Word.sub movedAddr holeAddr
  if distance = 0 then
    return (.error .zeroOffset, a)
  let adjacent := job.beforeMoved = job.hole.last
  let rest ← a.headers.next job.moved.last
  let limit := a.headers.walkLimit
  let (headers, region) ←
    moveRun distance job.moved.last limit (some job.moved.first) a.headers a.region
  let headers ← releaseRun job.hole.last limit (some job.hole.first) headers
  let headers := headers.linkAfter job.beforeHole (some job.moved.first)
  let a := { a with headers, region }
  let (linked, a) ←
    if adjacent then a.relinkAdjacent job holeAddr rest
    else a.relinkPast job holeAddr movedAddr rest
  match linked with
  | .error violation => return (.error violation, a)
  | .ok () =>
      Act.log (.slid job.moved.size distance holeAddr (!adjacent))
      return (.ok (.slid job.moved.last job.moved.size), a)

/-- One pass: finds the next slide after `cursor` and carries it out. -/
def compactionPass (a : Arena) (cursor : Option Handle) :
    Act (Except Violation Pass × Arena) := do
  match ← a.headers.findSlide cursor with
  | .done => return (.ok .done, a)
  | .skip cursor => return (.ok (.skipped cursor), a)
  | .slide job => a.slide job

end Arena

end CompactingArena
