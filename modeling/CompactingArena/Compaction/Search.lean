import CompactingArena.Act.Loop
import CompactingArena.HeaderTable
/-!
# Finding what to slide

Compaction looks along the sorted header chain for a run of free chunks and,
after it, a run of unlocked chunks to slide down into the hole.  If pinned
chunks lie between the two, the run that moves past them must fit into the
hole.
-/

namespace CompactingArena

/-- A run of consecutive records of the header chain. -/
structure Run where
  first : Handle
  last : Handle
  /-- The bytes of its chunks. -/
  size : Nat
deriving DecidableEq

/-- A run of chunks to slide into a hole below it. -/
structure Slide where
  /-- The record before the hole, or `none` at the head of the chain. -/
  beforeHole : Option Handle
  hole : Run
  /-- The record after the hole. -/
  afterHole : Handle
  /-- The record before the moved run. -/
  beforeMoved : Handle
  moved : Run
deriving DecidableEq

/-- Where a search for a slide ends. -/
inductive Search
  /-- There is nothing left to slide. -/
  | done
  /-- Nothing fits into this hole; the search goes on after `cursor`. -/
  | skip (cursor : Handle)
  | slide (job : Slide)
deriving DecidableEq

namespace HeaderTable

/-- The number of steps after which a walk that changes the table is taken to
be endless. -/
def walkLimit (t : HeaderTable) : Nat := 2 * (t.capacity + 1)

/-- The first free chunk from `current` on, with the record before it. -/
def findFree (t : HeaderTable) :
    Nat → Option Handle → Option Handle → Act (Option (Option Handle × Handle))
  | _, _, none => return none
  | 0, _, some _ => Act.fail .endless
  | limit + 1, before, some h => do
      if (← t.get h).state.isFree then
        return some (before, h)
      else
        t.findFree limit (some h) (← t.next h)

/-- Extends a run by the next record, if `accept` holds of it and of the size
of the run. -/
def extendRun (t : HeaderTable) (accept : Record → Nat → Act Bool) (run : Run) :
    Act (Act.Round Run Run) := do
  match ← t.next run.last with
  | none => return .done run
  | some h =>
      let record ← t.get h
      if ← accept record run.size then
        return .next { run with last := h, size := ← Word.add run.size record.size }
      else
        return .done run

/-- The number of records after which a run is taken to be endless.  A run of
nonempty chunks has fewer, for its size is a word. -/
def runLimit : Nat := Word.modulus

/-- The run that begins at `first`. -/
def runFrom (t : HeaderTable) (first : Handle) (accept : Record → Nat → Act Bool) :
    Act Run := do
  Act.loop (t.extendRun accept) runLimit ⟨first, first, (← t.get first).size⟩

/-- Where a search for a chunk that fits a hole ends. -/
inductive Candidate
  | none
  /-- Another hole comes first, after `cursor`. -/
  | hole (cursor : Handle)
  | found (before first : Handle)

/-- The first unlocked chunk from `current` on that fits into `room` bytes,
unless a free chunk comes first. -/
def findCandidate (t : HeaderTable) (room : Nat) :
    Nat → Handle → Option Handle → Act Candidate
  | _, _, none => return .none
  | 0, _, some _ => Act.fail .endless
  | limit + 1, before, some h => do
      let record ← t.get h
      if record.state.isFree then
        return .hole before
      else if record.state = .unlocked ∧ record.size ≤ room then
        return .found before h
      else
        t.findCandidate room limit h record.next

/-- Unlocked chunks, as many as there are. -/
def anyUnlocked (record : Record) (_ : Nat) : Act Bool :=
  return record.state = .unlocked

/-- Unlocked chunks, as long as their sum fits into `room` bytes. -/
def unlockedWithin (room : Nat) (record : Record) (sum : Nat) : Act Bool := do
  if record.state = .unlocked then
    return (← Word.add sum record.size) ≤ room
  else
    return false

/-- Searches the header chain for the next slide, from after `cursor` on. -/
def findSlide (t : HeaderTable) (cursor : Option Handle) : Act Search := do
  let start ← match cursor with
    | none => pure t.chain
    | some h => t.next h
  match ← t.findFree t.walkLimit cursor start with
  | none => return .done
  | some (beforeHole, first) =>
      let hole ← t.runFrom first fun record _ => pure record.state.isFree
      match ← t.next hole.last with
      | none => return .done
      | some afterHole =>
          if (← t.get afterHole).state.isPinned then
            match ← t.findCandidate hole.size t.walkLimit hole.last (some afterHole) with
            | .none => return .done
            | .hole cursor => return .skip cursor
            | .found beforeMoved first =>
                let moved ← t.runFrom first (unlockedWithin hole.size)
                return .slide { beforeHole, hole, afterHole, beforeMoved, moved }
          else
            let moved ← t.runFrom afterHole anyUnlocked
            return .slide { beforeHole, hole, afterHole, beforeMoved := hole.last, moved }

end HeaderTable

end CompactingArena
