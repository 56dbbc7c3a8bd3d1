import CompactingArena.Arena
import CompactingArena.Span
/-!
# Statistics

What an arena tells about itself.  Free bytes are counted by walking the free
lists, everything else by walking the header chain.
-/

namespace CompactingArena

/-- The number of chunks in each state. -/
structure BlockCounts where
  free : Nat := 0
  unlocked : Nat := 0
  locked : Nat := 0
  weakLocked : Nat := 0
  /-- The bytes that compaction may move. -/
  unlockedBytes : Nat := 0
deriving DecidableEq

/-- Counts one more chunk. -/
def BlockCounts.count (c : BlockCounts) (record : Record) : Act BlockCounts :=
  match record.state with
  | .free => return { c with free := c.free + 1 }
  | .unlocked => do
      let unlockedBytes ← Word.add c.unlockedBytes record.size
      return { c with unlocked := c.unlocked + 1, unlockedBytes }
  | .locked => return { c with locked := c.locked + 1 }
  | .weakLocked => return { c with weakLocked := c.weakLocked + 1 }

namespace Arena

section FreeLists

variable {β : Type}

/-- Combines the sizes of the chunks filed in the given classes.  A broken list
ends the walk. -/
def foldFreeFrom (a : Arena) (f : β → Nat → Act β) : List Nat → β → Act β
  | [], acc => return acc
  | sizeClass :: rest, acc => do
      let visit acc h := do f acc (← a.headers.get h).size
      match ← a.classes.walk a.headers a.region visit sizeClass acc with
      | (acc, .ok ()) => foldFreeFrom a f rest acc
      | (acc, .error violation) =>
          Act.violate violation
          return acc

/-- Combines the sizes of all chunks in the free lists. -/
def foldFree (a : Arena) (f : β → Nat → Act β) (acc : β) : Act β :=
  a.foldFreeFrom f (List.range a.classes.count) acc

end FreeLists

def totalFreeBytes (a : Arena) : Act Nat :=
  a.foldFree Word.add 0

/-- The size of the largest chunk in the free lists, or zero. -/
def largestFreeChunk (a : Arena) : Act Nat :=
  a.foldFree (fun largest size => pure (max largest size)) 0

/-- The records of some handles. -/
def recordsOf (a : Arena) (handles : List Handle) : Act (List Record) :=
  handles.mapM a.headers.get

/-- The records on the header chain, in chain order. -/
def chunkRecords (a : Arena) : Act (List Record) := do
  a.recordsOf (← a.headers.chained)

/-- The records on the header chain whose chunks are in use. -/
def liveRecords (a : Arena) : Act (List Record) := do
  return (← a.chunkRecords).filter fun record => !record.state.isFree

def liveChunkCount (a : Arena) : Act Nat := do
  return (← a.liveRecords).length

/-- The spans of the chunks in use, in chain order. -/
def liveChunks (a : Arena) : Act (List Span) := do
  (← a.liveRecords).mapM fun record => Span.ofBaseSize record.addr record.size

/-- The end of the highest chunk in use.  The cheap form reads the highest
record, whose chunk may have been freed since; the exact form looks at every
chunk. -/
def highestUsed (a : Arena) (exact : Bool) : Act Nat := do
  if exact then
    return (← a.liveChunks).foldl (fun highest span => max highest span.acme) 0
  else
    match a.highest with
    | none => return 0
    | some h => (← a.headers.get h).acme

def blockCounts (a : Arena) : Act BlockCounts := do
  (← a.chunkRecords).foldlM BlockCounts.count {}

/-- A map of the chunks in chain order, one mark each; `only` selects those in
one state. -/
def layoutMap (a : Arena) (only : Option ChunkState) : Act String := do
  let shown := (← a.chunkRecords).filter fun record =>
    only.all fun state => decide (record.state = state)
  return String.ofList (shown.map fun record => record.state.glyph)

end Arena

end CompactingArena
