import CompactingArena.Arena.Audit
import CompactingArena.SizeClasses.Search
/-!
# Allocation

One attempt to serve a request, either with fresh memory at the high-water mark
or with a reclaimed chunk.  What happens when both fail is up to the handler of
shortages.
-/

namespace CompactingArena.Arena

/-- The size of the chunk that serves a request: a multiple of the alignment
that can hold a trailer once the chunk is free. -/
def chunkSize? (requested : Nat) : Option Nat :=
  (Word.alignUp requested).map fun size => max size Trailer.bytes

/-- What must lie between a new chunk and the header table: a record for it,
unless one can be recycled, and the reserve. -/
def clearance (a : Arena) : Nat :=
  (if a.headers.hasFreeRecord then 0 else Record.bytes) + Record.bytes * Record.reserved

/-- Carves a chunk from the memory above the high-water mark, if the header
table leaves room for it and for the reserve of records. -/
def bump (a : Arena) (size : Nat) : Act (Option (Handle × Arena)) := do
  let needed := a.memoryHigh + size + a.clearance
  if Word.max < needed then
    return none
  if (← a.headers.lowest) < needed then
    return none
  let acme := a.memoryHigh + size
  match ← a.headers.allocate true acme Record.reserved with
  | none => return none
  | some (h, headers) =>
      let headers ← headers.update h fun record => { record with addr := a.memoryHigh, size }
      return some (h, { a with headers, memoryHigh := acme, highest := some h })

/-- Splits the chunk of `h`, which has `whole` bytes, after the first `size`.
The rest becomes a free chunk that follows it on the header chain, unless it is
too small for a trailer or would need a record from the reserve. -/
def split (a : Arena) (h : Handle) (whole size : Nat) : Act Arena := do
  let leftover ← Word.sub whole size
  if leftover < Trailer.bytes then
    return a
  match ← a.headers.allocate false a.memoryHigh Record.reserved with
  | none => return a
  | some (rest, headers) =>
      let record ← a.headers.get h
      let addr ← Word.add record.addr size
      let headers ← headers.update rest fun _ =>
        { addr, size := leftover, next := record.next, nextUnused := none, state := .free }
      let headers ← headers.update h fun record => { record with size, next := some rest }
      let (classes, region) ← a.classes.insert headers a.region rest
      let highest := if a.highest = some h then some rest else a.highest
      return { a with headers, classes, region, highest }

/-- Takes a reclaimed chunk from the free lists and splits off the excess. -/
def reuse (a : Arena) (size : Nat) : Act (Option Handle × Arena) := do
  let (found, classes, region) ← a.classes.find a.headers a.region size
  let a := { a with classes, region }
  match found with
  | .error violation =>
      Act.violate violation
      return (none, a)
  | .ok none => return (none, a)
  | .ok (some h) =>
      let whole := (← a.headers.get h).size
      let headers ← a.headers.update h fun record => { record with state := .unlocked }
      let counters ← a.counters.accountReuse whole
      let a ← { a with headers, counters }.split h whole size
      return (some h, a)

/-- Tries to serve a request for a chunk of `size` bytes. -/
def tryAllocate (a : Arena) (size : Nat) : Act (Option Handle × Arena) := do
  match a.config.placement with
  | .reuseFirst =>
      match ← a.reuse size with
      | (some h, a) => return (some h, a)
      | (none, a) =>
          match ← a.bump size with
          | some (h, a) => return (some h, a)
          | none => return (none, a)
  | .bumpFirst =>
      match ← a.bump size with
      | some (h, a) => return (some h, a)
      | none => a.reuse size

/-- Accounts for a request that was served with the chunk of `h`. -/
def concludeAllocation (a : Arena) (h : Handle) (size : Nat) : Act Arena := do
  let record ← a.headers.get h
  let counters ← a.counters.accountAlloc record.size
  let a := { a with counters }
  Act.log (.allocated size h record.addr)
  a.selfCheck
  return a

def refuseAllocation (a : Arena) (size : Nat) : Act Arena := do
  let counters ← a.counters.accountOom
  Act.log (.outOfMemory size)
  return { a with counters }

end CompactingArena.Arena
