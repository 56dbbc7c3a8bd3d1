import CompactingArena.Arena
import CompactingArena.Compaction.Slide
/-!
# Settling

After the slides adjacent free chunks are merged, the free space above the
highest chunk in use goes back to the unallocated top, the header table
shrinks, and the free lists are built anew.
-/

namespace CompactingArena

namespace HeaderTable

/-- Lets the free chunk of `h` absorb the free chunks that follow it. -/
def absorb (h : Handle) : Nat → HeaderTable → Act HeaderTable
  | limit, t => do
      match ← t.next h with
      | none => return t
      | some following =>
          let absorbed ← t.get following
          if absorbed.state.isFree then
            match limit with
            | 0 => Act.fail .endless
            | limit + 1 =>
                let size ← Word.add (← t.get h).size absorbed.size
                let t ← t.update h fun record => { record with size, next := absorbed.next }
                let t ← t.release following
                absorb h limit t
          else
            return t

/-- Merges runs of free chunks from `current` on.  The answer is whether the
chain ended within `limit` records. -/
def coalesce : Nat → Option Handle → HeaderTable → Act (Bool × HeaderTable)
  | _, none, t => return (true, t)
  | 0, some _, t => return (false, t)
  | limit + 1, some h, t => do
      let t ← if (← t.get h).state.isFree then absorb h t.walkLimit t else pure t
      coalesce limit (← t.next h) t

/-- The last of the chunks in use that end highest, with its end. -/
def highestOf (t : HeaderTable) :
    List Handle → Option (Handle × Nat) → Act (Option (Handle × Nat))
  | [], best => return best
  | h :: rest, best => do
      let record ← t.get h
      if record.state.isFree then
        t.highestOf rest best
      else
        let acme ← record.acme
        let beaten := best.all fun (_, highest) => decide (highest ≤ acme)
        t.highestOf rest (if beaten then some (h, acme) else best)

/-- Drops the free chunks from `current` on that do not lie below
`memoryHigh`. -/
def dropAbove (memoryHigh : Nat) :
    Nat → Option Handle → Option Handle → HeaderTable → Act HeaderTable
  | _, _, none, t => return t
  | 0, _, some _, _ => Act.fail .endless
  | limit + 1, before, some h, t => do
      let record ← t.get h
      if record.state.isFree && memoryHigh ≤ record.addr then
        let t ← (t.linkAfter before record.next).release h
        dropAbove memoryHigh limit before record.next t
      else
        dropAbove memoryHigh limit (some h) record.next t

end HeaderTable

/-- Files the free chunks of the header chain from `current` on. -/
def SizeClasses.refile (headers : HeaderTable) :
    Nat → Option Handle → SizeClasses → Region → Act (SizeClasses × Region)
  | _, none, c, region => return (c, region)
  | 0, some _, _, _ => Act.fail .endless
  | limit + 1, some h, c, region => do
      let (c, region) ←
        if (← headers.get h).state.isFree then c.insert headers region h
        else pure (c, region)
      SizeClasses.refile headers limit (← headers.next h) c region

namespace Arena

def settle (a : Arena) : Act Arena := do
  let capacity := a.headers.capacity
  let (ended, headers) ← HeaderTable.coalesce capacity a.headers.chain a.headers
  if !ended then
    Act.violate .cycleDetected
    return { a with headers }
  let highest ← headers.highestOf (← Chain.take headers capacity headers.chain) none
  let memoryHigh := (highest.map (·.2)).getD 0
  let headers ←
    HeaderTable.dropAbove memoryHigh headers.walkLimit none headers.chain headers
  let (_, headers) ← headers.shrink
  let (classes, region) ←
    SizeClasses.refile headers headers.walkLimit headers.chain a.classes.clear a.region
  return { a with headers, classes, region, memoryHigh, highest := highest.map (·.1) }

end Arena

end CompactingArena
