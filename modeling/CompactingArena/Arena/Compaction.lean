import CompactingArena.Arena.Audit
import CompactingArena.Clock
import CompactingArena.Compaction.Settle
/-!
# Compaction

A compaction sorts the header chain by address, slides chunks down until there
is nothing left to slide or its time is up, and settles.  Time is checked
between passes only, so that the arena is consistent whenever it ends.
-/

namespace CompactingArena.Arena

/-- Checks that the addresses of some records do not descend. -/
def checkAscending (a : Arena) : Nat → List Handle → Act Unit
  | _, [] => return ()
  | previous, h :: rest => do
      let addr := (← a.headers.get h).addr
      if addr < previous then
        Act.violate (.unsortedChain addr)
      else
        a.checkAscending addr rest

/-- Brings the header chain into address order. -/
def sortChain (a : Arena) : Act Arena := do
  let headers ← a.headers.sortChain
  let a := { a with headers }
  a.checkAscending 0 (← headers.chained)
  return a

/-- Whether the time of a compaction is up at a reading; a budget of zero is
unlimited. -/
def timeIsUp (budget start now : Nat) : Bool :=
  budget ≠ 0 && budget ≤ now - start

/-- How far a compaction has come. -/
structure Progress where
  /-- The readings of the clock that were taken. -/
  readings : Nat := 1
  /-- The record after which the next pass begins, or `none` for the head of
  the chain. -/
  cursor : Option Handle := none
  report : CompactionReport := {}
  arena : Arena

/-- Carries the next pass out, unless the time is up. -/
def passInTime (budget : Nat) (clock : Readings) (p : Progress) :
    Act (Act.Round Progress (CompactionReport × Arena)) := do
  if timeIsUp budget (clock 0) (clock p.readings) then
    return .done (p.report, p.arena)
  let readings := p.readings + 1
  match ← p.arena.compactionPass p.cursor with
  | (.ok (.slid next bytes), arena) =>
      let passes ← Word.add p.report.passes 1
      let bytesMoved ← Word.add p.report.bytesMoved bytes
      let report := { p.report with passes, bytesMoved }
      return .next { readings, cursor := some next, report, arena }
  | (.ok (.skipped next), arena) =>
      return .next { p with readings, cursor := some next, arena }
  | (.ok .done, arena) => return .done ({ p.report with completed := true }, arena)
  | (.error violation, arena) =>
      Act.violate violation
      return .done (p.report, arena)

/-- Runs at most `limit` passes, from the head of the chain on. -/
def runPasses (budget : Nat) (clock : Readings) (limit : Nat) (a : Arena) :
    Act (CompactionReport × Arena) :=
  Act.loop (passInTime budget clock) limit { arena := a }

/-- The number of passes after which a compaction is taken to be endless.
Every pass leaves fewer chunks in use after its cursor, so that a chain that
ends admits no more passes than it has chunks.  On a chain that returns to
itself only time ends a compaction; a budget is a word, and a clock that moves
on with every reading has used it up by then. -/
def passLimit : Nat := Word.modulus

/-- Compacts for at most `budget` nanoseconds by a clock, or to completion if
the budget is zero. -/
def compact (a : Arena) (budget : Nat) (clock : Readings) : Act (CompactionReport × Arena) := do
  let highBefore := a.memoryHigh
  let a ← a.sortChain
  let (report, a) ← runPasses budget clock passLimit a
  let a ← a.settle
  let report := { report with reclaimed := highBefore - a.memoryHigh }
  let counters ← a.counters.accountCompaction report.passes report.bytesMoved
  let a := { a with counters }
  Act.log (.compacted report a.memoryHigh)
  a.selfCheck
  return (report, a)

end CompactingArena.Arena
