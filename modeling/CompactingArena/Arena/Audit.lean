import CompactingArena.Arena.Statistics
import CompactingArena.Sorting
/-!
# The audit

`Arena.verify` checks the structure of an arena: chains end, chunks tile the
bytes below the high-water mark, every free chunk is filed where it belongs,
and every unused record can be recycled.  Debug builds run it at the end of
every operation that changes the layout.
-/

namespace CompactingArena

/-- A check that may find a broken invariant. -/
abbrev Audit (α : Type) : Type := ExceptT Violation Act α

namespace Audit

/-- A verdict that was reached elsewhere. -/
def conclude {α : Type} (verdict : Except Violation α) : Audit α :=
  ExceptT.mk (pure verdict)

/-- A broken invariant unless a condition holds. -/
def ensure (holds : Bool) (violation : Violation) : Audit Unit :=
  conclude (if holds then .ok () else .error violation)

end Audit

namespace Arena

open Audit

/-- The chunks of the header chain from a link on, with their spans, all of
which must be live, nonempty and below the high-water mark. -/
def auditChain (a : Arena) : Nat → Option Handle → Audit (List (Span × Bool))
  | _, none => pure []
  | 0, some _ => throw .cycleDetected
  | limit + 1, some h => do
      match a.headers.live? h with
      | none => throw (.outOfBounds Record.unset)
      | some record =>
          let span ← Span.ofBaseSize record.addr record.size
          ensure (!span.isEmpty && (Span.mk 0 a.memoryHigh).contains span)
            (.outOfBounds record.addr)
          let rest ← a.auditChain limit (← a.headers.next h)
          return (span, record.state.isFree) :: rest

/-- Spans in ascending order do not overlap. -/
def auditOverlap : List Span → Except Violation Unit
  | span :: following :: rest =>
      if span.overlaps following then
        throw (.regionOverlap following.base)
      else
        auditOverlap (following :: rest)
  | _ => pure ()

/-- Spans follow one another from `start` to `finish` without a gap. -/
def auditTiling (finish : Nat) : Nat → List Span → Except Violation Unit
  | start, [] => if start = finish then pure () else throw .conservation
  | start, span :: rest =>
      if span.base = start then auditTiling finish span.acme rest else throw .conservation

/-- What is known of the filed chunks so far: their number, and whether the
last of them that is filed wrongly shows it. -/
structure FiledSoFar where
  count : Nat
  verdict : Except Violation Unit := .ok ()

/-- Looks at one chunk filed in a class. -/
def auditFiled (a : Arena) (sizeClass : Nat) (soFar : FiledSoFar) (h : Handle) :
    Act FiledSoFar := do
  let count := soFar.count + 1
  let record ← a.headers.get h
  if !record.state.isFree then
    return ⟨count, .error (.trailerMismatch h)⟩
  else if (← a.classes.classOf record.size) ≠ sizeClass then
    return ⟨count, .error (.sizeClassMismatch sizeClass record.size)⟩
  else
    return { soFar with count }

/-- Looks at the chunks filed in the given classes, and adds their number to
`count`. -/
def auditClasses (a : Arena) : List Nat → Nat → Audit Nat
  | [], count => pure count
  | sizeClass :: rest, count => do
      let (soFar, walked) ←
        a.classes.walk a.headers a.region (a.auditFiled sizeClass) sizeClass
          (FiledSoFar.mk count (.ok ()))
      conclude walked
      conclude soFar.verdict
      ensure (soFar.count ≤ a.headers.capacity) .cycleDetected
      a.auditClasses rest soFar.count

/-- Checks the structure of the arena. -/
def verify (a : Arena) : Audit Unit := do
  let capacity := a.headers.capacity
  let headerLow ← a.headers.lowest
  ensure (a.memoryHigh ≤ headerLow) (.outOfBounds a.memoryHigh)
  let chunks ← a.auditChain capacity a.headers.chain
  let spans := Sorting.mergeSort (fun s t => decide (s.base ≤ t.base)) (chunks.map (·.1))
  conclude (auditOverlap spans)
  conclude (auditTiling a.memoryHigh 0 spans)
  let filed ← a.auditClasses (List.range a.classes.count) 0
  ensure (filed = chunks.countP (·.2)) .conservation
  let recyclable := a.headers.freeRecordList.length
  ensure (recyclable ≤ capacity) .cycleDetected
  ensure (recyclable + chunks.length = capacity) .conservation
  let highestEnd ← a.highestUsed false
  ensure (highestEnd = a.memoryHigh) (.outOfBounds highestEnd)
  let accounted ← Word.add a.headers.footprint a.memoryHigh
  ensure (accounted ≤ a.region.size) .conservation

/-- The audit that debug builds run after an operation. -/
def selfCheck (a : Arena) : Act Unit := do
  match ← Act.build with
  | .release => pure ()
  | .debug =>
      match ← a.verify.run with
      | .ok () => pure ()
      | .error violation =>
          let map ← a.layoutMap none
          Act.fail (.auditFailed violation map)

end Arena

end CompactingArena
