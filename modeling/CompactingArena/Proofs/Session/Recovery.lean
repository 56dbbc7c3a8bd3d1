import CompactingArena.Proofs.Session.Care
import CompactingArena.Proofs.Session.Trespass
/-!
# Recovery from stale writes

The free lists are all that stale writes can put out of order.  Requests that are served
from broken lists may hand out a chunk that is in use, but never anything that is not a
chunk, and the next compaction makes the lists good again.
-/

namespace CompactingArena.Session

open Act Arena

variable {config : Config} {available size : Nat} {a : Arena} {strokes : List Stroke}

/-- Where shortages are refused, no stale write makes a call fault or run on without end, and
after every call the header table describes chunks that tile the memory in use.  A
compaction moreover leaves an arena that passes the audit, whatever the bytes of the
region and the heads of the classes were before. -/
theorem slab_of_suffer (hestablish : (establish config available size).result .release = .ok (.ok a))
    (hstrokes : ∀ stroke ∈ strokes, stroke.readsLists = false) :
    ∃ s, (suffer .refusing strokes ⟨a, []⟩).result .release = .ok s ∧
      (∃ chunks spare, s.arena.Slab chunks spare) ∧
      ∀ (region : Region) (classes : SizeClasses), region.size = s.arena.region.size →
        classes.count = s.arena.classes.count → ∀ budget clock, ∃ report s',
          (call .refusing (.compact budget clock)
            { s with arena := { s.arena with region, classes } }).result .release =
              .ok (report, s') ∧
            s'.arena.verify = pure () ∧ ∃ chunks spare, s'.arena.Slab chunks spare := by
  have hsteady : a.Steady := ⟨_, _, (sound_of_establish hestablish).toOrderly.framed⟩
  obtain ⟨s, hrun, chunks, spare, hframed⟩ :=
    ends_iff.mp (ends_suffer_refusing (s := ⟨a, []⟩) hsteady hstrokes)
  refine ⟨s, hrun, ⟨chunks, spare, hframed.toLaid.slab hframed.topped⟩, ?_⟩
  intro region classes hsize hcount budget clock
  have hdamaged : Steady { s.arena with region, classes } :=
    ⟨chunks, spare, hframed.congr rfl hsize hcount rfl rfl⟩
  obtain ⟨⟨report, b⟩, hcompact, chunks', spare', horderly⟩ :=
    ends_iff.mp (hdamaged.ends_compact budget clock)
  refine ⟨report, { s with arena := b }, ?_, horderly.verify, chunks', spare',
    horderly.toLaid.slab horderly.topped⟩
  exact (result_bind_ok hcompact).trans (result_pure _ _)

/-- A client that forges a trailer in a chunk in use and links it into a free list, so that
the chunk is handed out a second time, and then leaves a broken list behind. -/
def intruder : List Stroke :=
  [.call (.allocate 16), .call (.allocate 16), .call (.allocate 16), .call (.tryFree (nth 0)),
    .stray 8 ⟨#[3, 0, 0, 0, 0, 0, 0, 0]⟩, .stray 32 ⟨#[3, 0, 0, 0, 0, 0, 0, 0]⟩,
    .call (.allocate 16), .call (.allocate 16), .call (.tryFree (nth 1)), .stray 16 ⟨#[9]⟩]

theorem slab_of_suffer_intruder :
    ∃ s, (suffer .refusing intruder ⟨small, []⟩).result .release = .ok s ∧
      s.arena.verify.run.result .release = .ok (.error (.trailerMismatch (nth 1))) ∧
      ∃ report s', (call .refusing (.compact 0 .still) s).result .release = .ok (report, s') ∧
        s'.arena.verify = pure () := by
  have hstrokes : ∀ stroke ∈ intruder, stroke.readsLists = false := by decide
  obtain ⟨s, hrun, -, hheals⟩ := slab_of_suffer (establish_small .release) hstrokes
  obtain ⟨report, s', hcompact, hverify, -⟩ :=
    hheals s.arena.region s.arena.classes rfl rfl 0 .still
  have hbroken : (suffer .refusing intruder ⟨small, []⟩).afterwards (fun s =>
      decide (s.arena.verify.run.result .release = .ok (.error (.trailerMismatch (nth 1))))) =
        true := by decide +kernel
  have hverdict := Act.of_afterwards hbroken hrun
  exact ⟨s, hrun, of_decide_eq_true hverdict, report, s', hcompact, hverify⟩

end CompactingArena.Session
