import CompactingArena.Proofs.Counters
import CompactingArena.Session
/-!
# Careful clients

The unchecked operations trust their callers: a chunk that is freed must have a
record, and one that is pinned or unpinned must be in use.  `Session.Care` tells
whether the clients of a session and its handler of shortages keep to this, and
whether the running totals hold what is added to them.  It looks at a release build,
where a total that is exceeded goes down and nothing else happens.
-/

namespace CompactingArena

/-- Whether a client may call an operation. -/
def Op.permitted (a : Arena) : Op → Bool
  | .free h => (a.headers.live? h).isSome
  | .lock h | .weakLock h | .unlock h => (a.inUse? h).isSome
  | _ => true

/-- Whether a check passes on what a release build makes of an act, if it makes
anything of it. -/
def Act.afterwards {α : Type} (x : Act α) (check : α → Bool) : Bool :=
  match x.result .release with
  | .ok a => check a
  | .error _ => true

theorem Act.of_afterwards {α : Type} {x : Act α} {check : α → Bool} {a : α}
    (h : x.afterwards check = true) (hx : x.result .release = .ok a) : check a = true := by
  rw [afterwards, hx] at h
  exact h

/-- Whether no running total is lower in `b` than in `a`. -/
def Arena.ascends (a b : Arena) : Bool := decide (a.counters.Ascends b.counters)

namespace Session.Care

/-- What tells whether a request is served with care. -/
abbrev Judge : Type := Nat → Session → Bool

section Plans

variable (serve : Server) (judge : Judge)

/-- Whether a call is careful. -/
def perform (op : Op) (s : Session) : Bool :=
  match op with
  | .allocate size => judge size s
  | op =>
      op.permitted s.arena &&
        (s.perform serve op).afterwards fun (_, s') => s.arena.ascends s'.arena

/-- Whether a plan is carried out with care. -/
def follow : Plan → Session → Bool
  | .giveUp, _ => true
  | .retry, _ => true
  | .say _ next, s => follow next s
  | .perform op next, s =>
      perform serve judge op s &&
        (s.perform serve op).afterwards fun (reply, s') => follow (next reply s'.arena) s'

end Plans

def request (judgeChunk : Judge) : Judge := fun requested s =>
  match Arena.chunkSize? requested with
  | none => true
  | some size => judgeChunk size s

/-- Whether a request for a chunk of `size` bytes is served with care in at most so many
rounds; `lasting` tells whether it may take more. -/
def serveChunk (lasting : Bool) (handler : Handler) : Nat → Judge
  | 0, _, _ => lasting
  | rounds + 1, size, s =>
      (s.arena.tryAllocate size).afterwards fun (got, arena) =>
        s.arena.ascends arena &&
          match got with
          | some h => (arena.concludeAllocation h size).afterwards arena.ascends
          | none =>
              let serve := Session.request (Session.serveChunk handler rounds)
              let plan := handler.plan s.shortages size arena
              let s := { arena, shortages := s.shortages ++ [size] }
              follow serve (request (serveChunk lasting handler rounds)) plan s &&
                (Session.follow serve plan s).afterwards fun (again, s) =>
                  if again then serveChunk lasting handler rounds size s
                  else (s.arena.refuseAllocation size).afterwards s.arena.ascends

def allocate (lasting : Bool) (handler : Handler) : Judge := fun requested s =>
  request (serveChunk lasting handler (handler.rounds s.arena.region.size)) requested s

/-- Whether a call of a client is careful. -/
def call (lasting : Bool) (handler : Handler) (op : Op) (s : Session) : Bool :=
  perform (Session.allocate handler) (allocate lasting handler) op s

/-- Whether all calls are careful. -/
def run (lasting : Bool) (handler : Handler) : List Op → Session → Bool
  | [], _ => true
  | op :: rest, s =>
      call lasting handler op s &&
        (s.call handler op).afterwards fun (_, s') => run lasting handler rest s'

end Session.Care

end CompactingArena
