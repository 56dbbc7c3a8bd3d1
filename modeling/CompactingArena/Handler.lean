import CompactingArena.Operation
/-!
# Handlers of shortages

When a request finds no room, a handler may call any operation to make some,
look at the arena in between, and then either have the request tried again or
give up.  It knows the requests it was asked about before, which is all the
memory it has.
-/

namespace CompactingArena

/-- What a handler does about one shortage. -/
inductive Plan
  | giveUp
  | retry
  | say (event : Event) (next : Plan)
  /-- Calls an operation and goes on by its answer and the arena it leaves. -/
  | perform (op : Op) (next : op.Reply → Arena → Plan)

/-- Calls operations in order, whatever they answer. -/
def Plan.sequence (last : Plan) : List Op → Plan
  | [] => last
  | op :: rest => .perform op fun _ _ => sequence last rest

structure Handler where
  /-- What to do about a request of `size` bytes, given the sizes of the
  earlier requests that the handler was asked about. -/
  plan : List Nat → Nat → Arena → Plan
  /-- How often a request is tried at most in a region of a given size; more
  attempts count as endless. -/
  rounds : Nat → Nat

namespace Handler

def refusing : Handler where
  plan _ _ _ := .giveUp
  rounds _ := 1

/-- Compacts without a limit.  The request is tried again only if that lowered
the high-water mark or gave a larger free chunk than before, so a fully packed
arena refuses promptly; and since the mark never rises meanwhile, the attempts
come to an end. -/
def compacting : Handler where
  plan _ size _ :=
    .perform (.highestUsed false) fun (high : Nat) _ =>
    .perform .largestFreeChunk fun (largest : Nat) _ =>
    .perform (.compact 0 .still) fun (report : CompactionReport) _ =>
    .say (.compactedForRequest size report) <|
    .perform (.highestUsed false) fun (high' : Nat) _ =>
    if high' < high then .retry
    else
      .perform .largestFreeChunk fun (largest' : Nat) _ =>
      if largest < largest' then .retry else .giveUp
  rounds size := (size + 1) * (size + 1) + 1

/-- One entry of a script. -/
structure Reaction where
  ops : List Op
  /-- Whether the request is tried again afterwards. -/
  retries : Bool

/-- Follows a script, one entry for each shortage, and gives up at its end. -/
def scripted (script : List Reaction) : Handler where
  plan earlier _ _ :=
    match script[earlier.length]? with
    | none => .giveUp
    | some reaction =>
        Plan.sequence (if reaction.retries then .retry else .giveUp) reaction.ops
  rounds _ := script.length + 1

end Handler

end CompactingArena
