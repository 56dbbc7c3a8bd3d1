import CompactingArena.Act
/-!
# Loops

A loop repeats a step until the step answers.  One that takes more rounds than
it is given counts as endless.  The log is gathered on the way, so that a loop
needs no more stack for many rounds than for one; that this is the same as to
run one round and then the rest is the unfolding law `loop_succ`.
-/

namespace CompactingArena.Act

variable {σ α : Type}

inductive Round (σ α : Type)
  | next (state : σ)
  | done (answer : α)

/-- Repeats a step, where `earlier` is the log so far, the last record
first. -/
def loopFrom (step : σ → Act (Round σ α)) (build : Build) :
    Nat → σ → List Event → Outcome α
  | 0, _, earlier => ⟨.error .endless, earlier.reverse⟩
  | limit + 1, state, earlier =>
      match step state build with
      | ⟨.ok (.next state), log⟩ => loopFrom step build limit state (log.reverse ++ earlier)
      | ⟨.ok (.done answer), log⟩ => ⟨.ok answer, (log.reverse ++ earlier).reverse⟩
      | ⟨.error fault, log⟩ => ⟨.error fault, (log.reverse ++ earlier).reverse⟩

/-- Repeats a step until it answers, in at most `limit` rounds. -/
def loop (step : σ → Act (Round σ α)) (limit : Nat) (state : σ) : Act α := fun build =>
  loopFrom step build limit state []

private theorem loopFrom_eq (step : σ → Act (Round σ α)) (build : Build) (limit : Nat)
    (state : σ) (earlier : List Event) :
    loopFrom step build limit state earlier =
      ⟨(loop step limit state build).result,
        earlier.reverse ++ (loop step limit state build).log⟩ := by
  induction limit generalizing state earlier with
  | zero => simp [loop, loopFrom]
  | succ limit ih =>
      simp only [loop, loopFrom]
      rcases step state build with ⟨fault | next | answer, log⟩
      · simp
      · simp only [List.append_nil]
        rw [ih next (log.reverse ++ earlier), ih next log.reverse]
        simp
      · simp

@[simp] theorem loop_zero (step : σ → Act (Round σ α)) (state : σ) :
    loop step 0 state = fail .endless :=
  rfl

/-- A loop is one round, and then the rest unless the round answered. -/
theorem loop_succ (step : σ → Act (Round σ α)) (limit : Nat) (state : σ) :
    loop step (limit + 1) state =
      step state >>= fun
        | .next state => loop step limit state
        | .done answer => pure answer := by
  funext build
  rw [bind_apply]
  simp only [loop, loopFrom]
  rcases step state build with ⟨fault | next | answer, log⟩
  · simp
  · simp only [List.append_nil]
    rw [loopFrom_eq, List.reverse_reverse]
  · simp [pure_apply]

end CompactingArena.Act
