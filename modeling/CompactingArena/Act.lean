import CompactingArena.Event
import CompactingArena.Fault
/-!
# Acts

An act is a computation that may log and may end in a fault, and that may
check more in a debug build than in a release build.  State is no part of it:
operations take the old state and return the new one.

The log never influences a result, so `Act.result` is a homomorphism: the
result of a sequence follows from the results of its parts.
-/

namespace CompactingArena

/-- How much an operation checks.  Debug builds check every assumption and
end in a fault when one fails; release builds log and carry on. -/
inductive Build
  | debug
  | release
deriving DecidableEq

/-- How an act ended, and what it logged until then. -/
structure Outcome (α : Type) where
  result : Except Fault α
  log : List Event

/-- A computation in a given build. -/
def Act (α : Type) : Type := Build → Outcome α

namespace Act

variable {α β : Type}

/-- The result of an act without its log. -/
def result (x : Act α) (build : Build) : Except Fault α := (x build).result

@[inline] protected def pure (a : α) : Act α := fun _ => ⟨.ok a, []⟩

@[inline] protected def bind (x : Act α) (f : α → Act β) : Act β := fun build =>
  match x build with
  | ⟨.ok a, log⟩ =>
      let rest := f a build
      ⟨rest.result, log ++ rest.log⟩
  | ⟨.error fault, log⟩ => ⟨.error fault, log⟩

instance : Monad Act where
  pure := Act.pure
  bind := Act.bind

def build : Act Build := fun build => ⟨.ok build, []⟩

def fail (fault : Fault) : Act α := fun _ => ⟨.error fault, []⟩

def log (event : Event) : Act Unit := fun _ => ⟨.ok (), [event]⟩

/-- Ends in a fault in a debug build; a release build carries on with `a`. -/
def failInDebug (fault : Fault) (a : α) : Act α
  | .debug => ⟨.error fault, []⟩
  | .release => ⟨.ok a, []⟩

/-- A check of debug builds. -/
def expect (holds : Bool) (fault : Fault) : Act Unit :=
  if holds then pure () else failInDebug fault ()

/-- Surfaces a broken invariant as loudly as the build allows: a fault in a
debug build, and a log record in a release build. -/
def violate (violation : Violation) : Act Unit
  | .debug => ⟨.error (.violated violation), []⟩
  | .release => ⟨.ok (), [.violated violation]⟩

/-- Looks a value up whose absence is a fault. -/
def ofOption (fault : Fault) : Option α → Act α
  | some a => pure a
  | none => fail fault

theorem bind_apply (x : Act α) (f : α → Act β) (build : Build) :
    (x >>= f) build =
      match x build with
      | ⟨.ok a, log⟩ => ⟨(f a build).result, log ++ (f a build).log⟩
      | ⟨.error fault, log⟩ => ⟨.error fault, log⟩ :=
  rfl

theorem pure_apply (a : α) (build : Build) :
    (pure a : Act α) build = ⟨.ok a, []⟩ :=
  rfl

private theorem act_id_map (x : Act α) : id <$> x = x := by
  funext build
  change Act.bind x (fun a => Act.pure a) build = x build
  unfold Act.bind
  rcases hx : x build with ⟨_ | a, log⟩ <;> simp [Act.pure]

private theorem act_pure_bind (a : α) (f : α → Act β) : (pure a >>= f) = f a := by
  funext build
  change Act.bind (Act.pure a) f build = f a build
  simp [Act.bind, Act.pure]

private theorem act_bind_assoc {γ : Type} (x : Act α) (f : α → Act β) (g : β → Act γ) :
    (x >>= f) >>= g = x >>= fun a => f a >>= g := by
  funext build
  change Act.bind (Act.bind x f) g build = Act.bind x (fun a => Act.bind (f a) g) build
  unfold Act.bind
  rcases hx : x build with ⟨_ | a, log⟩
  · rfl
  · rcases hf : f a build with ⟨_ | b, log'⟩ <;> simp [hf]

instance : LawfulMonad Act :=
  LawfulMonad.mk' Act act_id_map act_pure_bind act_bind_assoc

@[simp] theorem result_pure (a : α) (build : Build) :
    (pure a : Act α).result build = .ok a :=
  rfl

@[simp] theorem result_bind (x : Act α) (f : α → Act β) (build : Build) :
    (x >>= f).result build = (x.result build).bind fun a => (f a).result build := by
  unfold result
  rw [bind_apply]
  rcases hx : x build with ⟨_ | a, log⟩ <;> rfl

@[simp] theorem result_fail (fault : Fault) (build : Build) :
    (fail fault : Act α).result build = .error fault :=
  rfl

@[simp] theorem result_log (event : Event) (build : Build) :
    (log event).result build = .ok () :=
  rfl

theorem expect_true (fault : Fault) : expect true fault = pure () :=
  rfl

end Act

end CompactingArena
