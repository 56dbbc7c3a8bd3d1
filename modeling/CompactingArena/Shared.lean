import CompactingArena.Act
/-!
# Sharing one arena

Owners that share a value take turns: one enters, uses it and leaves.  A spin
lock turns away those who come while another is inside; the unguarded kind lets
everybody in and is meant for a single owner.
-/

namespace CompactingArena

/-- What keeps owners of a shared value apart. -/
inductive Guarding
  | spinLock
  | unguarded
deriving DecidableEq

/-- A value that several owners use in turn. -/
structure Shared (α : Type) where
  guarding : Guarding
  value : α
  entered : Bool := false

namespace Shared

variable {α β : Type}

/-- Enters, unless that would mean to wait. -/
def tryEnter (s : Shared α) : Option (Shared α) :=
  match s.guarding with
  | .unguarded => some s
  | .spinLock => if s.entered then none else some { s with entered := true }

/-- Enters; to wait for oneself to leave is endless. -/
def enter (s : Shared α) : Act (Shared α) :=
  Act.ofOption .endless s.tryEnter

def leave (s : Shared α) : Shared α := { s with entered := false }

/-- Enters, uses the value and leaves. -/
def use (s : Shared α) (action : α → Act (β × α)) : Act (β × Shared α) := do
  let s ← s.enter
  let (answer, value) ← action s.value
  return (answer, { s with value }.leave)

variable {s : Shared α} {action : α → Act (β × α)}

/-- Where nobody is inside, a use is the action on the value, and nobody is inside
afterwards. -/
theorem use_of_vacant (hvacant : s.entered = false) :
    s.use action = (fun p => (p.1, { s with value := p.2 })) <$> action s.value := by
  obtain ⟨guarding, value, entered⟩ := s
  obtain rfl : entered = false := hvacant
  rw [map_eq_pure_bind]
  cases guarding with
  | spinLock => exact pure_bind _ _
  | unguarded => exact pure_bind _ _

/-- A spin lock lets nobody in while somebody is inside. -/
theorem use_of_entered (hguarding : s.guarding = .spinLock) (hentered : s.entered = true) :
    s.use action = Act.fail .endless := by
  have hturned : s.tryEnter = none := by
    simp only [tryEnter, hguarding, hentered, if_true]
  rw [use, enter, hturned]
  rfl

/-- To take turns is to do one thing after the other: what the first use answers and
leaves is what the second one finds. -/
theorem use_bind_use {γ : Type} (hvacant : s.entered = false) (next : β → α → Act (γ × α)) :
    (s.use action >>= fun p => p.2.use (next p.1)) =
      s.use fun value => action value >>= fun p => next p.1 p.2 := by
  simp only [use_of_vacant hvacant, map_eq_pure_bind, bind_assoc, pure_bind]
  congr 1
  funext p
  exact (use_of_vacant (s := { s with value := p.2 }) hvacant).trans (map_eq_pure_bind _ _)

end Shared

end CompactingArena
