/-!
# Chunk states

A chunk is free, in use and movable, or in use and pinned by one of two kinds
of lock.
-/

namespace CompactingArena

/-- The pin state of a chunk. -/
inductive ChunkState
  /-- Reclaimed; the last bytes of the chunk hold a trailer. -/
  | free
  /-- In use, and compaction may move it. -/
  | unlocked
  /-- In use and pinned. -/
  | locked
  /-- In use and pinned by a soft lock. -/
  | weakLocked
deriving DecidableEq

namespace ChunkState

def isFree : ChunkState → Bool
  | free => true
  | _ => false

/-- Whether compaction leaves the chunk where it is. -/
def isPinned : ChunkState → Bool
  | locked | weakLocked => true
  | _ => false

/-- The mark of a chunk on the layout map. -/
def glyph : ChunkState → Char
  | free => '_'
  | unlocked => '|'
  | locked => 'X'
  | weakLocked => 'W'

def text : ChunkState → String
  | free => "Free"
  | unlocked => "Unlocked"
  | locked => "Locked"
  | weakLocked => "WeakLocked"

/-- The state that a text names. -/
def ofText? : String → Option ChunkState
  | "Free" => some free
  | "Unlocked" => some unlocked
  | "Locked" => some locked
  | "WeakLocked" => some weakLocked
  | _ => none

@[simp] theorem isFree_iff (s : ChunkState) : s.isFree = true ↔ s = free := by
  cases s <;> simp [isFree]

theorem isPinned_iff (s : ChunkState) :
    s.isPinned = true ↔ s = locked ∨ s = weakLocked := by
  cases s <;> simp [isPinned]

@[simp] theorem ofText?_text (s : ChunkState) : ofText? s.text = some s := by
  cases s <;> rfl

end ChunkState

end CompactingArena
