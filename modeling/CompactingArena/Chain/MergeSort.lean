import CompactingArena.Act.Loop
import CompactingArena.Chain
/-!
# Sorting a chain

A chain is sorted in place, by merging neighbouring runs of one element, then of
two, of four, and so on, until one run is left.  The elements stay where they are
and only links change: two cursors follow the links of a pair of runs, and each
element that is taken is linked behind the one that was taken before.  Links are
thus set behind the cursors, where no cursor follows them any more.
-/

namespace CompactingArena.Chain

variable {σ ι : Type} [Linked σ ι]

/-- A storage in which a chain is being built. -/
structure Building (σ ι : Type) where
  storage : σ
  /-- The first element of the chain. -/
  head : Option ι := none
  /-- The last element of the chain, whose link is still to be set. -/
  tail : Option ι := none

namespace Building

/-- Links an element behind the last one. -/
def push (b : Building σ ι) (element : ι) : Building σ ι :=
  match b.tail with
  | some last =>
      { b with
        storage := Linked.setNext b.storage last (some element)
        tail := some element }
  | none => { b with head := some element, tail := some element }

/-- Ends the chain with its last element. -/
def close (b : Building σ ι) : σ :=
  match b.tail with
  | some last => Linked.setNext b.storage last none
  | none => b.storage

end Building

/-! ## Merging two runs -/

/-- How far the merging of two runs has come. -/
structure Merging (σ ι : Type) where
  merged : Building σ ι
  /-- The cursor in the left run, and how many elements are left from there. -/
  left : Option ι
  leftSize : Nat
  /-- The cursor in the right run, and how many elements it has left at most. -/
  right : Option ι
  rightSize : Nat

/-- The element that is taken next: of two the left one if it compares, and otherwise
the right one. -/
def Merging.taken? (le : σ → ι → ι → Bool) (m : Merging σ ι) : Option ι :=
  match (if 0 < m.leftSize then m.left else none), if 0 < m.rightSize then m.right else none with
  | some x, some y => if le m.merged.storage x y then some x else some y
  | some x, none => some x
  | none, y => y

/-- Takes the next element, until both runs are used up. -/
def takeElement [DecidableEq ι] (le : σ → ι → ι → Bool) (m : Merging σ ι) :
    Act (Act.Round (Merging σ ι) (Merging σ ι)) :=
  match m.taken? le with
  | none => return .done m
  | some element => do
      -- the link is followed before the element is linked anew
      let following ← next m.merged.storage element
      let merged := m.merged.push element
      if m.left = some element ∧ 0 < m.leftSize then
        return .next { m with merged, left := following, leftSize := m.leftSize - 1 }
      else
        return .next { m with merged, right := following, rightSize := m.rightSize - 1 }

/-! ## Merging all runs of a size -/

/-- Passes up to `count` elements: how many there were, and the link that follows. -/
def pass (s : σ) : Nat → Option ι → Act (Nat × Option ι)
  | 0, link => return (0, link)
  | _, none => return (0, none)
  | count + 1, some element => do
      let (passed, link) ← pass s count (← next s element)
      return (passed + 1, link)

/-- How far a sweep over a chain has come. -/
structure Sweep (σ ι : Type) where
  merged : Building σ ι
  /-- Where the runs begin that are still to be merged. -/
  rest : Option ι
  /-- The pairs of runs merged so far. -/
  merges : Nat := 0

/-- Merges the next two runs of up to `run` elements, until the chain ends. -/
def mergePair [DecidableEq ι] (le : σ → ι → ι → Bool) (run : Nat) (w : Sweep σ ι) :
    Act (Act.Round (Sweep σ ι) (Sweep σ ι)) :=
  match w.rest with
  | none => return .done w
  | some start => do
      let (leftSize, right) ← pass w.merged.storage run (some start)
      let m ← Act.loop (takeElement le) (leftSize + run + 1)
        { merged := w.merged, left := some start, leftSize, right, rightSize := run }
      return .next { merged := m.merged, rest := m.right, merges := w.merges + 1 }

/-! ## The sort -/

/-- A chain whose runs of `run` elements are sorted. -/
structure Presorted (σ ι : Type) where
  storage : σ
  head : Option ι
  run : Nat

/-- Sweeps over the chain, until it is one pair of runs. -/
def sweep [DecidableEq ι] (le : σ → ι → ι → Bool) (c : Presorted σ ι) :
    Act (Act.Round (Presorted σ ι) (Option ι × σ)) := do
  let w ← Act.loop (mergePair le c.run) (Linked.size c.storage + 1)
    { merged := { storage := c.storage }, rest := c.head }
  let storage := w.merged.close
  if 1 < w.merges then
    return .next { storage, head := w.merged.head, run := 2 * c.run }
  else
    return .done (w.merged.head, storage)

/-- Sorts the chain that begins at `head`, and returns its new head.  The comparison may
look at the storage. -/
def mergeSort [DecidableEq ι] (le : σ → ι → ι → Bool) (s : σ) (head : Option ι) :
    Act (Option ι × σ) :=
  Act.loop (sweep le) (Linked.size s + 1) { storage := s, head, run := 1 }

/-- Sorts a chain by a comparison that looks at the elements alone. -/
def sort [DecidableEq ι] (le : ι → ι → Bool) (s : σ) (head : Option ι) : Act (Option ι × σ) :=
  mergeSort (fun _ => le) s head

end CompactingArena.Chain
