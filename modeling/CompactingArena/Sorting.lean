/-!
# Merge sort from the bottom up

The sort merges neighbouring runs of one element, then of two, of four, and so
on, until one run is left.  For a total preorder the result is sorted and keeps
the order of equivalent elements; for any other comparison it is still a
permutation, and which one is fixed by the order in which runs are merged.
-/

namespace CompactingArena.Sorting

variable {α : Type} (le : α → α → Bool)

/-- Merges the run `x :: xs` with another, where `mergeTail` merges `xs`. -/
def mergeInto (x : α) (xs : List α) (mergeTail : List α → List α) : List α → List α
  | [] => x :: xs
  | y :: ys =>
      if le x y then x :: mergeTail (y :: ys) else y :: mergeInto x xs mergeTail ys

/-- Merges two runs; of two elements that compare both ways the left goes
first. -/
def merge : List α → List α → List α
  | [] => id
  | x :: xs => mergeInto le x xs (merge xs)

/-- Merges the first run with the second, the third with the fourth, and so
on. -/
def mergePairs : List (List α) → List (List α)
  | run :: following :: rest => merge le run following :: mergePairs rest
  | runs => runs

/-- Merges pairs of runs until one run is left, in at most `rounds` rounds. -/
def mergeRuns : Nat → List (List α) → List α
  | 0, runs => runs.flatten
  | _, [] => []
  | _, [run] => run
  | rounds + 1, runs => mergeRuns rounds (mergePairs le runs)

/-- Sorts a list by merging runs from the bottom up. -/
def mergeSort (xs : List α) : List α :=
  mergeRuns le xs.length (xs.map fun x => [x])

theorem merge_nil_right (xs : List α) : merge le xs [] = xs := by
  cases xs <;> rfl

theorem merge_cons_cons (x y : α) (xs ys : List α) :
    merge le (x :: xs) (y :: ys) =
      if le x y then x :: merge le xs (y :: ys) else y :: merge le (x :: xs) ys :=
  rfl

end CompactingArena.Sorting
