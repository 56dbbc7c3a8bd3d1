import CompactingArena.Sorting
import Mathlib.Data.List.Perm.Basic
/-!
# Properties of the merge sort

For any comparison the result is a permutation of the input.  For a transitive
and total one it is sorted, because the given number of rounds suffices to
merge all runs into one.
-/

namespace CompactingArena.Sorting

variable {α : Type} (le : α → α → Bool)

/-! ## Merging -/

/-- `zs` merges `xs` and `ys`: every element of it is the first that is left of one of the
two, and where both are left `picks` allows to take the left one, or not to. -/
inductive Merges (picks : α → α → Bool → Prop) : List α → List α → List α → Prop
  | nil : Merges picks [] [] []
  | left {x : α} {xs ys zs : List α} (hfirst : ∀ y ∈ ys.head?, picks x y true)
      (hrest : Merges picks xs ys zs) : Merges picks (x :: xs) ys (x :: zs)
  | right {y : α} {xs ys zs : List α} (hfirst : ∀ x ∈ xs.head?, picks x y false)
      (hrest : Merges picks xs ys zs) : Merges picks xs (y :: ys) (y :: zs)

theorem Merges.perm {picks : α → α → Bool → Prop} {xs ys zs : List α}
    (h : Merges picks xs ys zs) : zs.Perm (xs ++ ys) := by
  induction h with
  | nil => exact .refl _
  | left _ _ ih => exact ih.cons _
  | right _ _ ih => exact (ih.cons _).trans List.perm_middle.symm

/-- A comparison decides which of two elements is taken. -/
theorem merges_merge (xs ys : List α) :
    Merges (fun x y b => le x y = b) xs ys (merge le xs ys) := by
  induction xs generalizing ys with
  | nil =>
      induction ys with
      | nil => exact .nil
      | cons y ys ih => exact .right (by simp) ih
  | cons x xs ihx =>
      induction ys with
      | nil =>
          have hxs := ihx []
          rw [merge_nil_right] at hxs ⊢
          exact .left (by simp) hxs
      | cons y ys ihy =>
          rw [merge_cons_cons]
          by_cases h : le x y = true
          · rw [if_pos h]
            exact .left (by simpa using h) (ihx (y :: ys))
          · rw [if_neg h]
            exact .right (by simpa using h) ihy

/-! ## Permutation -/

theorem merge_perm (xs ys : List α) : (merge le xs ys).Perm (xs ++ ys) :=
  (merges_merge le xs ys).perm

theorem flatten_mergePairs (runs : List (List α)) :
    (mergePairs le runs).flatten.Perm runs.flatten := by
  induction runs using mergePairs.induct with
  | case1 run following rest ih =>
      rw [mergePairs, List.flatten_cons, List.flatten_cons, List.flatten_cons, ← List.append_assoc]
      exact (merge_perm le run following).append ih
  | case2 runs hshort =>
      rw [mergePairs]
      exact hshort

theorem mergeRuns_perm (rounds : Nat) (runs : List (List α)) :
    (mergeRuns le rounds runs).Perm runs.flatten := by
  induction rounds generalizing runs with
  | zero => rw [mergeRuns]
  | succ rounds ih =>
      rcases runs with _ | ⟨run, _ | ⟨following, rest⟩⟩
      · rw [mergeRuns]
        · exact .refl _
        · simp
      · rw [mergeRuns]
        · simp
        · simp
      · rw [mergeRuns]
        · exact (ih _).trans (flatten_mergePairs le _)
        · simp
        · simp

theorem mergeSort_perm (xs : List α) : (mergeSort le xs).Perm xs := by
  have h := mergeRuns_perm le xs.length (xs.map fun x => [x])
  rwa [← List.flatMap_def, List.flatMap_singleton'] at h

@[simp] theorem mem_mergeSort {x : α} {xs : List α} : x ∈ mergeSort le xs ↔ x ∈ xs :=
  (mergeSort_perm le xs).mem_iff

/-! ## Order -/

def Sorted (xs : List α) : Prop := xs.Pairwise fun x y => le x y = true

section Order

variable {le} (htrans : ∀ x y z, le x y = true → le y z = true → le x z = true)
  (htotal : ∀ x y, le x y = true ∨ le y x = true)
include htrans htotal

omit htrans in
/-- The first element of a sorted list comes before all. -/
theorem Sorted.exists_head {xs : List α} {z : α} (hxs : Sorted le xs) (hz : z ∈ xs) :
    ∃ x ∈ xs.head?, le x z = true := by
  cases xs with
  | nil => exact absurd hz (by simp)
  | cons x xs =>
      refine ⟨x, rfl, ?_⟩
      rcases List.mem_cons.mp hz with rfl | hz
      · exact (htotal z z).elim id id
      · exact (List.pairwise_cons.mp hxs).1 z hz

/-- Merging by an order keeps it. -/
theorem Merges.sorted {picks : α → α → Bool → Prop} {xs ys zs : List α}
    (h : Merges picks xs ys zs) (hpicks : ∀ x y b, picks x y b → le x y = b)
    (hxs : Sorted le xs) (hys : Sorted le ys) : Sorted le zs := by
  induction h with
  | nil => exact .nil
  | left hfirst hrest ih =>
      have ⟨hx, hxs'⟩ := List.pairwise_cons.mp hxs
      refine List.pairwise_cons.mpr ⟨fun z hz => ?_, ih hxs' hys⟩
      rcases List.mem_append.mp (hrest.perm.mem_iff.mp hz) with hz | hz
      · exact hx z hz
      · have ⟨y, hy, hyz⟩ := hys.exists_head htotal hz
        exact htrans _ _ _ (hpicks _ _ _ (hfirst y hy)) hyz
  | @right y xs ys zs hfirst hrest ih =>
      have ⟨hy, hys'⟩ := List.pairwise_cons.mp hys
      refine List.pairwise_cons.mpr ⟨fun z hz => ?_, ih hxs hys'⟩
      rcases List.mem_append.mp (hrest.perm.mem_iff.mp hz) with hz | hz
      · have ⟨x, hx, hxz⟩ := hxs.exists_head htotal hz
        have hyx : le y x = true :=
          (htotal x y).resolve_left (by simp [hpicks _ _ _ (hfirst x hx)])
        exact htrans _ _ _ hyx hxz
      · exact hy z hz

theorem sorted_merge {xs ys : List α} (hxs : Sorted le xs) (hys : Sorted le ys) :
    Sorted le (merge le xs ys) :=
  (merges_merge le xs ys).sorted htrans htotal (fun _ _ _ => id) hxs hys

theorem sorted_mergePairs {runs : List (List α)} (hruns : ∀ run ∈ runs, Sorted le run) :
    ∀ run ∈ mergePairs le runs, Sorted le run := by
  induction runs using mergePairs.induct with
  | case1 run following rest ih =>
      rw [mergePairs]
      intro merged hmerged
      rcases List.mem_cons.mp hmerged with rfl | hmerged
      · exact sorted_merge htrans htotal (hruns run (by simp)) (hruns following (by simp))
      · exact ih (fun run hrun => hruns run (by simp [hrun])) merged hmerged
  | case2 runs hshort =>
      rw [mergePairs]
      · exact hruns
      · exact hshort

omit htrans htotal in
theorem length_mergePairs (runs : List (List α)) :
    (mergePairs le runs).length = (runs.length + 1) / 2 := by
  induction runs using mergePairs.induct with
  | case1 run following rest ih =>
      rw [mergePairs, List.length_cons, ih, List.length_cons, List.length_cons]
      omega
  | case2 runs hshort =>
      rw [mergePairs]
      · rcases runs with _ | ⟨run, _ | ⟨following, rest⟩⟩
        · simp
        · simp
        · exact (hshort run following rest rfl).elim
      · exact hshort

/-- Every round at least halves the number of runs, down to one. -/
theorem sorted_mergeRuns (rounds : Nat) {runs : List (List α)}
    (hruns : ∀ run ∈ runs, Sorted le run) (hrounds : runs.length ≤ rounds + 1) :
    Sorted le (mergeRuns le rounds runs) := by
  induction rounds generalizing runs with
  | zero =>
      rcases runs with _ | ⟨run, _ | ⟨following, rest⟩⟩
      · exact List.Pairwise.nil
      · simpa [mergeRuns] using hruns run (by simp)
      · simp at hrounds
  | succ rounds ih =>
      rcases runs with _ | ⟨run, _ | ⟨following, rest⟩⟩
      · exact List.Pairwise.nil
      · exact hruns run (by simp)
      · rw [mergeRuns]
        · apply ih (sorted_mergePairs htrans htotal hruns)
          rw [length_mergePairs]
          simp only [List.length_cons] at hrounds ⊢
          omega
        · simp
        · simp

theorem sorted_mergeSort (xs : List α) : Sorted le (mergeSort le xs) := by
  apply sorted_mergeRuns htrans htotal _
  · intro run hrun
    obtain ⟨x, -, rfl⟩ := List.mem_map.mp hrun
    exact List.pairwise_singleton _ x
  · rw [List.length_map]
    exact Nat.le_succ _

end Order

/-- Elements that are images are sorted by sorting what they are images of. -/
theorem exists_mergeSort_map {β : Type} (key : α → Nat) (f : β → α) (l : List β) :
    ∃ sorted : List β,
      mergeSort (fun x y => decide (key x ≤ key y)) (l.map f) = sorted.map f ∧ sorted.Perm l ∧
        sorted.Pairwise fun c d => key (f c) ≤ key (f d) := by
  set le : α → α → Bool := fun x y => decide (key x ≤ key y) with hle
  obtain ⟨sorted, hsorted, hperm⟩ :
      ∃ sorted : List β, mergeSort le (l.map f) = sorted.map f ∧ sorted.Perm l :=
    (congrFun₂ (List.eq_map_comp_perm f) _ l).mpr (mergeSort_perm le _)
  have h : Sorted le (mergeSort le (l.map f)) := by
    apply sorted_mergeSort
    · intro x y z hxy hyz
      simp only [hle, decide_eq_true_eq] at hxy hyz ⊢
      exact Nat.le_trans hxy hyz
    · intro x y
      simp only [hle, decide_eq_true_eq]
      exact Nat.le_total _ _
  rw [hsorted] at h
  refine ⟨sorted, hsorted, hperm, ?_⟩
  apply (List.pairwise_map.mp h).imp
  intro c d hcd
  exact of_decide_eq_true hcd

end CompactingArena.Sorting
