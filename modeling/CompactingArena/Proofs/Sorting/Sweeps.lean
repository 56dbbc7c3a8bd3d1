import CompactingArena.Proofs.Sorting
/-!
# Sorting by sweeps

A sweep merges each run of a size with the following one, and a sort sweeps over a
list with runs of twice the size each time, until there is only one pair of runs.
Whatever decides which of two elements is taken first, this permutes the list.  If an
order decides, the result is sorted, and elements that tie stay in order.
-/

namespace CompactingArena.Sorting

variable {α : Type} {picks : α → α → Bool → Prop} {le : α → α → Bool} {run n : Nat}
  {l m zs : List α}

/-! ## Sweeps -/

/-- Merging the runs of `run` elements of `l` in `n` pairs gives `m`. -/
inductive Sweeps (picks : α → α → Bool → Prop) (run : Nat) : List α → List α → Nat → Prop
  | nil : Sweeps picks run [] [] 0
  | cons {l zs m : List α} {n : Nat} (hne : l ≠ [])
      (hmerges : Merges picks (l.take run) ((l.drop run).take run) zs)
      (hrest : Sweeps picks run ((l.drop run).drop run) m n) : Sweeps picks run l (zs ++ m) (n + 1)

/-- A list is a pair of runs and the rest. -/
theorem take_append_take_append_drop (run : Nat) (l : List α) :
    l.take run ++ (l.drop run).take run ++ (l.drop run).drop run = l := by
  rw [List.append_assoc, List.take_append_drop, List.take_append_drop]

theorem Sweeps.perm (h : Sweeps picks run l m n) : m.Perm l := by
  induction h with
  | nil => exact .refl _
  | @cons l zs m n _ hmerges _ ih =>
      exact (hmerges.perm.append ih).trans (.of_eq (take_append_take_append_drop run l))

theorem Sweeps.eq_nil (h : Sweeps picks run l m 0) : m = [] := by
  cases h
  rfl

theorem Sweeps.ne_nil (h : Sweeps picks run l m n) (hn : n ≠ 0) : l ≠ [] := by
  cases h with
  | nil => exact absurd rfl hn
  | cons hne _ _ => exact hne

/-- There is a second pair only if the list is longer than the first. -/
theorem Sweeps.lt_length (h : Sweeps picks run l m n) (hn : 1 < n) : 2 * run < l.length := by
  cases h with
  | nil => exact absurd hn (by omega)
  | cons _ _ hrest =>
      have hpos := List.length_pos_of_ne_nil (hrest.ne_nil (by omega))
      rw [List.length_drop, List.length_drop] at hpos
      omega

/-! ## Order -/

/-- The runs of `run` elements of a list are sorted; the last may be shorter. -/
inductive InRuns (le : α → α → Bool) (run : Nat) : List α → Prop
  | nil : InRuns le run []
  | cons {l : List α} (hrun : Sorted le (l.take run)) (hrest : InRuns le run (l.drop run)) :
      InRuns le run l

theorem InRuns.take (h : InRuns le run l) : Sorted le (l.take run) := by
  cases h with
  | nil =>
      rw [List.take_nil]
      exact .nil
  | cons hrun _ => exact hrun

theorem InRuns.drop (h : InRuns le run l) : InRuns le run (l.drop run) := by
  cases h with
  | nil =>
      rw [List.drop_nil]
      exact .nil
  | cons _ hrest => exact hrest

theorem inRuns_one (le : α → α → Bool) (l : List α) : InRuns le 1 l := by
  induction l with
  | nil => exact .nil
  | cons x l ih => exact .cons (List.pairwise_singleton _ x) ih

/-- The elements that tie with `c`. -/
def tied (le : α → α → Bool) (c x : α) : Bool := le c x && le x c

section Order

variable (hpicks : ∀ x y b, picks x y b → le x y = b)
  (htrans : ∀ x y z, le x y = true → le y z = true → le x z = true)
  (htotal : ∀ x y, le x y = true ∨ le y x = true)
include hpicks htrans htotal

/-- A merge takes an element of the right run before those of the left one only if it ties
with none of them. -/
theorem Merges.filter_tied {xs ys : List α} (h : Merges picks xs ys zs) (hxs : Sorted le xs)
    (c : α) : zs.filter (tied le c) = (xs ++ ys).filter (tied le c) := by
  induction h with
  | nil => rfl
  | left _ _ ih =>
      rw [List.cons_append, List.filter_cons, List.filter_cons, ih hxs.of_cons]
  | @right y xs ys zs hfirst _ ih =>
      rw [List.filter_cons, ih hxs, List.filter_append, List.filter_append, List.filter_cons]
      by_cases hy : tied le c y = true
      · have hnone : xs.filter (tied le c) = [] := by
          refine List.filter_eq_nil_iff.mpr fun z hz htied => ?_
          have ⟨x, hx, hxz⟩ := hxs.exists_head htotal hz
          simp only [tied, Bool.and_eq_true] at htied hy
          have hxy : le x y = true := htrans _ _ _ hxz (htrans _ _ _ htied.2 hy.1)
          exact absurd (hxy.symm.trans (hpicks _ _ _ (hfirst x hx))) (by simp)
        rw [hnone, if_pos hy, if_pos hy, List.nil_append, List.nil_append]
      · rw [if_neg hy, if_neg hy]

theorem Sweeps.filter_tied (h : Sweeps picks run l m n) (hl : InRuns le run l) (c : α) :
    m.filter (tied le c) = l.filter (tied le c) := by
  induction h with
  | nil => rfl
  | @cons l zs m n _ hmerges _ ih =>
      rw [List.filter_append, hmerges.filter_tied hpicks htrans htotal hl.take c, ih hl.drop.drop,
        ← List.filter_append, take_append_take_append_drop]

/-- A sweep makes runs of twice the size. -/
theorem Sweeps.inRuns (h : Sweeps picks run l m n) (hl : InRuns le run l) :
    InRuns le (2 * run) m := by
  induction h with
  | nil => exact .nil
  | @cons l zs m n _ hmerges hrest ih =>
      have hzs := hmerges.sorted htrans htotal hpicks hl.take hl.drop.take
      have hlength := hmerges.perm.length_eq
      rw [List.length_append, List.length_take, List.length_take, List.length_drop] at hlength
      by_cases hfull : zs.length = 2 * run
      · refine .cons ?_ ?_
        · rwa [List.take_left' hfull]
        · rw [List.drop_left' hfull]
          exact ih hl.drop.drop
      · -- runs that are not full are the last ones
        have hm : m = [] := by
          refine List.perm_nil.mp (hrest.perm.trans (.of_eq ?_))
          rw [List.drop_eq_nil_iff, List.length_drop]
          omega
        refine .cons ?_ ?_
        · rwa [hm, List.append_nil, List.take_of_length_le (by omega)]
        · rw [hm, List.append_nil, List.drop_of_length_le (by omega)]
          exact .nil

/-- A sweep over one pair of runs leaves one run. -/
theorem Sweeps.sorted (h : Sweeps picks run l m n) (hn : n ≤ 1) (hl : InRuns le run l) :
    Sorted le m := by
  cases h with
  | nil => exact .nil
  | @cons _ zs m n _ hmerges hrest =>
      obtain rfl : n = 0 := by omega
      rw [hrest.eq_nil, List.append_nil]
      exact hmerges.sorted htrans htotal hpicks hl.take hl.drop.take

end Order

/-! ## Sorts -/

/-- Sweeping over `l`, at first with runs of `run` elements, gives `m` in the end. -/
inductive Sorts (picks : α → α → Bool → Prop) : Nat → List α → List α → Prop
  | last {run n : Nat} {l m : List α} (hsweeps : Sweeps picks run l m n) (hn : n ≤ 1) :
      Sorts picks run l m
  | more {run n : Nat} {l m k : List α} (hsweeps : Sweeps picks run l m n) (hn : 1 < n)
      (hrest : Sorts picks (2 * run) m k) : Sorts picks run l k

theorem Sorts.perm (h : Sorts picks run l m) : m.Perm l := by
  induction h with
  | last hsweeps _ => exact hsweeps.perm
  | more hsweeps _ _ ih => exact ih.trans hsweeps.perm

section Order

variable (hpicks : ∀ x y b, picks x y b → le x y = b)
  (htrans : ∀ x y z, le x y = true → le y z = true → le x z = true)
  (htotal : ∀ x y, le x y = true ∨ le y x = true)
include hpicks htrans htotal

theorem Sorts.sorted (h : Sorts picks run l m) (hl : InRuns le run l) : Sorted le m := by
  induction h with
  | last hsweeps hn => exact hsweeps.sorted hpicks htrans htotal hn hl
  | more hsweeps _ _ ih => exact ih (hsweeps.inRuns hpicks htrans htotal hl)

theorem Sorts.filter_tied (h : Sorts picks run l m) (hl : InRuns le run l) (c : α) :
    m.filter (tied le c) = l.filter (tied le c) := by
  induction h with
  | last hsweeps _ => exact hsweeps.filter_tied hpicks htrans htotal hl c
  | more hsweeps _ _ ih =>
      exact (ih (hsweeps.inRuns hpicks htrans htotal hl)).trans
        (hsweeps.filter_tied hpicks htrans htotal hl c)

/-- Elements that tie stay in order. -/
theorem Sorts.stable (h : Sorts picks run l m) (hl : InRuns le run l) {x y : α}
    (hxy : le x y = true) (hyx : le y x = true) (hbefore : [x, y].Sublist l) : [x, y].Sublist m := by
  have hx : tied le x x = true := by
    have hrefl : le x x = true := (htotal x x).elim id id
    rw [tied, hrefl, Bool.and_self]
  have hy : tied le x y = true := by rw [tied, hxy, hyx, Bool.and_self]
  have hfilter : [x, y].Sublist (l.filter (tied le x)) := by
    have h := hbefore.filter (tied le x)
    rwa [List.filter_cons_of_pos hx, List.filter_cons_of_pos hy, List.filter_nil] at h
  rw [← h.filter_tied hpicks htrans htotal hl x] at hfilter
  exact hfilter.trans List.filter_sublist

end Order

end CompactingArena.Sorting
