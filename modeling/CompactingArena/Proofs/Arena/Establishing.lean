import CompactingArena.Proofs.Arena.Invariant
/-!
# New arenas

A new arena has no chunks and no records, and enough classes for any chunk that
fits into its region.
-/

namespace CompactingArena

namespace Arena

open Layout

variable {config : Config} {available size : Nat} {a : Arena} {build : Build}

/-- The bytes of a region that an arena uses. -/
def usable (size : Nat) : Nat := size - size % Word.alignment

theorem kept_empty (high : Nat) : (HeaderTable.empty high).Kept [] [] :=
  ⟨.refl _, rfl⟩

theorem sound_new {classes : SizeClasses} (hclear : classes.clear = classes)
    (henough : size < 2 ^ classes.count) (hnonempty : 0 < classes.count)
    (hleast : leastRegion ≤ size) (hlimit : size ≤ largestRegion) :
    Arena.Sound
      { config, region := .zeroed size, headers := .empty size, classes, memoryHigh := 0,
        highest := none, counters := {} } [] [] where
  chained := rfl
  kept := kept_empty size
  fills := ⟨[], .refl _, rfl⟩
  sized c hc := absurd hc (by simp)
  high := rfl
  room := by simp [HeaderTable.footprint, HeaderTable.capacity, HeaderTable.empty]
  least := hleast
  limit := hlimit
  topped := .inl ⟨rfl, rfl⟩
  covers := hclear ▸ SizeClasses.Covers.clear classes henough hnonempty
  tight h hh := absurd hh (by simp)
  accounts := ⟨rfl, rfl⟩

theorem exists_establish (config : Config) (hleast : leastRegion ≤ usable size)
    (hlimit : usable size ≤ largestRegion) (havailable : usable size ≤ available) :
    ∃ a, (establish config available size).Yields (.ok a) ∧ a.Sound [] [] ∧
      a.config = config ∧ a.region = .zeroed (usable size) ∧ a.counters = {} := by
  have hpos : 0 < usable size := lt_of_lt_of_le (by decide) hleast
  obtain ⟨classes, hclasses, hclear, henough, hnonempty⟩ := SizeClasses.ofRegionSize_eq hpos
  unfold usable at *
  refine ⟨_, ?_, sound_new hclear henough hnonempty hleast hlimit, rfl, rfl, rfl⟩
  rw [establish]
  simp only [if_neg (Nat.not_lt.mpr hleast), if_neg (Nat.not_lt.mpr hlimit),
    if_neg (Nat.not_lt.mpr havailable)]
  apply (Act.yields_log _).bind
  rw [hclasses, pure_bind]
  exact Act.yields_pure _

/-- An arena is established in either build or in none. -/
theorem of_establish (h : (establish config available size).result build = .ok (.ok a)) :
    (establish config available size).Yields (.ok a) ∧ a.Sound [] [] ∧ a.counters = {} := by
  have hcases := h
  rw [establish] at hcases
  by_cases hleast : usable size < leastRegion
  · unfold usable at hleast
    simp only [if_pos hleast] at hcases
    exact absurd hcases (by simp)
  by_cases hlimit : largestRegion < usable size
  · unfold usable at hleast hlimit
    simp only [if_neg hleast, if_pos hlimit] at hcases
    exact absurd hcases (by simp)
  by_cases havailable : available < usable size
  · unfold usable at hleast hlimit havailable
    simp only [if_neg hleast, if_neg hlimit, if_pos havailable] at hcases
    exact absurd hcases (by simp)
  obtain ⟨b, hb, hsound, -, -, hcounters⟩ := exists_establish config
    (Nat.le_of_not_lt hleast) (Nat.le_of_not_lt hlimit) (Nat.le_of_not_lt havailable)
  obtain rfl : a = b := by
    have heq := h.symm.trans (hb build)
    rwa [Except.ok.injEq, Except.ok.injEq] at heq
  exact ⟨hb, hsound, hcounters⟩

theorem sound_of_establish (h : (establish config available size).result build = .ok (.ok a)) :
    a.Sound [] [] :=
  (of_establish h).2.1

/-- A new arena of 4096 bytes. -/
def small : Arena where
  config := {}
  region := .zeroed 4096
  headers := .empty 4096
  classes := ⟨.replicate 13 none⟩
  memoryHigh := 0
  highest := none
  counters := {}

theorem establish_small (build : Build) :
    (establish {} 4096 4096).result build = .ok (.ok small) := by
  cases build <;> rfl

/-- The handle that a new arena gives out in the `i`-th place, as far as there are handles. -/
def nth (i : Nat) : Handle := ⟨i % Handle.limit, Nat.mod_lt i (by decide)⟩

end Arena

end CompactingArena
