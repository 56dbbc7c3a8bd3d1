import CompactingArena.Proofs.Session.Completion
/-!
# The progress of a compaction

Every compaction searches from the lowest chunk on, and each hole that nothing
fits into costs it one reading of the clock.  A budget that does not last beyond
these holes moves nothing, however often the compaction is called with it, even
where one without a budget would find something to move.
-/

namespace CompactingArena.Arena

open Layout

variable {a b : Arena} {chunks : List Chunk} {spare : List Handle} {deeds : List Deed}
  {build : Build} {config : Config} {available size : Nat}

/-- Without a budget there is always time. -/
theorem inTime_zero (clock : Readings) (n : Nat) : InTime 0 clock n := fun _ _ => by
  simp [timeIsUp]

theorem inTime_succ_iff {budget : Nat} (hbudget : 0 < budget) (clock : Readings) (n : Nat) :
    InTime budget clock (n + 1) ↔ ∀ i ≤ n, clock (i + 1) - clock 0 < budget := by
  have hup (now : Nat) : timeIsUp budget (clock 0) now = false ↔ now - clock 0 < budget := by
    rw [timeIsUp, decide_eq_true (Nat.ne_of_gt hbudget), Bool.true_and, decide_eq_false_iff_not,
      Nat.not_le]
  simp only [InTime, hup, Nat.lt_succ_iff]

/-- A compaction without a budget moves something exactly if some hole can be filled.
One with a budget slides exactly if it lasts for all holes below that one, and for one
reading more. -/
theorem slides_iff_of_compact
    (hestablish : (establish config available size).result build = .ok (.ok a))
    (hruns : Runs build a deeds b) :
    ∃ chunks sorted, b.headers.Lists b.headers.chain chunks none ∧ sorted.Perm chunks ∧
      Tiles 0 sorted b.memoryHigh ∧
      (∀ clock, Act.Delivers build (b.counters.Crowded b.region.size) (b.compact 0 clock)
        fun (report, _) => 1 ≤ report.bytesMoved ↔ (obstructions sorted).isSome = true) ∧
      ∀ budget clock, 0 < budget →
        Act.Delivers build (b.counters.Crowded b.region.size) (b.compact budget clock)
          fun (report, _) => 1 ≤ report.passes ↔
            ∃ n, obstructions sorted = some n ∧ ∀ i ≤ n, clock (i + 1) - clock 0 < budget := by
  obtain ⟨chunks, spare, hsound⟩ := hruns.sound (sound_of_establish hestablish)
  obtain ⟨sorted, hperm, htiles⟩ := id hsound.fills
  refine ⟨chunks, sorted, hsound.chained, hperm, htiles, fun clock => ?_,
    fun budget clock hbudget => ?_⟩
  · apply (hsound.compact 0 clock).mono
    rintro ⟨report, b'⟩ ⟨chunks', spare', hcompaction⟩
    rw [Option.isSome_iff_exists]
    refine (hcompaction.moves.trans (hcompaction.slides sorted hperm htiles)).trans ?_
    exact exists_congr fun n => and_iff_left (inTime_zero clock _)
  · apply (hsound.compact budget clock).mono
    rintro ⟨report, b'⟩ ⟨chunks', spare', hcompaction⟩
    refine (hcompaction.slides sorted hperm htiles).trans ?_
    exact exists_congr fun n => and_congr_right' (inTime_succ_iff hbudget clock n)

/-! ## A budget that does not last -/

/-- A hole below a pinned chunk that the chunk above does not fit into, and above it
one that can be filled. -/
def cornered : List Op :=
  [.allocate 16, .allocate 16, .allocate 32, .allocate 16, .allocate 16,
    .lock (nth 1), .free (nth 0), .free (nth 3)]

/-- The readings of a clock that moves on with every reading. -/
def ticking : Readings := (ManualClock.mk 0 1).readings

/-- Calls operations on a new arena, and then compacts it twice with a budget of two.
The last two reports are those of compactions without a budget, in place of the first
and of the second one. -/
def compactBriefly (ops : List Op) :
    Act ((CompactionReport × CompactionReport) × (CompactionReport × CompactionReport)) := do
  let s ← Session.run .refusing ops ⟨small, []⟩
  let (report, a) ← s.arena.compact 2 ticking
  let (report', _) ← a.compact 2 ticking
  let (whole, _) ← s.arena.compact 0 ticking
  let (whole', _) ← a.compact 0 ticking
  return ((report, report'), (whole, whole'))

theorem of_compactBriefly {ops : List Op} {report report' whole whole' : CompactionReport}
    (h : (compactBriefly ops).result build = .ok ((report, report'), (whole, whole'))) :
    ∃ s a, (Session.run .refusing ops ⟨small, []⟩).result build = .ok s ∧
      (s.arena.compact 2 ticking).result build = .ok (report, a) ∧
      (∃ a', (a.compact 2 ticking).result build = .ok (report', a')) ∧
      (∃ a', (s.arena.compact 0 ticking).result build = .ok (whole, a')) ∧
      ∃ a', (a.compact 0 ticking).result build = .ok (whole', a') := by
  obtain ⟨s, hrun, h⟩ := Act.of_result_bind_ok h
  obtain ⟨⟨r₁, a⟩, h₁, h⟩ := Act.of_result_bind_ok h
  obtain ⟨⟨r₂, a₂⟩, h₂, h⟩ := Act.of_result_bind_ok h
  obtain ⟨⟨r₃, a₃⟩, h₃, h⟩ := Act.of_result_bind_ok h
  obtain ⟨⟨r₄, a₄⟩, h₄, h⟩ := Act.of_result_bind_ok h
  rw [Act.result_pure, Except.ok.injEq, Prod.mk.injEq, Prod.mk.injEq, Prod.mk.injEq] at h
  obtain ⟨⟨rfl, rfl⟩, rfl, rfl⟩ := h
  exact ⟨s, a, hrun, h₁, ⟨a₂, h₂⟩, ⟨a₃, h₃⟩, a₄, h₄⟩

theorem compactBriefly_cornered : (compactBriefly cornered).result .release =
    .ok ((⟨0, 0, 0, false⟩, ⟨0, 0, 0, false⟩), (⟨1, 16, 16, true⟩, ⟨1, 16, 16, true⟩)) := by
  decide +kernel

/-- Below the hole that can be filled lies one that nothing fits into. -/
theorem obstructions_cornered :
    ∃ s sorted n, (Session.run .refusing cornered ⟨small, []⟩).result .release = .ok s ∧
      Tiles 0 sorted s.arena.memoryHigh ∧ obstructions sorted = some (n + 1) := by
  obtain ⟨s, a, hrun, hbrief, -, ⟨a', hwhole⟩, -⟩ := of_compactBriefly compactBriefly_cornered
  obtain ⟨deeds, hruns⟩ := Session.runs_of_run hrun
  obtain ⟨chunks, sorted, -, -, htiles, hmoves, hslides⟩ :=
    slides_iff_of_compact (establish_small .release) hruns
  have hsome := ((hmoves ticking).of_ok hwhole).mp (by decide)
  have hnone := ((hslides 2 ticking (by decide)).of_ok hbrief).not.mp (by decide)
  obtain ⟨n, hn⟩ := Option.isSome_iff_exists.mp hsome
  cases n with
  | zero =>
      refine absurd ⟨0, hn, fun i hi => ?_⟩ hnone
      obtain rfl := Nat.le_zero.mp hi
      decide
  | succ n => exact ⟨s, sorted, n, hrun, htiles, hn⟩

/-- A budget that lasts beyond the second reading, and yet every compaction with it
moves nothing, while one without a budget would move something. -/
theorem compact_without_progress :
    ∃ s a report report' whole whole',
      (establish {} 4096 4096).result .release = .ok (.ok small) ∧
      (Session.run .refusing cornered ⟨small, []⟩).result .release = .ok s ∧
      ticking 1 - ticking 0 < 2 ∧
      (s.arena.compact 2 ticking).result .release = .ok (report, a) ∧ report.passes = 0 ∧
      (∃ a', (s.arena.compact 0 ticking).result .release = .ok (whole, a')) ∧
      1 ≤ whole.bytesMoved ∧
      (∃ a', (a.compact 2 ticking).result .release = .ok (report', a')) ∧ report'.passes = 0 ∧
      (∃ a', (a.compact 0 ticking).result .release = .ok (whole', a')) ∧
      1 ≤ whole'.bytesMoved := by
  obtain ⟨s, a, hrun, hbrief, hagain, hwhole, hlater⟩ := of_compactBriefly compactBriefly_cornered
  exact ⟨s, a, _, _, _, _, establish_small .release, hrun, by decide, hbrief, rfl, hwhole,
    by decide, hagain, rfl, hlater, by decide⟩

end CompactingArena.Arena
