import CompactingArena.Proofs.Compaction.Copies
import CompactingArena.Proofs.Session.Completion
import CompactingArena.Proofs.Session.Tallies
/-!
# What a compaction costs

A compaction comes to an end by itself, after at most one pass more than there are chunks
in use, and copies no chunk twice.  What it moves is therefore no more than what
`blockCounts` says beforehand that it may.
-/

namespace CompactingArena.Arena

open Layout

/-- What compactions of `a` cost at most, where `live` chunks are in use and `counts` are
the block counts.  They slide chunks on the chain of `sorted`. -/
structure Economy (build : Build) (a sorted : Arena) (live : Nat) (counts : BlockCounts) :
    Prop where
  sort : a.sortChain = pure sorted
  liveCount : a.liveChunkCount = pure live
  blockCounts : a.blockCounts = pure counts
  untimed : ∀ clock, Act.Delivers build (a.counters.Crowded a.region.size) (a.compact 0 clock)
    fun (report, _) => report.completed = true
  rounds : ∀ budget clock limit, live < limit →
    runPasses budget clock limit sorted = runPasses budget clock passLimit sorted
  /-- From one round to the next the region changes by what is copied, and in no other
  way. -/
  copies : ∀ budget clock p p', (passInTime budget clock p).result build = .ok (.next p') →
    ∃ distance headers, ((p.copies build budget clock).foldlM (copyDown distance)
      (p.arena.headers, p.arena.region)).result build = .ok (headers, p'.arena.region)
  once : ∀ budget clock copied round,
    Copies build budget clock { arena := sorted } copied round →
      copied.Nodup ∧ ∀ h ∈ copied, a.state? h = some .unlocked
  bounded : ∀ budget clock,
    Act.Delivers build (a.counters.Crowded a.region.size) (a.compact budget clock)
      fun (report, _) =>
        report.bytesMoved ≤ counts.unlockedBytes ∧ report.passes ≤ counts.unlocked

variable {a b : Arena} {chunks : List Chunk} {spare : List Handle} {deeds : List Deed}
  {build : Build} {config : Config} {available size : Nat}

theorem Sound.economy (hsound : a.Sound chunks spare) :
    ∃ sorted, a.Economy build sorted (used chunks).length (tally chunks) := by
  obtain ⟨headers, sorted, hsort, hperm, hlaid, htiles⟩ := hsound.sortChain
  have hused := used_perm hperm
  have haccounts := hsound.accounts.perm hperm
  refine ⟨{ a with headers }, hsort, hsound.liveChunkCount, hsound.blockCounts, fun clock => ?_,
    fun budget clock limit hlimit => ?_, fun _ _ _ _ => copyDown_of_passInTime,
    fun budget clock copied round hcopies => ?_, fun budget clock => ?_⟩
  · apply (hsound.compact 0 clock).mono
    rintro ⟨report, b⟩ ⟨chunks', spare', hcompaction⟩
    exact hcompaction.untimed rfl
  · exact hlaid.runPasses_eq htiles haccounts budget clock (hused.length_eq ▸ hlimit)
  · obtain ⟨hnodup, hmovable⟩ := hlaid.nodup_of_copies htiles haccounts hcopies
    refine ⟨hnodup, fun h hh => ?_⟩
    obtain ⟨c, hc, rfl⟩ := mem_handles.mp (hmovable hh)
    obtain ⟨hc, hstate⟩ := List.mem_filter.mp hc
    rw [hsound.toLaid.state?_eq (hperm.mem_iff.mp hc), of_decide_eq_true hstate]
  · apply (hsound.compact budget clock).mono
    rintro ⟨report, b⟩ ⟨chunks', spare', hcompaction⟩
    exact ⟨hcompaction.bytesMoved, hcompaction.passes.trans_eq List.countP_eq_length_filter.symm⟩

/-- At every moment a compaction ends, whatever its time and the clock are, after as many
rounds as there are chunks in use and one more, and copies each unlocked chunk at most
once. -/
theorem economy_of_compact
    (hestablish : (establish config available size).result build = .ok (.ok a))
    (hruns : Runs build a deeds b) :
    ∃ sorted live counts, b.Economy build sorted live counts := by
  obtain ⟨chunks, spare, hsound⟩ := hruns.sound (sound_of_establish hestablish)
  obtain ⟨sorted, heconomy⟩ := hsound.economy
  exact ⟨sorted, _, _, heconomy⟩

/-- A compaction that moves 48 bytes in one pass. -/
theorem economy_of_compact_passedBy :
    ∃ s report a sorted live counts,
      (Session.run .refusing passedBy ⟨small, []⟩).result .release = .ok s ∧
      (s.arena.compact 0 .still).result .release = .ok (report, a) ∧ report.passes = 1 ∧
      s.arena.Economy .release sorted live counts ∧ 1 ≤ counts.unlocked ∧
      48 ≤ counts.unlockedBytes := by
  obtain ⟨s, a, -, hrun, hcompact, -⟩ := of_compactTwice compactTwice_passedBy
  obtain ⟨deeds, hruns⟩ := Session.runs_of_run hrun
  obtain ⟨sorted, live, counts, heconomy⟩ :=
    economy_of_compact (establish_small .release) hruns
  obtain ⟨hbytes, hpasses⟩ := (heconomy.bounded 0 .still).of_ok hcompact
  exact ⟨s, _, a, sorted, live, counts, hrun, hcompact, rfl, heconomy, hpasses, hbytes⟩

end CompactingArena.Arena
