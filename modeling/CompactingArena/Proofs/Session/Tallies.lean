import CompactingArena.Proofs.Arena.Statistics
import CompactingArena.Proofs.Session.Shape
/-!
# Two accounts of one layout

The statistics of the free chunks follow links through memory that clients write to; all
others follow the header chain.  `Arena.Tallies` says what they all tell of one layout, and
so how they agree.
-/

namespace CompactingArena.Arena

open Layout

variable {a b : Arena} {chunks : List Chunk} {spare : List Handle} {build : Build}
  {config : Config} {available size : Nat}

/-- What an arena tells of the chunks on its header chain. -/
structure Tallies (a : Arena) (chunks : List Chunk) : Prop where
  chain : a.headers.Lists a.headers.chain chunks none
  /-- The free lists hold the bytes of the free chunks, and the largest of them. -/
  free : a.totalFreeBytes = pure (bytes (frees chunks))
  largest : a.largestFreeChunk = pure (largest (frees chunks))
  live : a.liveChunks = pure ((used chunks).map Chunk.span)
  /-- What is not free is in use, up to the high-water mark. -/
  conserved : bytes (frees chunks) + (((used chunks).map Chunk.span).map Span.size).sum = a.memoryHigh
  room : a.memoryHigh + a.headers.footprint ≤ a.region.size
  highest : a.highestUsed false = pure a.memoryHigh
  exact : ∃ n ≤ a.memoryHigh, a.highestUsed true = pure n
  counts : a.blockCounts = pure (tally chunks)
  partition : (tally chunks).free + (tally chunks).unlocked + (tally chunks).locked +
    (tally chunks).weakLocked = chunks.length
  count : a.liveChunkCount =
    pure ((tally chunks).unlocked + (tally chunks).locked + (tally chunks).weakLocked)

/-- The chunks in use take up what they hold. -/
theorem sum_size_span (l : List Chunk) : ((l.map Chunk.span).map Span.size).sum = bytes l := by
  rw [List.map_map, bytes]
  congr 1
  apply List.map_congr_left
  intro c _
  exact Nat.add_sub_cancel_left _ _

/-- No chunk in use ends above the high-water mark. -/
theorem Laid.foldl_acme_le (hlaid : a.Laid chunks spare) :
    (used chunks).foldl (fun highest c => max highest c.acme) 0 ≤ a.memoryHigh :=
  (foldl_max_le_iff Chunk.acme).mpr ⟨Nat.zero_le _, fun _ hc => hlaid.acme_le (mem_used.mp hc).1⟩

theorem Sound.tallies (hsound : a.Sound chunks spare) : a.Tallies chunks := by
  have hsum := bytes_frees_add_used chunks
  have htop := hsound.fills.top_eq
  obtain ⟨hfree, hused⟩ := tally_partition chunks
  have hlength : chunks.length = (frees chunks).length + (used chunks).length :=
    List.length_eq_length_filter_add _
  exact
    { chain := hsound.chained
      free := hsound.totalFreeBytes
      largest := hsound.largestFreeChunk
      live := hsound.liveChunks
      conserved := by rw [sum_size_span, hsum, htop]
      room := hsound.room
      highest := hsound.highestUsed
      exact := ⟨_, hsound.foldl_acme_le, hsound.highestUsed_exact⟩
      counts := hsound.blockCounts
      partition := by omega
      count := by rw [hused, hsound.liveChunkCount] }

/-- At every moment of every history the statistics of the free lists and those of the
header chain tell of one layout. -/
theorem tallies_of_runs
    (hestablish : (establish config available size).result build = .ok (.ok a)) :
    (∀ deeds b, Runs build a deeds b → ∃ chunks, b.Tallies chunks) ∧
      ∀ handler ops s, (Session.run handler ops ⟨a, []⟩).result build = .ok s →
        ∃ deeds, Runs build a deeds s.arena := by
  refine ⟨fun deeds b hruns => ?_, fun handler ops s hrun => Session.runs_of_run hrun⟩
  obtain ⟨chunks, spare, hsound⟩ := hruns.sound (sound_of_establish hestablish)
  exact ⟨chunks, hsound.tallies⟩

theorem tallies_of_sampler :
    ∃ s, (Session.run .compacting sampler ⟨small, []⟩).result .release = .ok s ∧
      ∃ chunks, s.arena.Tallies chunks := by
  have hok : ((Session.run .compacting sampler ⟨small, []⟩).result .release).isOk = true := by
    decide +kernel
  obtain ⟨s, hrun⟩ := Act.exists_of_isOk hok
  obtain ⟨htallies, hsession⟩ := tallies_of_runs (establish_small .release)
  obtain ⟨deeds, hruns⟩ := hsession .compacting sampler s hrun
  exact ⟨s, hrun, htallies deeds s.arena hruns⟩

end CompactingArena.Arena
