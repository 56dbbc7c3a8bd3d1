import CompactingArena.Proofs.Session.Progress
import CompactingArena.Proofs.Session.Tallies
/-!
# The normal form

Every compaction brings an arena into a normal form, also one that runs out of time
before it has tried all chunks: the chunks are in order, no two free ones lie side by
side, and the highest one is in use, so that the high-water mark is exact.  The header
table is no longer than it takes, and that it is at all times.
-/

namespace CompactingArena

open Layout

/-- The last record describes a chunk, unless there is no record. -/
def HeaderTable.EndsInChunk (t : HeaderTable) : Prop :=
  t.capacity = 0 ∨ ∃ h r, h.index + 1 = t.capacity ∧ t.live? h = some r

namespace Arena

variable {a b b' : Arena} {chunks : List Chunk} {spare : List Handle} {deeds : List Deed}
  {build : Build} {config : Config} {available size budget : Nat} {clock : Readings}
  {report : CompactionReport}

/-- The normal form of an arena, with its chunks in the order of the header chain. -/
structure Normal (a : Arena) (chunks : List Chunk) : Prop where
  chain : a.headers.Lists a.headers.chain chunks none
  /-- There are no other chunks. -/
  all : ∀ h, (∃ r, a.headers.live? h = some r) ↔ h ∈ handles chunks
  ascending : chunks.Pairwise fun c d => c.addr < d.addr
  coalesced : ∀ c ∈ chunks, ∀ d ∈ chunks, c.acme = d.addr → c.state = .free → d.state ≠ .free
  top : ∀ c ∈ chunks.getLast?, c.state ≠ .free
  /-- The high-water mark is the highest end of a chunk in use, or zero. -/
  memoryHigh : a.memoryHigh = (used chunks).foldl (fun highest c => max highest c.acme) 0
  highestUsed : ∀ exact, a.highestUsed exact = pure a.memoryHigh
  endsInChunk : a.headers.EndsInChunk
  empty : chunks = [] → a.headers.capacity = 0

theorem Laid.exists_live_iff (hlaid : a.Laid chunks spare) (h : Handle) :
    (∃ r, a.headers.live? h = some r) ↔ h ∈ handles chunks := by
  rw [← Option.isSome_iff_exists, ← Option.ne_none_iff_isSome, Ne, hlaid.live?_eq_none_iff,
    not_not]

theorem Orderly.endsInChunk (horderly : a.Orderly chunks spare) : a.headers.EndsInChunk := by
  refine (horderly.kept.tight_iff.mp horderly.tight).imp id ?_
  rintro ⟨h, hh, hlast⟩
  have ⟨r, hlive⟩ := (horderly.exists_live_iff h).mpr hh
  exact ⟨h, r, hlast, hlive⟩

theorem Orderly.capacity_eq_zero (horderly : a.Orderly [] spare) : a.headers.capacity = 0 := by
  refine (horderly.kept.tight_iff.mp horderly.tight).resolve_right ?_
  rintro ⟨h, hh, -⟩
  exact List.not_mem_nil hh

/-- If the highest chunk is in use, the high-water mark is where it ends. -/
theorem Laid.foldl_acme_eq (hlaid : a.Laid chunks spare) (htiles : Tiles 0 chunks a.memoryHigh)
    (htop : ∀ c ∈ chunks.getLast?, c.isFree = false) :
    (used chunks).foldl (fun highest c => max highest c.acme) 0 = a.memoryHigh := by
  refine Nat.le_antisymm hlaid.foldl_acme_le ?_
  rcases chunks.eq_nil_or_concat' with rfl | ⟨low, c, rfl⟩
  · exact Nat.le_of_eq htiles.symm
  · have hused : used [c] = [c] := List.filter_eq_self.mpr (by simpa using htop)
    have hend : c.acme = a.memoryHigh := by
      have ⟨_, haddr, htop⟩ := tiles_append.mp htiles
      rw [Chunk.acme, haddr]
      exact htop
    rw [used_append, hused, List.foldl_append, ← hend]
    exact Nat.le_max_right _ _

/-- Settling brings about the normal form. -/
theorem Compaction.normal {chunks' : List Chunk} {spare' : List Handle}
    (h : Compaction a chunks budget clock report b chunks' spare') : b.Normal chunks' := by
  have hsound := h.sound
  have hpos : ∀ c ∈ chunks', 0 < c.size := fun c hc => (hsound.sized c hc).pos
  have hhigh := hsound.foldl_acme_eq h.tiles h.top
  have hbusy : ∀ c : Chunk, c.isFree = false ↔ c.state ≠ .free := fun c => by
    rw [Ne, ← c.isFree_iff, Bool.not_eq_true]
  refine
    { chain := hsound.chained
      all := hsound.exists_live_iff
      ascending := h.tiles.pairwise.imp_of_mem fun hc _ hcd => ?_
      coalesced := fun c hc d hd hadjacent hfree => (hbusy d).mp ?_
      top := fun c hc => (hbusy c).mp (h.top c hc)
      memoryHigh := hhigh.symm
      highestUsed := fun exact => ?_
      endsInChunk := hsound.endsInChunk
      empty := fun hnil => ?_ }
  · exact Nat.lt_of_lt_of_le (Nat.lt_add_of_pos_right (hpos _ hc)) hcd
  · exact h.tiles.isFree_of_adjacent h.coalesced hpos hc hd hadjacent (c.isFree_iff.mpr hfree)
  · cases exact with
    | false => exact hsound.highestUsed
    | true => rw [hsound.highestUsed_exact, hhigh]
  · subst hnil
    exact hsound.capacity_eq_zero

/-- At every moment of every history the last record describes a chunk, and from there
every compaction, whatever its budget and complete or not, leads to the normal form. -/
theorem normal_of_compact
    (hestablish : (establish config available size).result build = .ok (.ok a))
    (hruns : Runs build a deeds b) :
    b.headers.EndsInChunk ∧
      ∀ budget clock, Act.Delivers build (b.counters.Crowded b.region.size)
        (b.compact budget clock) fun (_, c) => ∃ chunks, c.Normal chunks := by
  have ⟨chunks, spare, hsound⟩ := hruns.sound (sound_of_establish hestablish)
  refine ⟨hsound.endsInChunk, fun budget clock => (hsound.compact budget clock).mono ?_⟩
  rintro ⟨report, c⟩ ⟨chunks', spare', hcompaction⟩
  exact ⟨chunks', hcompaction.normal⟩

/-- Also a compaction that has no time for what there is to move ends in normal form. -/
theorem normal_of_compact_cornered :
    ∃ s report a chunks, (Session.run .refusing cornered ⟨small, []⟩).result .release = .ok s ∧
      s.arena.headers.EndsInChunk ∧
      (s.arena.compact 2 ticking).result .release = .ok (report, a) ∧ report.completed = false ∧
      a.Normal chunks := by
  have ⟨s, a, hrun, hcompact, _⟩ := of_compactBriefly compactBriefly_cornered
  have ⟨deeds, hruns⟩ := Session.runs_of_run hrun
  have ⟨hends, hnormal⟩ := normal_of_compact (establish_small .release) hruns
  have ⟨chunks, hchunks⟩ := (hnormal 2 ticking).of_ok hcompact
  exact ⟨s, _, a, chunks, hrun, hends, hcompact, rfl, hchunks⟩

end Arena

end CompactingArena
