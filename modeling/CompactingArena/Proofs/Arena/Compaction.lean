import CompactingArena.Proofs.Compaction.Passes
import CompactingArena.Proofs.Compaction.Settle
/-!
# Compacting keeps the invariant

A compaction sorts the chain, slides and settles.  Whenever it ends, the arena is
sound and every chunk in use is still there; if it is complete, every free chunk
is followed by a pinned one.
-/

namespace CompactingArena.Arena

open Layout

variable {a : Arena} {chunks : List Chunk} {spare : List Handle} {build : Build}

/-- What a compaction leads to. -/
structure Compaction (a : Arena) (chunks : List Chunk) (budget : Nat) (clock : Readings)
    (report : CompactionReport) (a' : Arena) (chunks' : List Chunk) (spare' : List Handle) :
    Prop where
  sound : a'.Sound chunks' spare'
  tiles : Tiles 0 chunks' a'.memoryHigh
  coalesced : Coalesced chunks'
  /-- The highest chunk is in use. -/
  top : ∀ c ∈ chunks'.getLast?, c.isFree = false
  carries : Carries a.region chunks a'.region chunks'
  config : a'.config = a.config
  size : a'.region.size = a.region.size
  high : a'.memoryHigh ≤ a.memoryHigh
  reclaimed : report.reclaimed = a.memoryHigh - a'.memoryHigh
  settled : report.completed = true → Settled chunks'
  untimed : budget = 0 → report.completed = true
  idle : Tiles 0 chunks a.memoryHigh → report.passes = 0 → report.bytesMoved = 0 ∧
    chunks' = trimmed (merged chunks) ∧ (report.completed = true → Stuck chunks)
  still : Tiles 0 chunks a.memoryHigh → Settled chunks → Stuck chunks → report.passes = 0
  moves : 1 ≤ report.bytesMoved ↔ 1 ≤ report.passes
  passes : report.passes ≤ (unlocked chunks).length
  bytesMoved : report.bytesMoved ≤ bytes (unlocked chunks)
  slides : ∀ sorted : List Chunk, sorted.Perm chunks → Tiles 0 sorted a.memoryHigh →
    (1 ≤ report.passes ↔ ∃ n, obstructions sorted = some n ∧ InTime budget clock (n + 1))
  backs : a.counters.Backs a'.counters
  /-- Free chunks disappear only above the high-water mark. -/
  vacated : frees chunks ≠ [] → frees chunks' = [] → a'.memoryHigh < a.memoryHigh

theorem checkAscending_eq {l : List Chunk} {previous base top : Nat}
    (hrecords : ∀ c ∈ l, ∃ r, a.headers.get? c.handle = some r ∧ r.Describes c)
    (htiles : Tiles base l top) (hprevious : previous ≤ base) :
    a.checkAscending previous (handles l) = pure () := by
  induction l generalizing previous base with
  | nil => rfl
  | cons c l ih =>
      obtain ⟨r, hget, hdesc⟩ := hrecords c (by simp)
      obtain ⟨rfl, htiles⟩ := htiles
      rw [handles_cons, checkAscending, HeaderTable.get_eq hget, pure_bind, hdesc.addr]
      simp only [if_neg (Nat.not_lt.mpr hprevious)]
      exact ih (fun d hd => hrecords d (by simp [hd])) htiles (Nat.le_add_right _ _)

theorem Laid.sortChain (hlaid : a.Laid chunks spare) :
    ∃ headers sorted, a.sortChain = pure { a with headers } ∧ sorted.Perm chunks ∧
      Arena.Laid { a with headers } sorted spare ∧ Tiles 0 sorted a.memoryHigh := by
  obtain ⟨t', sorted, hsort, hperm, hascending, hlists, hrelinked⟩ :=
    HeaderTable.sortChain_eq hlaid.chained
  have htiles : Tiles 0 sorted a.memoryHigh :=
    (hlaid.fills.perm hperm.symm).tiles (fun c hc => (hlaid.sized c (hperm.mem_iff.mp hc)).pos)
      hascending
  have hlength : (handles sorted).length ≤ t'.capacity := by
    rw [length_handles, hperm.length_eq, hrelinked.capacity]
    exact hlaid.length_le
  have hchained : t'.chained = pure (handles sorted) := by
    rw [HeaderTable.chained, hlists.take, List.take_of_length_le hlength]
  have hlaid' : Arena.Laid { a with headers := t' } sorted spare := by
    refine ⟨hlists, (hrelinked.kept hlaid.kept).perm (hperm.symm.map _), htiles.fills,
      fun c hc => hlaid.sized c (hperm.mem_iff.mp hc), ?_, ?_, hlaid.least, hlaid.limit⟩
    · exact hrelinked.high.trans hlaid.high
    · have hroom := hlaid.room
      unfold HeaderTable.footprint at hroom ⊢
      change a.memoryHigh + t'.capacity * Record.bytes ≤ a.region.size
      rwa [hrelinked.capacity]
  refine ⟨t', sorted, ?_, hperm, hlaid', htiles⟩
  rw [Arena.sortChain, hsort, pure_bind]
  simp only [hchained, pure_bind]
  rw [checkAscending_eq (a := { a with headers := t' }) (fun c hc => hlists.get hc) htiles
      (le_refl _),
    pure_bind]

theorem carries_perm {l m : List Chunk} (hperm : m.Perm l) (r : Region) : Carries r l r m where
  becomes c hc := ⟨c, (used_perm hperm).mem_iff.mpr hc, .refl c r⟩
  perm := (used_perm hperm).map _

/-- What settling leaves of the bytes of the chunks in use. -/
theorem carries_settled {b : Arena} {l : List Chunk} {spare' : List Handle}
    (hsound : b.Orderly (trimmed (merged l)) spare') {r : Region}
    (hchanged : r.Changed b.region fun i => ∃ d ∈ frees (trimmed (merged l)), d.Holds i) :
    Carries r l b.region (trimmed (merged l)) := by
  have hused : used (trimmed (merged l)) = used l := by rw [used_trimmed, used_merged]
  refine ⟨fun c hc => ⟨c, hused ▸ hc, .of_unchanged fun i hi => hchanged.byte i ?_⟩, by rw [hused]⟩
  rintro ⟨d, hd, hholds⟩
  obtain ⟨hd, hdfree⟩ := mem_frees.mp hd
  obtain ⟨hc, hcused⟩ := mem_used.mp (hused ▸ hc)
  have hne : c ≠ d := by
    rintro rfl
    rw [hdfree] at hcused
    exact absurd hcused (by simp)
  have hapart := hsound.fills.disjoint hc hd hne
  unfold Chunk.Holds at hi hholds
  omega

section Ends

variable {headers : HeaderTable} {b c : Arena} {sorted chunks' : List Chunk}
  {spare' spare'' : List Handle} {budget splits : Nat} {clock : Readings}
  {report : CompactionReport}

/-- No total has more added to it than the region has bytes. -/
theorem Compacted.bounds (h : Compacted a chunks budget clock report splits b chunks' spare')
    (hlaid : a.Laid chunks spare) (htiles : Tiles 0 chunks a.memoryHigh) :
    (∃ n, a.counters.Grown n b.counters ∧ n ≤ a.region.size) ∧
      report.passes ≤ a.region.size ∧ report.bytesMoved ≤ a.region.size := by
  obtain ⟨skips, moved, done, todo, -, hmoved, htrail, -⟩ := h.trail
  obtain ⟨hpasses, hbytes⟩ := htrail.bounds
  have hfew := (unlocked_sublist_used chunks).length_le
  have hless := bytes_subperm (unlocked_sublist_used chunks).subperm
  have hused := bytes_used_le chunks
  have hused' := bytes_used_le chunks'
  have htop := htiles.top_eq
  have htop' := h.compacts.tiles.top_eq
  have hhigh : b.memoryHigh = a.memoryHigh := by rw [h.compacts.frame]
  have hbound := hlaid.memoryHigh_le
  have hcount : (used chunks).length ≤ bytes (used chunks) :=
    length_le_bytes fun d hd => (hlaid.sized d (mem_used.mp hd).1).pos
  obtain ⟨n, hgrown⟩ := h.compacts.grown
  have hallocated := hgrown.allocated
  have hcovered := h.compacts.accounts.bytes
  exact ⟨⟨n, hgrown, by omega⟩, by omega, by omega⟩

/-- Where no free chunk is left, what the free ones had is no longer in use. -/
theorem Compacted.vacated (h : Compacted a chunks budget clock report splits b chunks' spare')
    (hfree : frees chunks ≠ []) (hnone : frees (trimmed (merged chunks')) = [])
    (htiles' : Tiles 0 (trimmed (merged chunks')) c.memoryHigh) : c.memoryHigh < a.memoryHigh := by
  obtain ⟨skips, moved, done, todo, rfl, -, htrail, -⟩ := h.trail
  have hbytes : 0 < bytes (frees (done ++ todo)) := bytes_pos (htrail.frees_ne_nil hfree)
    fun d hd => h.compacts.laid.sized d (mem_frees.mp hd).1
  have hhigh : b.memoryHigh = a.memoryHigh := by rw [h.compacts.frame]
  have htop := h.compacts.tiles.top_eq
  have htop' := htiles'.top_eq
  have hsum := bytes_frees_add_used (done ++ todo)
  have hsum' := bytes_frees_add_used (trimmed (merged (done ++ todo)))
  rw [hnone, bytes_nil, used_trimmed, used_merged] at hsum'
  omega

/-- What sorting, sliding and settling amount to. -/
theorem Compacted.compaction
    (h : Compacted { a with headers } sorted budget clock report splits b chunks' spare')
    (hperm : sorted.Perm chunks) (hpos : ∀ d ∈ chunks, 0 < d.size)
    (htiles : Tiles 0 sorted a.memoryHigh)
    (hsound : c.Sound (trimmed (merged chunks')) spare'')
    (htiles' : Tiles 0 (trimmed (merged chunks')) c.memoryHigh)
    (hhigh : c.memoryHigh ≤ b.memoryHigh)
    (hchanged : b.region.Changed c.region fun i =>
      ∃ d ∈ frees (trimmed (merged chunks')), d.Holds i)
    (hconfig : c.config = b.config) (hbacks : a.counters.Backs c.counters) :
    Compaction a chunks budget clock
      { report with reclaimed := a.memoryHigh - c.memoryHigh } c (trimmed (merged chunks'))
      spare'' := by
  have hframe := h.compacts.frame
  -- a chain that was in order already has not changed by sorting
  have hsame : Tiles 0 chunks a.memoryHigh → sorted = chunks := fun hordered =>
    htiles.eq_of_perm hperm hpos hordered.ascending
  have hmovable : (unlocked sorted).Perm (unlocked chunks) := hperm.filter _
  have hpos' : ∀ d ∈ merged chunks', 0 < d.size := fun d hd =>
    (sized_merged h.compacts.laid.sized d hd).pos
  have ⟨_, _, htop⟩ := h.compacts.tiles.merged.trimmed hpos'
  have ⟨skips, moved, done, todo, hchunks', hmoved, htrail, htime, hend⟩ := h.trail
  have hpositive : ∀ d ∈ sorted, 0 < d.size := fun d hd => hpos d (hperm.mem_iff.mp hd)
  exact
    { sound := hsound
      tiles := htiles'
      coalesced := (coalesced_merged chunks').trimmed h.compacts.tiles.merged hpos'
      top := fun d hd => (htop d hd).1
      carries := (carries_perm hperm a.region).trans
        (h.compacts.carries.trans (carries_settled hsound.toOrderly hchanged))
      config := by rw [hconfig, hframe]
      size := hchanged.size.trans h.compacts.size
      high := by rwa [hframe] at hhigh
      reclaimed := rfl
      settled := fun hcompleted => by
        obtain ⟨low, tail, hsplit, hlow, htail⟩ := h.capped hcompleted
        have hfollows := (hlow.follows htail).merged
        rw [← hsplit] at hfollows
        exact hfollows.settled h.compacts.tiles.merged hpos'
      untimed := h.untimed
      idle := fun hordered hzero => by
        obtain ⟨-, hnone, hstay, hstuck⟩ := h.idle hzero
        rw [← hsame hordered]
        exact ⟨hnone, by rw [hstay], hstuck⟩
      still := fun hordered => hsame hordered ▸ h.still
      moves := by
        change 1 ≤ report.bytesMoved ↔ _
        rw [hmoved]
        exact htrail.moved_pos_iff hpositive
      passes := htrail.bounds.1.trans_eq hmovable.length_eq
      bytesMoved := by
        rw [← bytes_perm hmovable, ← hmoved.symm]
        exact htrail.bounds.2
      slides := fun l hl hltiles => by
        have heq : l = sorted :=
          hltiles.eq_of_perm (hl.trans hperm.symm) hpositive htiles.ascending
        rw [heq]
        exact htrail.passes_pos_iff htime hend
      backs := hbacks
      vacated := fun hfree hnone =>
        h.vacated (fun hempty => hfree (List.perm_nil.mp (hempty ▸ (frees_perm hperm).symm)))
          hnone htiles' }

/-- What follows the passes of a compaction. -/
def finishCompaction (highBefore : Nat) :
    CompactionReport × Arena → Act (CompactionReport × Arena)
  | (report, a) => do
      let a ← a.settle
      let report := { report with reclaimed := highBefore - a.memoryHigh }
      let counters ← a.counters.accountCompaction report.passes report.bytesMoved
      let a := { a with counters }
      Act.log (.compacted report a.memoryHigh)
      a.selfCheck
      return (report, a)

theorem compact_eq (a : Arena) (budget : Nat) (clock : Readings) :
    a.compact budget clock =
      a.sortChain >>= fun sorted =>
        Arena.runPasses budget clock passLimit sorted >>= finishCompaction a.memoryHigh :=
  rfl

/-- What the passes have led to settles and is accounted for. -/
theorem Compacted.agrees_finish
    (h : Compacted { a with headers } sorted budget clock report splits b chunks' spare')
    (hlaid : Arena.Laid { a with headers } sorted spare) (hperm : sorted.Perm chunks)
    (htiles : Tiles 0 sorted a.memoryHigh)
    (henough : a.region.size < 2 ^ a.classes.count) (hnonempty : 0 < a.classes.count) :
    Act.Agrees (finishCompaction a.memoryHigh (report, b))
      (fun (_, c) => a.counters.Wraps a.region.size c.counters) fun (report', c) =>
        (report'.passes = report.passes ∧ ∃ spare'', Compaction a chunks budget clock report' c
          (trimmed (merged chunks')) spare'') ∧
        (a.counters.Overdrawn b.counters → a.counters.Wraps a.region.size c.counters) := by
  have hcompacts := h.compacts
  have hclasses : b.classes = a.classes := by rw [hcompacts.frame]
  obtain ⟨c, spare'', hsettle, horderly, htiles', hhigh, hchanged, hcounters, hconfig⟩ :=
    hcompacts.laid.settle hcompacts.tiles (by rw [hclasses, hcompacts.size]; exact henough)
      (by rw [hclasses]; exact hnonempty)
  apply Act.Agrees.bind_yields hsettle
  obtain ⟨⟨n, hgrown, hn⟩, hpasses, hmoved⟩ := h.bounds hlaid htiles
  rw [hcounters]
  apply (Counters.agrees_accountCompaction hgrown hn (le_trans (by decide) hlaid.least) hpasses
    hmoved hlaid.size_lt_modulus).bind
  rintro counters ⟨⟨count, passes, moved, rfl⟩, hover, hbacks⟩
  apply Act.Agrees.bind_yields (Act.yields_log _)
  have hused : used (trimmed (merged chunks')) = used chunks' := by rw [used_trimmed, used_merged]
  have hsound' : Arena.Sound { c with counters := { b.counters with
      compactionCount := count, totalCompactionPasses := passes, totalBytesMoved := moved } }
      (trimmed (merged chunks')) spare'' :=
    ⟨⟨horderly.toLaid.congr rfl rfl rfl, horderly.topped, horderly.covers, horderly.tight⟩,
      ⟨hused ▸ hcompacts.accounts.count, hused ▸ hcompacts.accounts.bytes⟩⟩
  apply Act.Agrees.bind_yields hsound'.selfCheck
  have hpos : ∀ d ∈ chunks, 0 < d.size := fun d hd =>
    (hlaid.sized d (hperm.mem_iff.mpr hd)).pos
  exact .of_pure ⟨⟨⟨rfl, spare'', h.compaction hperm hpos htiles hsound' htiles' hhigh hchanged
    hconfig hbacks⟩, hover⟩, id⟩

end Ends

/-- A compaction never looks at the free lists that it finds: on any layout whose chunks
in use are accounted for it comes to an end, and leaves a sound arena. -/
theorem Laid.agrees_compact (hlaid : a.Laid chunks spare) (haccounts : Accounts a.counters chunks)
    (henough : a.region.size < 2 ^ a.classes.count) (hnonempty : 0 < a.classes.count)
    (budget : Nat) (clock : Readings) :
    Act.Agrees (a.compact budget clock)
      (fun (_, a') => a.counters.Wraps a.region.size a'.counters) fun (report, a') =>
        ∃ chunks' spare', Compaction a chunks budget clock report a' chunks' spare' := by
  obtain ⟨headers, sorted, hsort, hperm, hsorted, htiles⟩ := hlaid.sortChain
  rw [compact_eq, hsort, pure_bind]
  apply (hsorted.runPasses htiles (haccounts.perm hperm) budget clock).bind
  rintro ⟨report, b⟩ ⟨splits, chunks', spare', hcompacted⟩
  apply (hcompacted.agrees_finish hsorted hperm htiles henough hnonempty).mono
  rintro ⟨report', c⟩ ⟨⟨-, spare'', hcompaction⟩, hover⟩
  exact ⟨⟨_, spare'', hcompaction⟩, hover⟩

/-- A compaction of a sound arena comes to an end and leaves a sound arena. -/
theorem Sound.agrees_compact (hsound : a.Sound chunks spare) (budget : Nat) (clock : Readings) :
    Act.Agrees (a.compact budget clock)
      (fun (_, a') => a.counters.Wraps a.region.size a'.counters) fun (report, a') =>
        ∃ chunks' spare', Compaction a chunks budget clock report a' chunks' spare' :=
  hsound.toLaid.agrees_compact hsound.accounts hsound.covers.enough hsound.covers.nonempty budget
    clock

theorem Sound.compact (hsound : a.Sound chunks spare) (budget : Nat) (clock : Readings) :
    Act.Delivers build (a.counters.Crowded a.region.size) (a.compact budget clock)
      fun (report, a') =>
        ∃ chunks' spare', Compaction a chunks budget clock report a' chunks' spare' :=
  (hsound.agrees_compact budget clock).delivers fun _ _ hover => hover.1

end CompactingArena.Arena
