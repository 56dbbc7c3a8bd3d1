import CompactingArena.Proofs.Session.Shortage
/-!
# What a refusal tells

A request that a handler compacts for is refused when a compaction has made no progress.
That says of the arena before this compaction that it had no room, and of the arena
after it that nothing fits into a free chunk.  It does not say that there is no room
for a new chunk: the compaction may have freed a header record, which the handler does
not look for.  Where no chunk is pinned it cannot have, and fragmentation alone never
is the reason for a refusal.
-/

namespace CompactingArena

open Layout

namespace Arena

variable {build : Build} {a b c d : Arena} {chunks chunks' : List Chunk}
  {spare spare' : List Handle} {size requested : Nat} {deeds : List Deed}
  {report : CompactionReport} {config : Config} {available total : Nat} {shortages : List Nat}
  {s : Session}

/-! ## In any arena -/

theorem Futile.high (h : Futile build size a chunks spare report b chunks' spare') :
    b.memoryHigh = a.memoryHigh :=
  Nat.le_antisymm h.compaction.high (Nat.le_of_not_lt fun hlower => h.vain (.inl hlower))

/-- The free chunks are too small for the request, still. -/
theorem Futile.small (h : Futile build size a chunks spare report b chunks' spare')
    (hpos : 0 < size) : ∀ f ∈ frees chunks', f.size < size := by
  have hbefore : largest (frees chunks) ≤ size - 1 :=
    largest_le_iff.mpr fun f hf => Nat.le_sub_one_of_lt (h.packed.small f hf)
  have hafter : largest (frees chunks') ≤ largest (frees chunks) :=
    Nat.le_of_not_lt fun hlarger =>
      h.vain ((gains_iff h.sound h.compaction.sound).mpr (.inr hlarger))
  intro f hf
  have hle := size_le_largest hf
  omega

/-- What is known of the arena `b` that a refused request for `size` bytes leaves: the
last attempt found `a`, and the compaction of `a` made no progress. -/
structure Refused (size : Nat) (a b : Arena) (chunks : List Chunk) : Prop where
  small : ∀ f ∈ frees chunks, f.size < size
  vain : ¬a.Gains b
  high : b.memoryHigh = a.memoryHigh
  largest : ∃ n n', a.largestFreeChunk = pure n ∧ b.largestFreeChunk = pure n' ∧ n' ≤ n
  near : a.headers.capacity < Handle.limit → a.headerLow < a.memoryHigh + size + a.clearance
  /-- Unless the compaction has freed a header record, the arena is as full as before. -/
  lasts : a.headers.capacity < Handle.limit → b.headerLow ≤ a.headerLow →
    (b.headers.hasFreeRecord = true → a.headers.hasFreeRecord = true) →
    b.headerLow < b.memoryHigh + size + b.clearance ∧ b.tryAllocate size = pure (none, b)

theorem Futile.refused (h : Futile build size a chunks spare report b chunks' spare')
    (hpos : 0 < size) (hsound : c.Sound chunks' spare') : Refused size a c chunks' := by
  have hsmall := h.small hpos
  have hsame : c.memoryHigh = b.memoryHigh := by
    rw [hsound.fills.top_eq, h.compaction.tiles.fills.top_eq]
  have hvain : ¬a.Gains c := by
    rw [gains_iff h.sound hsound, hsame, ← gains_iff h.sound h.compaction.sound]
    exact h.vain
  have hnear : a.headers.capacity < Handle.limit →
      a.headerLow < a.memoryHigh + size + a.clearance := fun hlimit =>
    h.packed.near.resolve_right (Nat.ne_of_lt hlimit)
  have hlargest : Layout.largest (frees chunks') ≤ Layout.largest (frees chunks) :=
    Nat.le_of_not_lt fun hlarger => hvain ((gains_iff h.sound hsound).mpr (.inr hlarger))
  refine ⟨hsmall, hvain, hsame.trans h.high,
    ⟨_, _, h.sound.largestFreeChunk, hsound.largestFreeChunk, hlargest⟩, hnear,
    fun hlimit hlow hrecord => ?_⟩
  have hclearance : a.clearance ≤ c.clearance := by
    unfold clearance
    cases hc : c.headers.hasFreeRecord with
    | true => rw [hrecord hc]
    | false => split <;> simp
  have hnear' : c.headerLow < c.memoryHigh + size + c.clearance := by
    have hfull := hnear hlimit
    have hhigh := h.high
    omega
  exact ⟨hnear', hsound.tryAllocate_none hpos hsmall hnear'⟩

/-- A request that the handler gives up was last tried on some `c`.  What is left is what
the compaction of `c` left, but for the counters, and the compaction made no progress.  Hence
all free chunks are too small, and there was no room above the high-water mark of `c`.  The
compaction may have made room there by freeing a header record, which the handler does not
look for; otherwise there is still none. -/
theorem refused_of_allocate
    (hestablish : (establish config available total).result build = .ok (.ok a))
    (hruns : Runs build a deeds b) (hsize : chunkSize? requested = some size)
    (hrefused : (Session.allocate .compacting requested ⟨b, shortages⟩).result build =
      .ok (.error .outOfMemory, s)) :
    ∃ deeds' c report d chunks spare, Runs build b deeds' c ∧ Retries build size b c ∧
      (c.tryAllocate size).result build = .ok (none, c) ∧
      (c.compact 0 .still).result build = .ok (report, d) ∧
      s.arena = { d with counters := s.arena.counters } ∧
      s.arena.Shape chunks spare ∧ Refused size c s.arena chunks := by
  obtain ⟨chunks, spare, hsound⟩ := hruns.sound (sound_of_establish hestablish)
  obtain ⟨-, hleast, haligned⟩ := chunkSize?_eq_some hsize
  have hpos : 0 < size := Nat.lt_of_lt_of_le (by decide) hleast
  obtain ⟨-, hgiven⟩ := (Session.delivers_allocate_compacting (s := ⟨b, shortages⟩) hsound
    requested).of_ok hrefused
  rcases hgiven rfl with hnone | ⟨size', hsize', ⟨hgives⟩⟩
  · rw [hsize] at hnone
    exact absurd hnone (by simp)
  obtain rfl : size = size' := Option.some.inj (hsize.symm.trans hsize')
  have hfutile := hgives.futile
  obtain ⟨deeds', hdeeds⟩ := hgives.retries.runs hsize
  exact ⟨deeds', hgives.last, hgives.report, hgives.left, hgives.leftChunks, hgives.leftSpare,
    hdeeds, hgives.retries, hfutile.attempt, hfutile.compact, hgives.same, hgives.sound.shape,
    hfutile.refused hpos hgives.sound⟩

/-- Two free chunks that lie next to each other below a pinned one, and a table that
leaves room for no chunk of 80 bytes unless a record can be recycled. -/
def adjoining : List Op :=
  [.allocate 16, .allocate 16, .allocate 16, .allocate 64, .allocate 3680, .lock (nth 2),
    .lock (nth 4), .free (nth 0), .free (nth 1), .free (nth 3)]

/-- Calls operations on a new arena, and then asks for a chunk twice; the second answer
comes with the arena that the first one left. -/
def allocateTwice (ops : List Op) (requested : Nat) :
    Act (Except OutOfMemory Handle × Arena × Except OutOfMemory Handle) := do
  let s ← Session.run .compacting ops ⟨small, []⟩
  let (answer, s) ← Session.allocate .compacting requested s
  let (answer', _) ← Session.allocate .compacting requested s
  return (answer, s.arena, answer')

theorem allocateTwice_adjoining :
    ((allocateTwice adjoining 80).result .release).map (fun (answer, b, answer') =>
      (answer, decide (b.headerLow < b.memoryHigh + 80 + b.clearance), answer')) =
      .ok (.error .outOfMemory, false, .ok (nth 1)) := by
  decide +kernel

theorem of_allocateTwice {ops : List Op} {answer answer' : Except OutOfMemory Handle} {roomy : Bool}
    (h : ((allocateTwice ops requested).result build).map (fun (answer, b, answer') =>
      (answer, decide (b.headerLow < b.memoryHigh + size + b.clearance), answer')) =
      .ok (answer, roomy, answer')) :
    ∃ s s' s'', (Session.run .compacting ops ⟨small, []⟩).result build = .ok s ∧
      (Session.allocate .compacting requested s).result build = .ok (answer, s') ∧
      decide (s'.arena.headerLow < s'.arena.memoryHigh + size + s'.arena.clearance) = roomy ∧
      (Session.allocate .compacting requested s').result build = .ok (answer', s'') := by
  cases hrun : (allocateTwice ops requested).result build with
  | error fault =>
      rw [hrun] at h
      exact absurd h (by simp [Except.map])
  | ok r =>
      obtain ⟨first, b, second⟩ := r
      rw [hrun] at h
      simp only [Except.map, Except.ok.injEq, Prod.mk.injEq] at h
      obtain ⟨rfl, hroomy, rfl⟩ := h
      obtain ⟨s, hs, hrun⟩ := Act.of_result_bind_ok hrun
      obtain ⟨⟨first', s'⟩, hfirst, hrun⟩ := Act.of_result_bind_ok hrun
      obtain ⟨⟨second', s''⟩, hsecond, hrun⟩ := Act.of_result_bind_ok hrun
      rw [Act.result_pure, Except.ok.injEq, Prod.mk.injEq, Prod.mk.injEq] at hrun
      obtain ⟨rfl, rfl, rfl⟩ := hrun
      exact ⟨s, s', s'', hs, hfirst, hroomy, hsecond⟩

theorem refused_of_allocate_adjoining :
    ∃ s s' c report d chunks,
      (Session.run .compacting adjoining ⟨small, []⟩).result .release = .ok s ∧
      (Session.allocate .compacting 80 s).result .release = .ok (.error .outOfMemory, s') ∧
      (c.tryAllocate 80).result .release = .ok (none, c) ∧
      (c.compact 0 .still).result .release = .ok (report, d) ∧
      s'.arena = { d with counters := s'.arena.counters } ∧ Refused 80 c s'.arena chunks := by
  obtain ⟨s, s', -, hrun, hrefused, -⟩ := of_allocateTwice allocateTwice_adjoining
  obtain ⟨deeds, hruns⟩ := Session.runs_of_run hrun
  obtain ⟨-, c, report, d, chunks, -, -, -, hattempt, hcompact, hsame, -, hknown⟩ :=
    refused_of_allocate (establish_small .release) hruns (rfl : chunkSize? 80 = some 80) hrefused
  exact ⟨s, s', c, report, d, chunks, hrun, hrefused, hattempt, hcompact, hsame, hknown⟩

/-- A refusal that leaves room for a new chunk of the requested size, so that the next
attempt succeeds. -/
theorem refused_with_room :
    ∃ s s' s'', (establish {} 4096 4096).result .release = .ok (.ok small) ∧
      (Session.run .compacting adjoining ⟨small, []⟩).result .release = .ok s ∧
      chunkSize? 80 = some 80 ∧
      (Session.allocate .compacting 80 s).result .release = .ok (.error .outOfMemory, s') ∧
      ¬s'.arena.headerLow < s'.arena.memoryHigh + 80 + s'.arena.clearance ∧
      (Session.allocate .compacting 80 s').result .release = .ok (.ok (nth 1), s'') := by
  obtain ⟨s, s', s'', hrun, hrefused, hroomy, hagain⟩ := of_allocateTwice allocateTwice_adjoining
  exact ⟨s, s', s'', establish_small .release, hrun, rfl, hrefused, of_decide_eq_false hroomy,
    hagain⟩

/-! ## Arenas without pinned chunks -/

/-- No chunk is pinned where none was. -/
theorem unpinned_of_carries {r r' : Region} (h : Carries r chunks r' chunks')
    (hnodup : (handles chunks').Nodup) (hpin : ∀ c ∈ chunks, c.state.isPinned = false) :
    ∀ c ∈ chunks', c.state.isPinned = false := by
  intro c hc
  by_cases hfree : c.isFree = true
  · rw [c.isFree_iff.mp hfree]
    rfl
  have hmem : c.handle ∈ handles (used chunks') :=
    handle_mem (mem_used.mpr ⟨hc, Bool.eq_false_iff.mpr hfree⟩)
  obtain ⟨d, hd, hhandle⟩ := mem_handles.mp (h.perm.mem_iff.mp hmem)
  obtain ⟨d', hd', hbecomes⟩ := h.becomes d hd
  obtain rfl : d' = c :=
    eq_of_handle_eq hnodup (mem_used.mp hd').1 hc (hbecomes.handle.trans hhandle)
  rw [hbecomes.state]
  exact hpin d (mem_used.mp hd).1

/-- Where no chunk is pinned, a compaction without progress has nothing to do, and the
table is as it was. -/
theorem Futile.table_eq (h : Futile build size a chunks spare report b chunks' spare')
    (hpin : ∀ c ∈ chunks, c.state.isPinned = false) :
    frees chunks = [] ∧ frees chunks' = [] ∧ b.headers.capacity = a.headers.capacity ∧
      (spare = [] ↔ spare' = []) := by
  have hsound := h.sound
  have hcompaction := h.compaction
  have hsound' := hcompaction.sound
  have hpin' := unpinned_of_carries hcompaction.carries hsound'.nodup_handles hpin
  have hnone' := (hcompaction.settled (hcompaction.untimed rfl)).frees_eq_nil hpin'
  have hnone : frees chunks = [] := by
    by_contra hsome
    have hlower := hcompaction.vacated hsome hnone'
    exact h.vain (.inl hlower)
  have hperm : (handles chunks').Perm (handles chunks) := by
    have hperm := hcompaction.carries.perm
    rwa [used_eq_self hnone, used_eq_self hnone'] at hperm
  have hcapacity : b.headers.capacity = a.headers.capacity := Nat.le_antisymm
    (hsound'.kept.capacity_mono hsound'.tight hsound.kept fun g hg => hperm.mem_iff.mp hg)
    (hsound.kept.capacity_mono hsound.tight hsound'.kept fun g hg => hperm.mem_iff.mpr hg)
  have hlength := hsound.kept.length_eq
  have hlength' := hsound'.kept.length_eq
  have hsame := hperm.length_eq
  refine ⟨hnone, hnone', hcapacity, ?_⟩
  rw [← List.length_eq_zero_iff, ← List.length_eq_zero_iff]
  omega

/-- Fragmentation alone is no reason for a refusal: where no chunk is pinned, the chunks
in use leave too little room. -/
theorem GivesUp.used_up (h : GivesUp build size a chunks b) (hsound : a.Sound chunks spare)
    (hpin : ∀ c ∈ chunks, c.state.isPinned = false) (hlimit : a.headers.capacity < Handle.limit) :
    ∃ chunks' spare', b.Shape chunks' spare' ∧
      b.headerLow < bytes (used chunks') + size + b.clearance := by
  have hfutile := h.futile
  have hlast := hfutile.sound
  have hpin₁ := unpinned_of_carries h.carries hlast.nodup_handles hpin
  obtain ⟨hnone, hnone', hcapacity, hspare⟩ := hfutile.table_eq hpin₁
  -- the chunks in use need no more records than when the request came
  have hfew : h.last.headers.capacity ≤ a.headers.capacity := by
    refine hlast.kept.capacity_mono hlast.tight hsound.kept fun g hg => ?_
    rw [← used_eq_self hnone] at hg
    obtain ⟨e, he, rfl⟩ := mem_handles.mp (h.carries.perm.mem_iff.mp hg)
    exact handle_mem (mem_used.mp he).1
  have hnear := hfutile.packed.near.resolve_right (by omega)
  refine ⟨h.leftChunks, h.leftSpare, h.sound.shape, ?_⟩
  have hheaders : b.headers = h.left.headers := (congrArg Arena.headers h.same :)
  have hlow : b.headerLow = h.last.headerLow := by
    rw [h.sound.low_eq, hlast.low_eq, ← h.sound.high, ← hlast.high, hheaders,
      hfutile.compaction.sound.high, hfutile.compaction.size, hlast.high]
    unfold HeaderTable.footprint
    rw [hcapacity]
  have hclearance : b.clearance = h.last.clearance := by
    have hiff : b.headers.hasFreeRecord = false ↔ h.last.headers.hasFreeRecord = false := by
      rw [h.sound.toLaid.hasFreeRecord_iff, hlast.toLaid.hasFreeRecord_iff, hspare]
    have heq : b.headers.hasFreeRecord = h.last.headers.hasFreeRecord := by
      rw [Bool.eq_iff_iff, ← not_iff_not, Bool.not_eq_true, Bool.not_eq_true]
      exact hiff
    rw [clearance, clearance, heq]
  have hbytes : bytes (used h.leftChunks) = h.last.memoryHigh := by
    rw [used_eq_self hnone', ← hfutile.high, hfutile.compaction.sound.fills.top_eq]
  rw [hlow, hclearance, hbytes]
  exact hnear

/-- A request that a handler compacts for comes to an end in a bounded number of
attempts, unless one of the totals that these attempts reach overflows in a debug build.
The handler has it tried again exactly if the high-water mark, which never rises, was
lowered or a larger free chunk lies below it than before.  Where no chunk is pinned, a
refusal means that the chunks in use take up too much of the region. -/
theorem allocate_compacting_ends
    (hestablish : (establish config available total).result build = .ok (.ok a))
    (hruns : Runs build a deeds b) (requested : Nat) (shortages : List Nat) :
    Act.Delivers build (∃ size, chunkSize? requested = some size ∧ b.Brims build size)
      (Session.allocate .compacting requested ⟨b, shortages⟩)
      (fun (answer, s) =>
        (∃ size, ∃ n ≤ (b.region.size + 1) * (b.region.size + 1),
          s.shortages = shortages ++ List.replicate n size) ∧
        (answer = .error .outOfMemory → (∀ h r, b.inUse? h = some r → r.state.isPinned = false) →
          b.headers.capacity < Handle.limit →
          chunkSize? requested = none ∨ ∃ size chunks spare, chunkSize? requested = some size ∧
            s.arena.Shape chunks spare ∧
            s.arena.headerLow < bytes (used chunks) + size + s.arena.clearance)) ∧
    ∀ deeds' c serve earlier size, Runs build b deeds' c →
      ∃ largest ≤ c.memoryHigh, c.largestFreeChunk = pure largest ∧
        Act.Delivers build (c.counters.Crowded c.region.size)
          (Session.follow serve (Handler.compacting.plan earlier size c) ⟨c, shortages⟩)
          fun (again, s) => s.arena.memoryHigh ≤ c.memoryHigh ∧ ∃ largest' ≤ s.arena.memoryHigh,
            s.arena.largestFreeChunk = pure largest' ∧
              (again = true ↔ s.arena.memoryHigh < c.memoryHigh ∨
                s.arena.memoryHigh = c.memoryHigh ∧ largest < largest') := by
  obtain ⟨chunks, spare, hsound⟩ := hruns.sound (sound_of_establish hestablish)
  constructor
  · apply (Session.delivers_allocate_compacting (s := ⟨b, shortages⟩) hsound requested).mono
    rintro ⟨answer, s⟩ ⟨hbound, hgiven⟩
    refine ⟨hbound, fun herror hpin hlimit => (hgiven herror).imp_right ?_⟩
    rintro ⟨size, hsize, ⟨hgives⟩⟩
    have hpin : ∀ c ∈ chunks, c.state.isPinned = false := by
      intro c hc
      by_cases hfree : c.isFree = true
      · rw [c.isFree_iff.mp hfree]
        rfl
      obtain ⟨r, hget, hdesc⟩ := hsound.chained.get hc
      have hused : c ∈ used chunks := mem_used.mpr ⟨hc, Bool.eq_false_iff.mpr hfree⟩
      rw [← hdesc.state]
      exact hpin c.handle r (hsound.toLaid.inUse?_eq_some_iff.mpr ⟨c, hused, rfl, hget, hdesc⟩)
    obtain ⟨chunks', spare', hshape, hnear⟩ := hgives.used_up hsound hpin hlimit
    exact ⟨size, chunks', spare', hsize, hshape, hnear⟩
  · intro deeds' c serve earlier size hruns'
    obtain ⟨chunks', spare', hsound'⟩ := hruns'.sound hsound
    refine ⟨_, hsound'.toLaid.largest_le, hsound'.largestFreeChunk, ?_⟩
    apply (Session.delivers_follow_compacting (s := ⟨c, shortages⟩) hsound' serve earlier size).mono
    rintro ⟨again, s⟩ ⟨-, chunks'', spare'', report, -, hcompaction, hagain⟩
    have hhigh := hcompaction.high
    refine ⟨hhigh, _, hcompaction.sound.toLaid.largest_le, hcompaction.sound.largestFreeChunk, ?_⟩
    rw [hagain, gains_iff hsound' hcompaction.sound]
    change _ ≤ c.memoryHigh at hhigh
    omega

theorem unpinned_of_all (h : (a.headers.records.all fun r => !r.state.isPinned) = true) :
    ∀ g r, a.inUse? g = some r → r.state.isPinned = false := by
  intro g r hr
  obtain ⟨hget, -⟩ := Option.filter_eq_some_iff.mp (live?_of_inUse hr).1
  have hmem : r ∈ a.headers.records := Array.mem_of_getElem? hget
  simpa using (Array.all_eq_true_iff_forall_mem.mp h) r hmem

/-- One chunk in use between two free ones. -/
def scattered : List Op :=
  [.allocate 16, .allocate 16, .allocate 16, .free (nth 0), .free (nth 2)]

/-- A request that is refused after the only chunk in use has been moved to the bottom,
and is tried once more in between. -/
theorem allocate_compacting_ends_scattered :
    ∃ s s', (Session.run .compacting scattered ⟨small, []⟩).result .release = .ok s ∧
      (∀ h r, s.arena.inUse? h = some r → r.state.isPinned = false) ∧
      s.arena.headers.capacity < Handle.limit ∧
      (Session.allocate .compacting 4000 s).result .release = .ok (.error .outOfMemory, s') ∧
      s'.shortages = [4000, 4000] ∧ ∃ chunks spare, s'.arena.Shape chunks spare ∧
        s'.arena.headerLow < bytes (used chunks) + 4000 + s'.arena.clearance := by
  have hresult : ((do
      let s ← Session.run .compacting scattered ⟨small, []⟩
      let (answer, s') ← Session.allocate .compacting 4000 s
      return (s.arena.headers.records.all (fun r => !r.state.isPinned),
        decide (s.arena.headers.capacity < Handle.limit), answer, s'.shortages) :
      Act _).result .release) = .ok (true, true, .error .outOfMemory, [4000, 4000]) := by
    decide +kernel
  obtain ⟨s, hrun, hresult⟩ := Act.of_result_bind_ok hresult
  obtain ⟨⟨answer, s'⟩, hrefused, hresult⟩ := Act.of_result_bind_ok hresult
  rw [Act.result_pure, Except.ok.injEq] at hresult
  simp only [Prod.mk.injEq, decide_eq_true_eq] at hresult
  obtain ⟨hall, hlimit, rfl, hshortages⟩ := hresult
  obtain ⟨deeds, hruns⟩ := Session.runs_of_run hrun
  obtain ⟨hends, -⟩ :=
    allocate_compacting_ends (establish_small .release) hruns 4000 s.shortages
  have hpin := unpinned_of_all hall
  obtain ⟨-, hused⟩ := hends.of_ok hrefused
  rcases hused rfl hpin hlimit with hnone | ⟨size, chunks, spare, hsize, hshape, hnear⟩
  · exact absurd hnone (by decide)
  · obtain rfl : 4000 = size := Option.some.inj hsize
    exact ⟨s, s', hrun, hpin, hlimit, hrefused, hshortages, chunks, spare, hshape, hnear⟩

end Arena

end CompactingArena
