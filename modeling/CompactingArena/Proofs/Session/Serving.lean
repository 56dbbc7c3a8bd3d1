import CompactingArena.Proofs.Session.Relocation
/-!
# What a request gets

Where shortages are refused, a single attempt decides over a request.  It is refused
exactly if no free chunk is large enough and a new one would come too near to the header
table, and then nothing but a count of refusals has changed.  Otherwise the chunk that is
handed out is a new one on top or the lower part of a free one, as the placement policy
prefers, and all other chunks are as before.

Both take it that the header table can name one more record.
-/

namespace CompactingArena

open Layout

namespace Session

open Arena

variable {build : Build} {chunks : List Chunk} {spare : List Handle} {s : Session}

/-- A request that is refused found no room, and otherwise the chunk handed out comes from
where the placement policy prefers. -/
theorem delivers_allocate_refusing (hsound : s.arena.Sound chunks spare) (requested : Nat) :
    Act.Delivers build (s.arena.counters.Crowded s.arena.region.size)
      (allocate .refusing requested s) fun
      | (.error _, s') => (∀ size, chunkSize? requested = some size → s.arena.Packed chunks size) ∧
          ∃ counters, s'.arena = { s.arena with counters }
      | (.ok h, s') => ∃ size chunks' spare' c, chunkSize? requested = some size ∧
          s'.arena.Sound chunks' spare' ∧ c.handle = h ∧
          s.arena.Source size s'.arena.memoryHigh chunks c chunks' ∧
          s.arena.Prefers chunks size h := by
  rw [allocate, request]
  cases hsize : chunkSize? requested with
  | none => exact .bind_yields (Act.yields_log _) (.of_pure ⟨by simp, _, rfl⟩)
  | some size =>
      obtain ⟨-, hleast, haligned⟩ := chunkSize?_eq_some hsize
      change Act.Delivers build _ (serveChunk .refusing 1 size s) _
      rw [serveChunk]
      apply Act.Delivers.bind
        ((hsound.tryAllocate hleast haligned).delivers fun _ _ hover => hover.1)
      rintro ⟨_ | h, b⟩ - hgot
      · obtain ⟨rfl, hpacked⟩ := hgot
        simp only [Handler.refusing, follow, pure_bind]
        apply Act.Delivers.bind ((hsound.refuseAllocation size).delivers fun _ _ hover => hover.1)
        rintro b - ⟨-, hsame, -⟩
        refine .of_pure ⟨fun size' hsize' => ?_, b.counters, hsame⟩
        rw [Option.some.injEq] at hsize'
        exact hsize' ▸ hpacked
      · obtain ⟨chunks', spare', c, hserved, rfl, hserves, hprefers⟩ := hgot
        -- the totals that overflow at last were not touched by the attempt
        apply Act.Delivers.bind ((hserved.concludeAllocation hserves.totals size).delivers
          fun _ _ hover => hserves.changed.size ▸ hover.1)
        rintro b' - ⟨hsound', hsame, -⟩
        have hhigh : b'.memoryHigh = b.memoryHigh := by rw [hsame]
        exact .of_pure
          ⟨size, chunks', spare', c, rfl, hsound', rfl, hhigh ▸ hserves.source, hprefers⟩

end Session

namespace Arena

variable {build : Build} {a b : Arena} {chunks chunks' : List Chunk} {spare spare' : List Handle}
  {c d : Chunk} {h : Handle} {deeds : List Deed} {config : Config}
  {available total size high requested : Nat} {shortages : List Nat} {s : Session}

/-- The size of the chunk that serves a request, unless rounding up overflows. -/
def roundedSize (requested : Nat) : Nat := max ((requested + 7) / 8 * 8) 16

theorem chunkSize?_eq_some_iff :
    chunkSize? requested = some size ↔
      requested + 7 < Word.modulus ∧ size = roundedSize requested := by
  have halign : Word.alignUp requested =
      if requested + 7 < Word.modulus then some ((requested + 7) / 8 * 8) else none := rfl
  rw [chunkSize?, halign, roundedSize]
  split <;> simp [Trailer.bytes, *, eq_comm]

/-- Some free chunk has at least `size` bytes. -/
def HasFree (a : Arena) (size : Nat) : Prop :=
  ∃ h record, a.headers.live? h = some record ∧ record.state = .free ∧ size ≤ record.size

theorem Laid.hasFree_iff (hlaid : a.Laid chunks spare) :
    a.HasFree size ↔ ∃ c ∈ frees chunks, size ≤ c.size := by
  constructor
  · rintro ⟨h, r, hr, hfree, hsize⟩
    obtain ⟨c, hc, -, -, hdesc⟩ := hlaid.live?_eq_some_iff.mp hr
    have hcfree : c.isFree = true := (ChunkState.isFree_iff _).mpr (hdesc.state ▸ hfree)
    exact ⟨c, mem_frees.mpr ⟨hc, hcfree⟩, hdesc.size ▸ hsize⟩
  · rintro ⟨c, hc, hsize⟩
    obtain ⟨hc, hcfree⟩ := mem_frees.mp hc
    obtain ⟨r, hget, hdesc⟩ := hlaid.chained.get hc
    have hfree : r.state = .free := hdesc.state.trans ((ChunkState.isFree_iff _).mp hcfree)
    exact ⟨c.handle, r, hlaid.live?_eq_some_iff.mpr ⟨c, hc, rfl, hget, hdesc⟩, hfree,
      hdesc.size ▸ hsize⟩

theorem Laid.not_hasFree_iff (hlaid : a.Laid chunks spare) :
    ¬a.HasFree size ↔ ∀ c ∈ frees chunks, c.size < size := by
  simp only [hlaid.hasFree_iff, not_exists, not_and, Nat.not_le]

/-- Where no free chunk is large enough, there is room for a new one. -/
theorem Source.room (hsource : a.Source size high chunks c chunks')
    (hsmall : ∀ d ∈ frees chunks, d.size < size) :
    a.memoryHigh + size + a.clearance ≤ a.headerLow := by
  cases hsource with
  | fresh h hroom => exact hroom
  | whole hfree hfits => exact absurd (hsmall _ (mem_frees.mpr ⟨by simp, hfree⟩)) (by omega)
  | part g hfree hfits => exact absurd (hsmall _ (mem_frees.mpr ⟨by simp, hfree⟩)) (by omega)

/-- The chunk that is handed out is in use and may move. -/
theorem Source.mem (hsource : a.Source size high chunks c chunks') :
    c ∈ chunks' ∧ c.state = .unlocked := by
  cases hsource with
  | fresh => exact ⟨List.mem_cons_self, rfl⟩
  | whole => exact ⟨by simp, rfl⟩
  | part => exact ⟨by simp, rfl⟩

/-- All other chunks are as before. -/
theorem Source.mem_of_ne (hsource : a.Source size high chunks c chunks') (hd : d ∈ chunks)
    (hne : d.handle ≠ c.handle) : d ∈ chunks' := by
  cases hsource with
  | fresh => exact List.mem_cons_of_mem _ hd
  | whole =>
      simp only [List.mem_append, List.mem_cons] at hd ⊢
      rcases hd with hd | rfl | hd
      · exact .inl hd
      · exact absurd rfl hne
      · exact .inr (.inr hd)
  | part =>
      simp only [List.mem_append, List.mem_cons] at hd ⊢
      rcases hd with hd | rfl | hd
      · exact .inl hd
      · exact absurd rfl hne
      · exact .inr (.inr (.inr hd))

/-- A request is refused exactly if it overflows, or if no free chunk is large enough and a
new one would come too near to the header table.  The arena is then as before, but for its
counters. -/
theorem refused_iff_of_allocate
    (hestablish : (establish config available total).result build = .ok (.ok a))
    (hruns : Runs build a deeds b) (hrecords : b.headers.capacity < Handle.limit)
    (requested : Nat) (shortages : List Nat) :
    Act.Delivers build (b.counters.Crowded b.region.size)
      (Session.allocate .refusing requested ⟨b, shortages⟩) fun (answer, s) =>
        (answer = .error .outOfMemory ↔ Word.modulus ≤ requested + 7 ∨
          ¬b.HasFree (roundedSize requested) ∧
            b.headerLow < b.memoryHigh + roundedSize requested + b.clearance) ∧
        (answer = .error .outOfMemory → ∃ counters, s.arena = { b with counters }) := by
  obtain ⟨chunks, spare, hsound⟩ := hruns.sound (sound_of_establish hestablish)
  rw [hsound.toLaid.not_hasFree_iff]
  apply (Session.delivers_allocate_refusing (s := ⟨b, shortages⟩) hsound requested).mono
  rintro ⟨⟨⟨⟩⟩ | h, s⟩ hpost
  · obtain ⟨hpacked, hsame⟩ := hpost
    refine ⟨⟨fun _ => ?_, fun _ => rfl⟩, fun _ => hsame⟩
    by_cases hoverflow : requested + 7 < Word.modulus
    · have hpacked := hpacked _ (chunkSize?_eq_some_iff.mpr ⟨hoverflow, rfl⟩)
      exact .inr ⟨hpacked.small, hpacked.near.resolve_right (Nat.ne_of_lt hrecords)⟩
    · exact .inl (Nat.le_of_not_lt hoverflow)
  · obtain ⟨size, chunks', spare', c, hsize, -, -, hsource, -⟩ := hpost
    obtain ⟨hfits, rfl⟩ := chunkSize?_eq_some_iff.mp hsize
    refine ⟨⟨fun hrefused => absurd hrefused (by simp), ?_⟩,
      fun hrefused => absurd hrefused (by simp)⟩
    rintro (hoverflow | ⟨hsmall, hnear⟩)
    · exact absurd hfits (Nat.not_lt.mpr hoverflow)
    · exact absurd (hsource.room hsmall) (Nat.not_le.mpr hnear)

/-- Calls operations on a new arena and then makes a request.  The answer comes with the
number of records before the request. -/
def serveAfter (ops : List Op) (requested : Nat) : Act (Nat × Except OutOfMemory Handle) := do
  let s ← Session.run .refusing ops ⟨small, []⟩
  let (answer, _) ← Session.allocate .refusing requested s
  return (s.arena.headers.capacity, answer)

theorem of_serveAfter {ops : List Op} {records : Nat} {answer : Except OutOfMemory Handle}
    (h : (serveAfter ops requested).result build = .ok (records, answer)) :
    ∃ s s', (Session.run .refusing ops ⟨small, []⟩).result build = .ok s ∧
      s.arena.headers.capacity = records ∧
      (Session.allocate .refusing requested s).result build = .ok (answer, s') := by
  obtain ⟨s, hrun, h⟩ := Act.of_result_bind_ok h
  obtain ⟨⟨got, s'⟩, hallocate, h⟩ := Act.of_result_bind_ok h
  rw [Act.result_pure, Except.ok.injEq, Prod.mk.injEq] at h
  obtain ⟨hrecords, rfl⟩ := h
  exact ⟨s, s', hrun, hrecords, hallocate⟩

/-- A free chunk that is too small, below one that leaves no room for another. -/
def crammed : List Op := [.allocate 48, .allocate 3872, .free (nth 0)]

theorem serveAfter_crammed :
    (serveAfter crammed 60).result .release = .ok (2, .error .outOfMemory) := by
  decide +kernel

theorem refused_iff_of_allocate_crammed :
    ∃ s s', (Session.run .refusing crammed ⟨small, []⟩).result .release = .ok s ∧
      (Session.allocate .refusing 60 s).result .release = .ok (.error .outOfMemory, s') ∧
      (¬s.arena.HasFree 64 ∧ s.arena.headerLow < s.arena.memoryHigh + 64 + s.arena.clearance) ∧
      ∃ counters, s'.arena = { s.arena with counters } := by
  obtain ⟨s, s', hrun, hcapacity, hallocate⟩ := of_serveAfter serveAfter_crammed
  obtain ⟨deeds, hruns⟩ := Session.runs_of_run hrun
  have hrecords : s.arena.headers.capacity < Handle.limit := by
    rw [hcapacity]
    decide
  obtain ⟨hwhy, hsame⟩ := (refused_iff_of_allocate (establish_small .release) hruns hrecords 60
    s.shortages).of_ok hallocate
  exact ⟨s, s', hrun, hallocate, (hwhy.mp rfl).resolve_left (by decide), hsame rfl⟩

/-! ## The chunk that is handed out -/

/-- The chunk of `h` is a new one of `size` bytes, on top of all others. -/
structure Bumps (a : Arena) (h : Handle) (size : Nat) (b : Arena) : Prop where
  unknown : a.headers.live? h = none
  offset : b.offset? h = some a.memoryHigh
  extent : b.size? h = some size
  high : b.memoryHigh = a.memoryHigh + size

/-- The chunk of `h`, of `whole` bytes, was free.  What `size` bytes leave of it is split off
as a free chunk, if that can hold a trailer and a record can be had for it. -/
structure Reuses (a : Arena) (h : Handle) (whole size : Nat) (b : Arena) : Prop where
  free : a.state? h = some .free
  extent : a.size? h = some whole
  fits : size ≤ whole
  offset : b.offset? h = a.offset? h
  high : b.memoryHigh = a.memoryHigh
  splits : 16 ≤ whole - size → a.OffersRecord → b.size? h = some size ∧
    ∃ g addr, a.headers.live? g = none ∧ a.offset? h = some addr ∧
      b.state? g = some .free ∧ b.offset? g = some (addr + size) ∧ b.size? g = some (whole - size)
  keeps : ¬(16 ≤ whole - size ∧ a.OffersRecord) → b.size? h = some whole

/-- What `b` differs in from `a`, where it has handed out the chunk of `h` for a request of
`size` bytes. -/
structure HandsOut (a : Arena) (h : Handle) (size : Nat) (b : Arena) : Prop where
  unused : a.inUse? h = none
  state : b.state? h = some .unlocked
  /-- All other chunks, whether free or in use, are as before. -/
  others : ∀ g record, g ≠ h → a.headers.live? g = some record →
    b.offset? g = some record.addr ∧ b.size? g = some record.size ∧ b.state? g = some record.state
  chunk : a.Bumps h size b ∧ (a.config.placement = .reuseFirst → ¬a.HasFree size) ∨
    (∃ whole, a.Reuses h whole size b) ∧ (a.config.placement = .bumpFirst →
      a.headerLow < a.memoryHigh + size + a.clearance)

section Source

variable (hsource : a.Source size b.memoryHigh chunks c chunks') (hlaid : a.Laid chunks spare)
  (hlaid' : b.Laid chunks' spare')
include hsource hlaid hlaid'

/-- Apart from the chunk that is handed out, all is where it was. -/
theorem Source.others {record : Record} (hne : h ≠ c.handle)
    (hlive : a.headers.live? h = some record) :
    b.offset? h = some record.addr ∧ b.size? h = some record.size ∧
      b.state? h = some record.state := by
  obtain ⟨d, hd, rfl, -, hdesc⟩ := hlaid.live?_eq_some_iff.mp hlive
  have hd' := hsource.mem_of_ne hd hne
  obtain ⟨hoffset, hsize⟩ := hlaid'.place?_eq hd'
  exact ⟨hdesc.addr ▸ hoffset, hdesc.size ▸ hsize, hdesc.state ▸ hlaid'.state?_eq hd'⟩

/-- The chunk that is handed out is a new one, or it was free. -/
theorem Source.bumps_or_reuses (hrecords : a.headers.capacity < Handle.limit) :
    c.handle ∉ handles chunks ∧ a.Bumps c.handle size b ∨
      c.handle ∈ handles chunks ∧ ∃ whole, a.Reuses c.handle whole size b := by
  obtain ⟨hmem, -⟩ := hsource.mem
  obtain ⟨hoffset, hsize⟩ := hlaid'.place?_eq hmem
  cases hsource with
  | fresh h hroom hhigh =>
      have hfresh : h ∉ handles chunks := (List.nodup_cons.mp hlaid'.nodup_handles).1
      exact .inl ⟨hfresh, hlaid.live?_eq_none_iff.mpr hfresh, hoffset, hsize, hhigh⟩
  | @whole before after d hfree hfits hkept hhigh =>
      have hd : d ∈ before ++ d :: after := by simp
      have hknown : d.handle ∈ handles (before ++ d :: after) := handle_mem hd
      obtain ⟨hoffset', hsize'⟩ := hlaid.place?_eq hd
      have hstate : d.state = .free := (ChunkState.isFree_iff _).mp hfree
      refine .inr ⟨hknown, d.size, hstate ▸ hlaid.state?_eq hd, hsize', hfits,
        hoffset.trans hoffset'.symm, hhigh, fun hleast hoffers => ?_, fun _ => hsize⟩
      rcases hkept with hsmall | hnone | hlimit
      · exact absurd hleast (Nat.not_le.mpr hsmall)
      · exact absurd hoffers hnone
      · exact absurd hlimit (Nat.ne_of_lt hrecords)
  | @part before after d g hfree hfits hsplit hhigh =>
      have hd : d ∈ before ++ d :: after := by simp
      have hknown : d.handle ∈ handles (before ++ d :: after) := handle_mem hd
      obtain ⟨hoffset', hsize'⟩ := hlaid.place?_eq hd
      have hstate : d.state = .free := (ChunkState.isFree_iff _).mp hfree
      have hrest : excess d size g ∈
          before ++ resized (d.inState .unlocked) size :: excess d size g :: after := by simp
      obtain ⟨hrestoffset, hrestsize⟩ := hlaid'.place?_eq hrest
      have hperm : (g :: handles (before ++ d.inState .unlocked :: after)).Perm
          (handles (before ++ resized (d.inState .unlocked) size :: excess d size g :: after)) :=
        handles_split g
      have hfresh : g ∉ handles (before ++ d :: after) := by
        simpa using (List.nodup_cons.mp (hperm.nodup_iff.mpr hlaid'.nodup_handles)).1
      exact .inr ⟨hknown, d.size, hstate ▸ hlaid.state?_eq hd, hsize', hfits,
        hoffset.trans hoffset'.symm, hhigh,
        fun _ _ => ⟨hsize, g, d.addr, hlaid.live?_eq_none_iff.mpr hfresh, hoffset',
          hlaid'.state?_eq hrest, hrestoffset, hrestsize⟩,
        fun hnot => absurd hsplit hnot⟩

end Source

/-- A request that is served gets a chunk that was not in use, either a new one on top or a
free one, in the order of the placement policy; the rest of a free one that can be a chunk
stays free, and no other chunk is touched. -/
theorem handsOut_of_allocate
    (hestablish : (establish config available total).result build = .ok (.ok a))
    (hruns : Runs build a deeds b) (hrecords : b.headers.capacity < Handle.limit)
    (requested : Nat) (shortages : List Nat) :
    Act.Delivers build (b.counters.Crowded b.region.size)
      (Session.allocate .refusing requested ⟨b, shortages⟩) fun (answer, s) =>
        ∀ h, answer = .ok h → b.HandsOut h (roundedSize requested) s.arena := by
  obtain ⟨chunks, spare, hsound⟩ := hruns.sound (sound_of_establish hestablish)
  apply (Session.delivers_allocate_refusing (s := ⟨b, shortages⟩) hsound requested).mono
  rintro ⟨_ | h, s⟩ hpost g hanswer
  · exact absurd hanswer (by simp)
  obtain rfl : h = g := Except.ok.inj hanswer
  obtain ⟨size, chunks', spare', c, hsize, hsound', rfl, hsource, hprefers⟩ := hpost
  obtain ⟨-, rfl⟩ := chunkSize?_eq_some_iff.mp hsize
  have hlaid := hsound.toLaid
  have hlaid' := hsound'.toLaid
  obtain ⟨hmem, hstate⟩ := hsource.mem
  refine ⟨hsource.inUse?_eq_none hlaid hlaid', hstate ▸ hlaid'.state?_eq hmem,
    fun g record hne => hsource.others hlaid hlaid' hne, ?_⟩
  rcases hsource.bumps_or_reuses hlaid hlaid' hrecords with
    ⟨hfresh, hbumps⟩ | ⟨hknown, hreuses⟩
  · exact .inl ⟨hbumps, fun hfirst => hlaid.not_hasFree_iff.mpr (hprefers.reuse hfirst hfresh)⟩
  · exact .inr ⟨hreuses, fun hfirst =>
      (hprefers.bump hfirst hknown).resolve_right (Nat.ne_of_lt hrecords)⟩

/-- A free chunk below one in use. -/
def reclaimable : List Op := [.allocate 48, .allocate 16, .free (nth 0)]

theorem serveAfter_reclaimable :
    (serveAfter reclaimable 20).result .release = .ok (2, .ok (nth 0)) := by
  decide +kernel

theorem handsOut_of_allocate_reclaimable :
    ∃ s s', (Session.run .refusing reclaimable ⟨small, []⟩).result .release = .ok s ∧
      (Session.allocate .refusing 20 s).result .release = .ok (.ok (nth 0), s') ∧
      s.arena.HandsOut (nth 0) 24 s'.arena := by
  obtain ⟨s, s', hrun, hcapacity, hallocate⟩ := of_serveAfter serveAfter_reclaimable
  obtain ⟨deeds, hruns⟩ := Session.runs_of_run hrun
  have hrecords : s.arena.headers.capacity < Handle.limit := by
    rw [hcapacity]
    decide
  exact ⟨s, s', hrun, hallocate, (handsOut_of_allocate (establish_small .release) hruns hrecords 20
    s.shortages).of_ok hallocate (nth 0) rfl⟩

end Arena

end CompactingArena
