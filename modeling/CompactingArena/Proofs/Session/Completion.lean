import CompactingArena.Proofs.Session.Shape
/-!
# Completed compactions

A compaction that is complete leaves no free chunk but below a pinned one.  That
is not to say that nothing is left to do: the search never goes back to a free
chunk that it has passed, even if a chunk that fits is moved next to the pinned
ones above it.  The next compaction is idle exactly if there is no such chunk.
-/

namespace CompactingArena

open Layout

namespace Layout

variable {l : List Chunk} {base top : Nat} {f c : Chunk}

/-- Between a free chunk and one above it that may move lies a pinned one. -/
theorem Settled.exists_between (hsettled : Settled l) (htiles : Tiles base l top)
    (hpos : ∀ d ∈ l, 0 < d.size) (hf : f ∈ l) (hfree : f.isFree = true) (hc : c ∈ l)
    (hunlocked : c.state = .unlocked) (habove : f.addr < c.addr) :
    ∃ p ∈ l, p.state.isPinned = true ∧ f.addr < p.addr ∧ p.addr < c.addr := by
  obtain ⟨before, after, rfl⟩ := List.append_of_mem hf
  obtain ⟨p, hp, hpinned⟩ := hsettled before f after rfl hfree
  obtain ⟨rest, rfl⟩ : ∃ rest, after = p :: rest := List.head?_eq_some_iff.mp hp
  have hpairs := htiles.pairwise
  rw [List.pairwise_append, List.pairwise_cons, List.pairwise_cons] at hpairs
  obtain ⟨-, ⟨hfp, hprest, -⟩, hbefore⟩ := hpairs
  have hfpos := hpos f (by simp)
  have hppos := hpos p (by simp)
  have hlow : f.addr < p.addr := by
    have hle := hfp p (by simp)
    unfold Chunk.acme at hle
    omega
  refine ⟨p, by simp, hpinned, hlow, ?_⟩
  rcases List.mem_append.mp hc with hc | hc
  · have hle := hbefore c hc f (by simp)
    unfold Chunk.acme at hle
    omega
  · rcases List.mem_cons.mp hc with rfl | hc
    · exact absurd habove (Nat.lt_irrefl _)
    · rcases List.mem_cons.mp hc with rfl | hc
      · rw [hunlocked] at hpinned
        exact absurd hpinned (by decide)
      · have hle := hprest c hc
        unfold Chunk.acme at hle
        omega

theorem Settled.frees_eq_nil (hsettled : Settled l) (hpin : ∀ c ∈ l, c.state.isPinned = false) :
    frees l = [] := by
  rw [List.eq_nil_iff_forall_not_mem]
  intro f hf
  obtain ⟨hf, hfree⟩ := mem_frees.mp hf
  obtain ⟨before, after, rfl⟩ := List.append_of_mem hf
  obtain ⟨p, hp, hpinned⟩ := hsettled before f after rfl hfree
  rw [hpin p (by simp [List.mem_of_mem_head? hp])] at hpinned
  exact absurd hpinned (by decide)

theorem used_eq_self (h : frees l = []) : used l = l := by
  apply List.filter_eq_self.mpr
  intro c hc
  rw [Bool.not_eq_true', ← Bool.not_eq_true]
  intro hfree
  exact List.not_mem_nil (h ▸ mem_frees.mpr ⟨hc, hfree⟩)

end Layout

namespace Arena

variable {a b b' : Arena} {chunks : List Chunk} {spare : List Handle} {c : Chunk} {h : Handle}
  {deeds : List Deed} {build : Build} {config : Config} {available size budget : Nat}
  {clock : Readings} {report : CompactionReport}

/-- Calls operations on a new arena, and then compacts it twice. -/
def compactTwice (ops : List Op) : Act (CompactionReport × CompactionReport) := do
  let s ← Session.run .refusing ops ⟨small, []⟩
  let (report, a) ← s.arena.compact 0 .still
  let (report', _) ← a.compact 0 .still
  return (report, report')

theorem of_compactTwice {ops : List Op} {report report' : CompactionReport}
    (h : (compactTwice ops).result build = .ok (report, report')) :
    ∃ s a a', (Session.run .refusing ops ⟨small, []⟩).result build = .ok s ∧
      (s.arena.compact 0 .still).result build = .ok (report, a) ∧
      (a.compact 0 .still).result build = .ok (report', a') := by
  obtain ⟨s, hrun, h⟩ := Act.of_result_bind_ok h
  obtain ⟨⟨first, a⟩, hfirst, h⟩ := Act.of_result_bind_ok h
  obtain ⟨⟨second, a'⟩, hsecond, h⟩ := Act.of_result_bind_ok h
  rw [Act.result_pure, Except.ok.injEq, Prod.mk.injEq] at h
  obtain ⟨rfl, rfl⟩ := h
  exact ⟨s, a, a', hrun, hfirst, hsecond⟩

/-- A free chunk that is passed before a chunk that fits into it gets near. -/
def passedBy : List Op :=
  [.allocate 16, .allocate 16, .allocate 16, .allocate 32, .allocate 16,
    .free (nth 0), .free (nth 2), .lock (nth 1)]

theorem compactTwice_passedBy : (compactTwice passedBy).result .release =
    .ok (⟨1, 48, 16, true⟩, ⟨1, 16, 16, true⟩) := by
  decide +kernel

/-! ## Settled layouts -/

/-- After a completed compaction every free chunk is followed by a pinned one.
Hence no free chunk lies below one that may move unless a pinned one lies between
the two, and if no chunk is pinned, the chunks in use are all there is. -/
theorem settled_of_compact
    (hestablish : (establish config available size).result build = .ok (.ok a))
    (hruns : Runs build a deeds b)
    (hcompact : (b.compact budget clock).result build = .ok (report, b'))
    (hcompleted : report.completed = true) :
    ∃ chunks, b'.headers.Lists b'.headers.chain chunks none ∧ Tiles 0 chunks b'.memoryHigh ∧
      (∀ before f after, chunks = before ++ f :: after → f.state = .free →
        ∃ p rest, after = p :: rest ∧ p.state.isPinned = true) ∧
      (∀ f ∈ chunks, ∀ c ∈ chunks, f.state = .free → c.state = .unlocked → f.addr < c.addr →
        ∃ p ∈ chunks, p.state.isPinned = true ∧ f.addr < p.addr ∧ p.addr < c.addr) ∧
      ((∀ c ∈ chunks, c.state.isPinned = false) →
        frees chunks = [] ∧ b'.memoryHigh = bytes (used chunks)) := by
  obtain ⟨chunks, spare, hsound⟩ := hruns.sound (sound_of_establish hestablish)
  obtain ⟨chunks', spare', hcompaction⟩ := (hsound.compact budget clock).of_ok hcompact
  have hsettled := hcompaction.settled hcompleted
  have hpos : ∀ c ∈ chunks', 0 < c.size := fun c hc => (hcompaction.sound.sized c hc).pos
  refine ⟨chunks', hcompaction.sound.chained, hcompaction.tiles, fun before f after heq hfree => ?_,
    fun f hf c hc hfree hunlocked habove => ?_, fun hpin => ?_⟩
  · obtain ⟨p, hp, hpinned⟩ := hsettled before f after heq (f.isFree_iff.mpr hfree)
    obtain ⟨rest, hafter⟩ := List.head?_eq_some_iff.mp hp
    exact ⟨p, rest, hafter, hpinned⟩
  · exact hsettled.exists_between hcompaction.tiles hpos hf (f.isFree_iff.mpr hfree) hc hunlocked
      habove
  · have hnone := hsettled.frees_eq_nil hpin
    refine ⟨hnone, ?_⟩
    rw [used_eq_self hnone, hcompaction.tiles.top_eq, Nat.zero_add]

theorem settled_of_compact_passedBy :
    ∃ s report a chunks, (Session.run .refusing passedBy ⟨small, []⟩).result .release = .ok s ∧
      (s.arena.compact 0 .still).result .release = .ok (report, a) ∧ report.completed = true ∧
      Tiles 0 chunks a.memoryHigh ∧ ∀ before f after, chunks = before ++ f :: after →
        f.state = .free → ∃ p rest, after = p :: rest ∧ p.state.isPinned = true := by
  obtain ⟨s, a, -, hrun, hcompact, -⟩ := of_compactTwice compactTwice_passedBy
  obtain ⟨deeds, hruns⟩ := Session.runs_of_run hrun
  obtain ⟨chunks, -, htiles, hsettled, -⟩ :=
    settled_of_compact (establish_small .release) hruns hcompact rfl
  exact ⟨s, _, a, chunks, hrun, hcompact, rfl, htiles, hsettled⟩

/-! ## Another compaction -/

/-- A compaction that does nothing. -/
structure Idle (a : Arena) (report : CompactionReport) (a' : Arena) : Prop where
  passes : report.passes = 0
  bytesMoved : report.bytesMoved = 0
  reclaimed : report.reclaimed = 0
  high : a'.memoryHigh = a.memoryHigh
  places : ∀ h, (a.inUse? h).isSome = true → a'.offset? h = a.offset? h ∧ a'.size? h = a.size? h

theorem Laid.place?_eq (hlaid : a.Laid chunks spare) (hc : c ∈ chunks) :
    a.offset? c.handle = some c.addr ∧ a.size? c.handle = some c.size := by
  obtain ⟨r, hget, hdesc⟩ := hlaid.chained.get hc
  have hlive := hlaid.live?_eq_some_iff.mpr ⟨c, hc, rfl, hget, hdesc⟩
  rw [offset?, size?, hlive, Option.map_some, Option.map_some, hdesc.addr, hdesc.size]
  exact ⟨rfl, rfl⟩

theorem Laid.state?_eq (hlaid : a.Laid chunks spare) (hc : c ∈ chunks) :
    a.state? c.handle = some c.state := by
  obtain ⟨r, hget, hdesc⟩ := hlaid.chained.get hc
  have hlive := hlaid.live?_eq_some_iff.mpr ⟨c, hc, rfl, hget, hdesc⟩
  rw [state?, hlive, Option.map_some, hdesc.state]

/-- A compaction without passes leaves a settled layout as it is. -/
theorem Compaction.idle_of_passes {spare' chunks' : List _} {b' : Arena}
    (hcompaction : Compaction b chunks 0 clock report b' chunks' spare')
    (hsound : b.Sound chunks spare)
    (htiles : Tiles 0 chunks b.memoryHigh) (hsettled : Settled chunks)
    (hpasses : report.passes = 0) :
    b.Idle report b' := by
  obtain ⟨hmoved, hchunks, -⟩ := hcompaction.idle htiles hpasses
  have hpos : ∀ c ∈ chunks, 0 < c.size := fun c hc => (hsound.sized c hc).pos
  rw [hsettled.merged, hsettled.trimmed htiles hpos] at hchunks
  subst hchunks
  have hhigh : b'.memoryHigh = b.memoryHigh := by
    rw [hcompaction.tiles.top_eq, htiles.top_eq]
  refine ⟨hpasses, hmoved, ?_, hhigh, fun h hh => ?_⟩
  · rw [hcompaction.reclaimed, hhigh, Nat.sub_self]
  · obtain ⟨r, hr⟩ := Option.isSome_iff_exists.mp hh
    obtain ⟨c, hc, rfl, -⟩ := hsound.toLaid.inUse?_eq_some_iff.mp hr
    obtain ⟨hoffset, hsize⟩ := hsound.toLaid.place?_eq (mem_used.mp hc).1
    obtain ⟨hoffset', hsize'⟩ := hcompaction.sound.toLaid.place?_eq (mem_used.mp hc).1
    exact ⟨hoffset'.trans hoffset.symm, hsize'.trans hsize.symm⟩

/-- After a completed compaction another one is idle exactly if no chunk that may
move fits into a free chunk below it, unless another free chunk lies between. -/
theorem idle_iff_stuck_of_compact
    (hestablish : (establish config available size).result build = .ok (.ok a))
    (hruns : Runs build a deeds b)
    (hcompact : (b.compact budget clock).result build = .ok (report, b'))
    (hcompleted : report.completed = true) :
    ∃ chunks, b'.headers.Lists b'.headers.chain chunks none ∧ Tiles 0 chunks b'.memoryHigh ∧
      ∀ clock', Act.Delivers build (b'.counters.Crowded b'.region.size) (b'.compact 0 clock')
        fun (report', b'') => b'.Idle report' b'' ↔ Stuck chunks := by
  obtain ⟨chunks, spare, hsound⟩ := hruns.sound (sound_of_establish hestablish)
  obtain ⟨chunks', spare', hcompaction⟩ := (hsound.compact budget clock).of_ok hcompact
  have hsettled := hcompaction.settled hcompleted
  refine ⟨chunks', hcompaction.sound.chained, hcompaction.tiles, fun clock' => ?_⟩
  apply (hcompaction.sound.compact 0 clock').mono
  rintro ⟨report', b''⟩ ⟨chunks'', spare'', hagain⟩
  constructor
  · intro hidle
    obtain ⟨-, -, hstuck⟩ := hagain.idle hcompaction.tiles hidle.passes
    exact hstuck (hagain.untimed rfl)
  · intro hstuck
    exact hagain.idle_of_passes hcompaction.sound hcompaction.tiles hsettled
      (hagain.still hcompaction.tiles hsettled hstuck)

/-- Where a chunk was passed by, a completed compaction leaves one that fits. -/
theorem not_stuck_of_compact_passedBy :
    ∃ s report a chunks, (Session.run .refusing passedBy ⟨small, []⟩).result .release = .ok s ∧
      (s.arena.compact 0 .still).result .release = .ok (report, a) ∧ report.completed = true ∧
      a.headers.Lists a.headers.chain chunks none ∧ ¬Stuck chunks := by
  obtain ⟨s, a, a', hrun, hcompact, hagain⟩ := of_compactTwice compactTwice_passedBy
  obtain ⟨deeds, hruns⟩ := Session.runs_of_run hrun
  obtain ⟨chunks, hlists, -, hidle⟩ :=
    idle_iff_stuck_of_compact (establish_small .release) hruns hcompact rfl
  refine ⟨s, _, a, chunks, hrun, hcompact, rfl, hlists, fun hstuck => ?_⟩
  have hpasses := (((hidle .still).of_ok hagain).mpr hstuck).passes
  exact absurd hpasses (by decide)

/-- A compaction that is complete, and yet the next one is not idle. -/
theorem compact_not_idempotent :
    ∃ s report a report' a', (establish {} 4096 4096).result .release = .ok (.ok small) ∧
      (Session.run .refusing passedBy ⟨small, []⟩).result .release = .ok s ∧
      (s.arena.compact 0 .still).result .release = .ok (report, a) ∧ report.completed = true ∧
      (a.compact 0 .still).result .release = .ok (report', a') ∧
      report'.passes = 1 ∧ report'.bytesMoved = 16 ∧ report'.reclaimed = 16 := by
  obtain ⟨s, a, a', hrun, hcompact, hagain⟩ := of_compactTwice compactTwice_passedBy
  exact ⟨s, _, a, _, a', establish_small .release, hrun, hcompact, rfl, hagain, rfl, rfl, rfl⟩

end Arena

end CompactingArena
