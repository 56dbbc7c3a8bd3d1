import CompactingArena.Proofs.Session.Completion
import CompactingArena.Proofs.Session.Contents
/-!
# What a compaction may change

To the clients of an arena a compaction is invisible, but for the places of the
chunks that they have not pinned.  It may be cut short at any moment, by a clock
that runs in any way, and still no handle is lost, no pinned chunk moves, and no
chunk moves up, shrinks or loses a byte.
-/

namespace CompactingArena.Arena

open Layout

/-- What the clients of `a` may rely on once it has become `a'` by a compaction. -/
structure Relocates (build : Build) (a : Arena) (report : CompactionReport) (a' : Arena) :
    Prop where
  inUse : ∀ h, (a'.inUse? h).isSome = (a.inUse? h).isSome
  state : ∀ h r, a.inUse? h = some r → a'.state? h = some r.state
  pinned : ∀ h r, a.inUse? h = some r → r.state.isPinned = true →
    a'.offset? h = some r.addr ∧ a'.size? h = some r.size
  unlocked : ∀ h r, a.inUse? h = some r → r.state = .unlocked →
    ∃ addr ≤ r.addr, ∃ size ≥ r.size, a'.offset? h = some addr ∧ a'.size? h = some size
  contents : ∀ h r, a.inUse? h = some r → ∃ x y, (a.chunk h).result build = .ok (some x) ∧
    (a'.chunk h).result build = .ok (some y) ∧ x.size = r.size ∧ ∀ i < r.size, y[i]? = x[i]?
  high : a'.memoryHigh ≤ a.memoryHigh
  reclaimed : report.reclaimed = a.memoryHigh - a'.memoryHigh

variable {a b : Arena} {chunks chunks' : List Chunk} {spare spare' : List Handle} {h : Handle}
  {deeds : List Deed} {build : Build} {config : Config} {available size budget : Nat}
  {clock : Readings} {report : CompactionReport}

theorem Laid.isSome_inUse?_iff (hlaid : a.Laid chunks spare) :
    (a.inUse? h).isSome = true ↔ h ∈ handles (used chunks) := by
  rw [Option.isSome_iff_exists, mem_handles]
  constructor
  · rintro ⟨r, hr⟩
    obtain ⟨c, hc, hhandle, -⟩ := hlaid.inUse?_eq_some_iff.mp hr
    exact ⟨c, hc, hhandle⟩
  · rintro ⟨c, hc, rfl⟩
    obtain ⟨r, hget, hdesc⟩ := hlaid.chained.get (mem_used.mp hc).1
    exact ⟨r, hlaid.inUse?_eq_some_iff.mpr ⟨c, hc, rfl, hget, hdesc⟩⟩

/-- The chunks in use before a compaction, and what has become of them. -/
theorem Compaction.exists_becomes {b : Arena}
    (hcompaction : Compaction a chunks budget clock report b chunks' spare')
    (hsound : a.Sound chunks spare) {r : Record} (hr : a.inUse? h = some r) :
    ∃ c ∈ used chunks, c.handle = h ∧ r.Describes c ∧
      ∃ c' ∈ used chunks', c'.handle = h ∧ c.Becomes a.region b.region c' := by
  obtain ⟨c, hc, rfl, -, hdesc⟩ := hsound.toLaid.inUse?_eq_some_iff.mp hr
  obtain ⟨c', hc', hbecomes⟩ := hcompaction.carries.becomes c hc
  exact ⟨c, hc, rfl, hdesc, c', hc', hbecomes.handle, hbecomes⟩

/-- A compaction that ends, whenever it does, leaves to the clients what they
rely on. -/
theorem Compaction.relocates {b : Arena}
    (hcompaction : Compaction a chunks budget clock report b chunks' spare')
    (hsound : a.Sound chunks spare) : a.Relocates build report b := by
  have hsound' := hcompaction.sound
  refine ⟨fun h => ?_, fun h r hr => ?_, fun h r hr hpinned => ?_, fun h r hr hunlocked => ?_,
    fun h r hr => ?_, hcompaction.high, hcompaction.reclaimed⟩
  · rw [Bool.eq_iff_iff, hsound'.toLaid.isSome_inUse?_iff, hsound.toLaid.isSome_inUse?_iff]
    exact hcompaction.carries.perm.mem_iff
  · obtain ⟨c, -, -, hdesc, c', hc', rfl, hbecomes⟩ := hcompaction.exists_becomes hsound hr
    rw [hsound'.toLaid.state?_eq (mem_used.mp hc').1, hbecomes.state, hdesc.state]
  · obtain ⟨c, -, -, hdesc, c', hc', rfl, hbecomes⟩ := hcompaction.exists_becomes hsound hr
    obtain ⟨hoffset, hsize⟩ := hsound'.toLaid.place?_eq (mem_used.mp hc').1
    obtain ⟨haddr, hsame⟩ := hbecomes.pinned (hdesc.state ▸ hpinned)
    rw [hoffset, hsize, haddr, hsame, hdesc.addr, hdesc.size]
    exact ⟨rfl, rfl⟩
  · obtain ⟨c, -, -, hdesc, c', hc', rfl, hbecomes⟩ := hcompaction.exists_becomes hsound hr
    obtain ⟨hoffset, hsize⟩ := hsound'.toLaid.place?_eq (mem_used.mp hc').1
    exact ⟨c'.addr, hdesc.addr ▸ hbecomes.addr, c'.size, hdesc.size ▸ hbecomes.size, hoffset, hsize⟩
  · obtain ⟨c, hc, hhandle, hdesc, c', hc', rfl, hbecomes⟩ := hcompaction.exists_becomes hsound hr
    refine ⟨_, _, hhandle ▸ hsound.toLaid.chunk_eq hc, hsound'.toLaid.chunk_eq hc', ?_, ?_⟩
    · rw [Region.size_view, hdesc.size]
    · intro i hi
      rw [hdesc.size] at hi
      rw [Region.getElem?_view _ _ _ _ hi,
        Region.getElem?_view _ _ _ _ (Nat.lt_of_lt_of_le hi hbecomes.size), hbecomes.byte i hi]

/-- Whatever its time and the clock are, a compaction keeps the handles in use,
their states and their bytes.  Pinned chunks stay exactly where they are; the
others never move up and never shrink. -/
theorem relocates_of_compact
    (hestablish : (establish config available size).result build = .ok (.ok a))
    (hruns : Runs build a deeds b) (budget : Nat) (clock : Readings) :
    Act.Delivers build (b.counters.Crowded b.region.size) (b.compact budget clock)
      fun (report, b') => b.Relocates build report b' := by
  obtain ⟨chunks, spare, hsound⟩ := hruns.sound (sound_of_establish hestablish)
  apply (hsound.compact budget clock).mono
  rintro ⟨report, b'⟩ ⟨chunks', spare', hcompaction⟩
  exact hcompaction.relocates hsound

/-- A chunk moves below a pinned one, which stays. -/
theorem relocates_of_compact_passedBy :
    ∃ s report a, (Session.run .refusing passedBy ⟨small, []⟩).result .release = .ok s ∧
      (s.arena.compact 0 .still).result .release = .ok (report, a) ∧
      s.arena.Relocates .release report a := by
  obtain ⟨s, a, -, hrun, hcompact, -⟩ := of_compactTwice compactTwice_passedBy
  obtain ⟨deeds, hruns⟩ := Session.runs_of_run hrun
  exact ⟨s, _, a, hrun, hcompact,
    (relocates_of_compact (establish_small .release) hruns 0 .still).of_ok hcompact⟩

end CompactingArena.Arena
