import CompactingArena.Proofs.Arena.Establishing
import CompactingArena.Proofs.Session.Operations
/-!
# The shape of arenas

`Arena.Shape` spells out what a client, a debugger or an audit may rely on
between any two operations: where the chunks lie, which records are recycled and
what the free lists hold.  Every arena has it, whatever was done to it since it
was established.
-/

namespace CompactingArena

open Layout

/-- The handles that a walk along a free list collects. -/
theorem SizeClasses.filed_eq {c : SizeClasses} {t : HeaderTable} {region : Region} {l : List Chunk}
    {link : Option Handle} {k : Nat} (hlink : c.heads[k]? = some link)
    (hthreads : region.Threads link l none) (hsize : region.size ≤ Word.max)
    (hplaces : ∀ d ∈ l, t.Places region d) (hlength : l.length ≤ t.capacity) :
    c.filed t region k = pure (handles l, .ok ()) := by
  rw [filed, walk, head_eq hlink, pure_bind,
    walkFrom_eq hthreads hsize hplaces (fun seen d => d.handle :: seen) (fun _ _ _ => rfl) hlength,
    pure_bind, List.foldl_flip_cons_eq_append, List.append_nil]
  simp only [List.reverse_reverse]
  rfl

namespace Arena

/-- What the header table says of an arena: the header chain visits the records of
`chunks`, and the free-record chain those of `spare`. -/
structure Slab (a : Arena) (chunks : List Chunk) (spare : List Handle) : Prop where
  chain : a.headers.Lists a.headers.chain chunks none
  live : ∀ c ∈ chunks, ∃ r, a.headers.live? c.handle = some r ∧ r.Describes c
  distinct : (handles chunks).Nodup
  tiles : ∃ sorted, sorted.Perm chunks ∧ Tiles 0 sorted a.memoryHigh
  aligned : ∀ c ∈ chunks, c.addr % Word.alignment = 0 ∧ c.size % Word.alignment = 0
  least : ∀ c ∈ chunks, Trailer.bytes ≤ c.size
  below : a.memoryHigh ≤ a.headerLow
  table : a.headerLow + a.headers.footprint = a.region.size
  freeRecords : a.headers.freeRecordList = spare
  unused : ∀ h ∈ spare, ∃ r, a.headers.get? h = some r ∧ r.isUnused = true
  once : spare.Nodup
  /-- Every record is on one of the two chains, and none is on both. -/
  records : ∀ h, h.index < a.headers.capacity ↔ h ∈ handles chunks ∨ h ∈ spare
  apart : ∀ h ∈ handles chunks, h ∉ spare
  named : a.headers.capacity ≤ Handle.limit
  highest : a.Topped chunks

/-- What is where in an arena: beside what the header table says, the free lists hold the
free chunks, and the counters count those in use. -/
structure Shape (a : Arena) (chunks : List Chunk) (spare : List Handle) : Prop
    extends Slab a chunks spare where
  /-- Each class holds the free chunks of its sizes and no others. -/
  filed : ∀ k < a.classes.count, ∃ l, a.classes.filed a.headers a.region k = pure (l, .ok ()) ∧
    l.Perm (handles ((frees chunks).filter fun c => c.size.log2 = k))
  classes : ∀ c ∈ frees chunks, c.size.log2 < a.classes.count
  trailers : ∀ c ∈ frees chunks, (a.region.trailer c.acme).owner = Handle.toWord (some c.handle)
  accounts : Accounts a.counters chunks

variable {a b : Arena} {chunks : List Chunk} {spare : List Handle} {build : Build}
  {config : Config} {available size : Nat}

theorem Laid.slab (hlaid : a.Laid chunks spare) (htopped : a.Topped chunks) :
    a.Slab chunks spare := by
  refine
    { chain := hlaid.chained
      live := fun c hc => ?_
      distinct := hlaid.nodup_handles
      tiles := hlaid.fills
      aligned := fun c hc => ⟨?_, (hlaid.sized c hc).2⟩
      least := fun c hc => (hlaid.sized c hc).1
      below := hlaid.memoryHigh_le_low
      table := ?_
      freeRecords := hlaid.kept.freeRecordList
      unused := fun h hh => hlaid.kept.recycled.unused hh
      once := hlaid.kept.nodup_spare
      records := fun h => hlaid.kept.mem_iff.symm.trans List.mem_append
      apart := fun h hh => hlaid.kept.not_mem_spare hh
      named := hlaid.kept.capacity_le
      highest := htopped }
  · obtain ⟨r, hget, hdesc⟩ := hlaid.chained.get hc
    exact ⟨r, hlaid.live?_eq_some_iff.mpr ⟨c, hc, rfl, hget, hdesc⟩, hdesc⟩
  · obtain ⟨sorted, hperm, htiles⟩ := hlaid.fills
    exact htiles.aligned (fun d hd => hlaid.sized d (hperm.mem_iff.mp hd)) rfl c
      (hperm.mem_iff.mpr hc)
  · have hroom := hlaid.room
    rw [hlaid.low_eq]
    omega

theorem Sound.shape (hsound : a.Sound chunks spare) : a.Shape chunks spare := by
  obtain ⟨filed, hfiles, hexact⟩ := hsound.covers.filed
  have hlog : ∀ c ∈ frees chunks, c.size.log2 < a.classes.count := fun c hc =>
    hsound.covers.log2_lt (hsound.places (mem_frees.mp hc).1)
  refine
    { toSlab := hsound.toLaid.slab hsound.topped
      filed := fun k hk => ?_
      classes := hlog
      trailers := fun c hc => ?_
      accounts := hsound.accounts }
  · obtain ⟨link, hlink, hthreads⟩ := hfiles.threads k hk
    have hplaces : ∀ c ∈ filed k, a.headers.Places a.region c := fun c hc =>
      hsound.places (mem_frees.mp (hexact.mem_iff.mp hc).1).1
    exact ⟨handles (filed k),
      SizeClasses.filed_eq hlink hthreads hsound.size_le_max hplaces
        (hsound.length_filed_le hexact k), (hexact k).map _⟩
  · obtain ⟨link, hlink, hthreads⟩ := hfiles.threads c.size.log2 (hlog c hc)
    exact hthreads.owner (hexact.mem_iff.mpr ⟨hc, rfl⟩)

/-- A history leads from sound arenas to sound arenas. -/
theorem Runs.sound {deeds : List Deed} (hruns : Runs build a deeds b)
    (hsound : a.Sound chunks spare) : ∃ chunks' spare', b.Sound chunks' spare' := by
  induction hruns generalizing chunks spare with
  | nil => exact ⟨chunks, spare, hsound⟩
  | cons hdeed _ ih =>
      obtain ⟨chunks', spare', hsound', -⟩ := hsound.leads hdeed
      exact ih hsound'

/-- An arena has its shape at every moment of every history, and in particular
whenever an operation of a session has ended, whatever the handler of shortages
does meanwhile. -/
theorem shape_of_runs
    (hestablish : (establish config available size).result build = .ok (.ok a)) :
    (∀ deeds b, Runs build a deeds b → ∃ chunks spare, b.Shape chunks spare) ∧
      ∀ handler ops s, (Session.run handler ops ⟨a, []⟩).result build = .ok s →
        ∃ deeds, Runs build a deeds s.arena := by
  refine ⟨fun deeds b hruns => ?_, fun handler ops s hrun => Session.runs_of_run hrun⟩
  obtain ⟨chunks, spare, hsound⟩ := hruns.sound (sound_of_establish hestablish)
  exact ⟨chunks, spare, hsound.shape⟩

/-- A session of a little of everything. -/
def sampler : List Op :=
  [.allocate 16, .allocate 24, .free (nth 0), .lock (nth 1), .allocate 5000,
    .compact 0 .still]

theorem shape_of_sampler :
    ∃ s, (Session.run .compacting sampler ⟨small, []⟩).result .release = .ok s ∧
      ∃ chunks spare, s.arena.Shape chunks spare := by
  have hok : ((Session.run .compacting sampler ⟨small, []⟩).result .release).isOk = true := by
    decide +kernel
  obtain ⟨s, hrun⟩ := Act.exists_of_isOk hok
  obtain ⟨hshape, hsession⟩ := shape_of_runs (establish_small .release)
  obtain ⟨deeds, hruns⟩ := hsession .compacting sampler s hrun
  exact ⟨s, hrun, hshape deeds s.arena hruns⟩

end Arena

end CompactingArena
