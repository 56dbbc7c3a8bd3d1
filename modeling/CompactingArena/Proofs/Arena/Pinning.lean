import CompactingArena.Arena.Contents
import CompactingArena.Arena.Pinning
import CompactingArena.Proofs.Arena.Invariant
/-!
# Pinning and writing keep the layout

Pinning and unpinning change the state of one chunk in use, and writing changes
bytes of one.
-/

namespace CompactingArena.Arena

open Layout

variable {a : Arena} {chunks before after : List Chunk} {spare : List Handle} {c : Chunk}
  {h : Handle} {r : Record}

/-- The chunk of a handle in use, in its place on the chain. -/
theorem Laid.exists_split (hlaid : a.Laid chunks spare) (hr : a.inUse? h = some r) :
    ∃ before c after, chunks = before ++ c :: after ∧ c.handle = h ∧ c.isFree = false ∧
      a.headers.get? c.handle = some r ∧ r.Describes c := by
  obtain ⟨c, hc, rfl, hget, hdesc⟩ := hlaid.inUse?_eq_some_iff.mp hr
  obtain ⟨hc, hused⟩ := mem_used.mp hc
  obtain ⟨before, after, rfl⟩ := List.append_of_mem hc
  exact ⟨before, c, after, rfl, rfl, hused, hget, hdesc⟩

theorem Accounts.inState {counters : Counters} {state : ChunkState}
    (haccounts : Accounts counters (before ++ c :: after)) (hc : c.isFree = false)
    (hstate : state.isFree = false) : Accounts counters (before ++ c.inState state :: after) := by
  obtain ⟨hcount, hbytes⟩ := haccounts
  constructor
  · simpa [used_cons, hc, hstate] using hcount
  · simpa [used_cons, hc, hstate] using hbytes

/-- A chunk in use gets another state of use. -/
theorem Sound.setState (hsound : a.Sound (before ++ c :: after) spare) (hc : c.isFree = false)
    {state : ChunkState} (hstate : state.isFree = false) :
    ∃ a', a.setState c.handle state = pure a' ∧
      a'.Sound (before ++ c.inState state :: after) spare ∧ a'.region = a.region ∧
      a'.config = a.config ∧ a'.counters = a.counters := by
  obtain ⟨r, hget, hdesc⟩ := hsound.chained.get (show c ∈ before ++ c :: after by simp)
  refine ⟨{ a with headers := a.headers.set c.handle { r with state } }, ?_,
    ⟨⟨?_, ?_, ?_, hsound.tight.congr (HeaderTable.capacity_set _ _ _)⟩, ?_⟩, rfl, rfl, rfl⟩
  · rw [Arena.setState, HeaderTable.update_eq hget, pure_bind]
  · exact hsound.toLaid.replace hget rfl rfl rfl
      (show Record.Describes { r with state } (c.inState state) from
        ⟨hdesc.addr, hdesc.size, rfl⟩) rfl rfl rfl rfl
  · exact hsound.topped.replace rfl rfl rfl rfl
  · have hfree : frees (before ++ c.inState state :: after) = frees (before ++ c :: after) := by
      simp [frees_cons, hc, hstate]
    rw [hfree]
    exact hsound.covers
  · exact hsound.accounts.inState hc hstate

theorem Sound.pinRecord (hsound : a.Sound (before ++ c :: after) spare)
    (hc : c.isFree = false) (hdesc : r.Describes c) {state : ChunkState}
    (hstate : state.isFree = false) :
    ∃ a', (a.pinRecord c.handle r state).Yields (c.addr, a') ∧
      a'.Sound (before ++ c.inState state :: after) spare ∧ a'.region = a.region ∧
      a'.config = a.config ∧ a'.counters = a.counters := by
  obtain ⟨a', hset, hsound', hregion, hconfig, hcounters⟩ := hsound.setState hc hstate
  have hbound := (hsound.acme_le (show c ∈ before ++ c :: after by simp)).trans
    hsound.memoryHigh_le
  unfold Chunk.acme at hbound
  have haddress : a'.address r = pure c.addr := by
    rw [Arena.address, hregion, Region.check_eq (by rw [hdesc.addr]; omega), pure_bind, hdesc.addr]
  refine ⟨a', ?_, hsound', hregion, hconfig, hcounters⟩
  rw [Arena.pinRecord, hset, pure_bind, haddress, pure_bind]
  exact (Act.yields_log _).bind (Act.yields_pure _)

/-! ## Writing -/

/-- A write within a chunk in use changes only bytes of that chunk. -/
theorem Sound.write (hsound : a.Sound chunks spare) (hc : c ∈ chunks) (hused : c.isFree = false)
    {region : Region} (hchanged : a.region.Changed region c.Holds) :
    ({ a with region } : Arena).Sound chunks spare := by
  refine ⟨⟨hsound.toLaid.congr rfl hchanged.size rfl, hsound.topped, ?_, hsound.tight⟩,
    hsound.accounts⟩
  apply hsound.covers.congr hchanged.size
  intro d hd
  obtain ⟨hd, hfree⟩ := mem_frees.mp hd
  have hne : c ≠ d := by
    rintro rfl
    rw [hused] at hfree
    exact absurd hfree (by simp)
  have hplaces := hsound.places hd
  apply hchanged.trailer hplaces.low
  intro i hi hi'
  have hapart := hsound.fills.disjoint hc hd hne
  have hleast := hplaces.least
  unfold Region.InTrailer Chunk.acme at hi
  unfold Chunk.Holds at hi'
  unfold Chunk.acme at hapart hi'
  omega

end CompactingArena.Arena
