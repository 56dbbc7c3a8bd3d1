import CompactingArena.Proofs.Arena.Allocation
import CompactingArena.Proofs.Arena.Compaction
import CompactingArena.Proofs.Arena.Freeing
import CompactingArena.Proofs.Session.History
/-!
# What a deed does to chunks in use

A deed of a sound arena leaves a sound arena.  Of the chunks in use it frees at
most the one it names; the others stay in use and never shrink, and their bytes
are those they had, but for the bytes that the deed itself writes.
-/

namespace CompactingArena

open Layout

namespace Deed

/-- The deed frees the chunk of `h`. -/
def Frees (h : Handle) : Deed → Prop
  | .call (.free g) _ => g = h
  | .call (.tryFree g) _ => g = h
  | _ => False

/-- What the deed writes at position `i` of the chunk of `h`, if anything. -/
def written (h : Handle) (i : Nat) : Deed → Option UInt8
  | .call (.write g start bytes) (.ok ()) =>
      if g = h ∧ start ≤ i ∧ i < start + bytes.size then bytes[i - start]? else none
  | _ => none

end Deed

/-- What a chunk in use becomes, where some of its bytes were written. -/
structure Chunk.Evolves (c : Chunk) (r : Region) (written : Nat → Option UInt8) (c' : Chunk)
    (r' : Region) : Prop where
  handle : c'.handle = c.handle
  size : c.size ≤ c'.size
  byte : ∀ i < c.size, r'.byte (c'.addr + i) = (written i).getD (r.byte (c.addr + i))

namespace Layout

/-- What the chunks in use become. -/
def Evolves (deed : Deed) (r : Region) (l : List Chunk) (r' : Region) (l' : List Chunk) : Prop :=
  ∀ c ∈ used l, ¬deed.Frees c.handle →
    ∃ c' ∈ used l', c.Evolves r (fun i => deed.written c.handle i) c' r'

variable {deed : Deed} {r r' : Region} {l l' : List Chunk}

/-- Chunks that stay where they are and whose bytes do not change. -/
theorem Evolves.of_unchanged (hwritten : ∀ h i, deed.written h i = none)
    (hstays : ∀ c ∈ used l, ¬deed.Frees c.handle → ∃ c' ∈ used l', c'.handle = c.handle ∧
      c'.addr = c.addr ∧ c'.size = c.size)
    (hbyte : ∀ c ∈ used l, ¬deed.Frees c.handle → ∀ i, c.Holds i → r'.byte i = r.byte i) :
    Evolves deed r l r' l' := by
  intro c hc hfree
  obtain ⟨c', hc', hhandle, haddr, hsize⟩ := hstays c hc hfree
  refine ⟨c', hc', hhandle, hsize.ge, fun i hi => ?_⟩
  rw [hwritten, Option.getD_none, haddr]
  exact hbyte c hc hfree _ ⟨Nat.le_add_right _ _, Nat.add_lt_add_left hi _⟩

theorem Evolves.refl (hwritten : ∀ h i, deed.written h i = none) (r : Region) (l : List Chunk) :
    Evolves deed r l r l :=
  .of_unchanged hwritten (fun c hc _ => ⟨c, hc, rfl, rfl, rfl⟩) fun _ _ _ _ _ => rfl

theorem Carries.evolves (h : Carries r l r' l') (hwritten : ∀ h i, deed.written h i = none) :
    Evolves deed r l r' l' := by
  intro c hc _
  obtain ⟨c', hc', hbecomes⟩ := h.becomes c hc
  refine ⟨c', hc', hbecomes.handle, hbecomes.size, fun i hi => ?_⟩
  rw [hwritten, Option.getD_none, hbecomes.byte i hi]

end Layout

namespace Arena

variable {build : Build} {a b : Arena} {chunks : List Chunk} {spare : List Handle} {h : Handle}
  {deed : Deed}

/-- After the deed the arena is sound again, and its chunks in use have evolved. -/
def Leads (a : Arena) (chunks : List Chunk) (deed : Deed) (b : Arena) : Prop :=
  ∃ chunks' spare', b.Sound chunks' spare' ∧ Evolves deed a.region chunks b.region chunks'

theorem Sound.leads_refl (hsound : a.Sound chunks spare)
    (hwritten : ∀ h i, deed.written h i = none) : a.Leads chunks deed a :=
  ⟨chunks, spare, hsound, .refl hwritten a.region chunks⟩

/-! ## Requests -/

/-- A chunk that is handed out takes no other chunk's place. -/
theorem Serves.evolves {c : Chunk} {size : Nat} {chunks' : List Chunk}
    (hserves : a.Serves chunks size c b chunks') (hlaid : a.Laid chunks spare)
    (hwritten : ∀ h i, deed.written h i = none) :
    Evolves deed a.region chunks b.region chunks' := by
  refine .of_unchanged hwritten (fun d hd _ => ?_) fun d hd _ i hi => hserves.changed.byte i ?_
  · exact ⟨d, hserves.source.used.mem_iff.mpr (List.mem_cons_of_mem _ hd), rfl, rfl, rfl⟩
  · rintro ⟨e, he, hi'⟩
    obtain ⟨hd, hbusy⟩ := mem_used.mp hd
    obtain ⟨he, hfree⟩ := mem_frees.mp he
    have hne : d ≠ e := by
      rintro rfl
      rw [hbusy] at hfree
      exact absurd hfree (by simp)
    have hapart := hlaid.fills.disjoint hd he hne
    unfold Chunk.Holds at hi hi'
    omega

/-- A handle that is handed out was not in use, and names a chunk that is large
enough. -/
theorem Sound.grant (hsound : a.Sound chunks spare) {requested : Nat}
    (hdoes : Does build a (.grant requested h) b) :
    a.inUse? h = none ∧ ∃ chunks' spare', b.Sound chunks' spare' ∧
      Evolves (.grant requested h) a.region chunks b.region chunks' ∧
      ∃ c ∈ used chunks', c.handle = h ∧ requested ≤ c.size := by
  cases hdoes with
  | grant hsize htry hconclude =>
      obtain ⟨hrequested, hleast, haligned⟩ := chunkSize?_eq_some hsize
      obtain ⟨chunks', spare', c, hserved, rfl, hserves, -⟩ :=
        (hsound.tryAllocate hleast haligned).of_ok htry
      obtain ⟨hsound', hsame, -⟩ := (hserved.concludeAllocation hserves.totals _).of_ok hconclude
      have hc : c ∈ used chunks' := hserves.source.used.mem_iff.mpr (by simp)
      refine ⟨hserves.source.inUse?_eq_none hsound.toLaid hserved.toLaid, chunks', spare', hsound',
        ?_, c, hc, rfl, hrequested.trans hserves.source.least⟩
      rw [hsame]
      exact hserves.evolves hsound.toLaid fun _ _ => rfl

theorem Sound.shortage (hsound : a.Sound chunks spare) {requested : Nat}
    (hdoes : Does build a (.shortage requested) b) : b = a := by
  cases hdoes with
  | shortage hsize htry =>
      obtain ⟨-, hleast, haligned⟩ := chunkSize?_eq_some hsize
      exact ((hsound.tryAllocate hleast haligned).of_ok htry).1

theorem Sound.refusal (hsound : a.Sound chunks spare) {requested : Nat}
    (hdoes : Does build a (.refusal requested) b) : a.Leads chunks (.refusal requested) b := by
  cases hdoes with
  | refusal hsize hrefuse =>
      obtain ⟨hsound', hsame, -⟩ := (hsound.refuseAllocation _).of_ok hrefuse
      refine ⟨chunks, spare, hsound', ?_⟩
      rw [hsame]
      exact .refl (fun _ _ => rfl) a.region chunks

/-! ## Pinning -/

theorem Sound.leads_inState {before after : List Chunk} {c : Chunk} {state : ChunkState}
    (hsound : b.Sound (before ++ c.inState state :: after) spare) (hstate : state.isFree = false)
    (hregion : b.region = a.region) (hwritten : ∀ h i, deed.written h i = none) :
    a.Leads (before ++ c :: after) deed b := by
  refine ⟨_, _, hsound, .of_unchanged hwritten (fun d hd _ => ?_) fun _ _ _ _ _ => by rw [hregion]⟩
  obtain ⟨hd, hbusy⟩ := mem_used.mp hd
  rcases List.mem_append.mp hd with hd | hd
  · exact ⟨d, mem_used.mpr ⟨by simp [hd], hbusy⟩, rfl, rfl, rfl⟩
  · rcases List.mem_cons.mp hd with rfl | hd
    · exact ⟨d.inState state, mem_used.mpr ⟨by simp, hstate⟩, rfl, rfl, rfl⟩
    · exact ⟨d, mem_used.mpr ⟨by simp [hd], hbusy⟩, rfl, rfl, rfl⟩

theorem Sound.leads_setState (hsound : a.Sound chunks spare) {r : Record}
    (hr : a.inUse? h = some r) {state : ChunkState} (hstate : state.isFree = false)
    (hset : (a.setState h state).result build = .ok b)
    (hwritten : ∀ h i, deed.written h i = none) : a.Leads chunks deed b := by
  obtain ⟨before, c, after, rfl, rfl, hbusy, -⟩ := hsound.toLaid.exists_split hr
  obtain ⟨b', hset', hsound', hregion, -⟩ := hsound.setState hbusy hstate
  rw [hset', Act.result_pure, Except.ok.injEq] at hset
  exact hset ▸ hsound'.leads_inState hstate hregion hwritten

theorem Sound.leads_pinRecord (hsound : a.Sound chunks spare) {r : Record}
    (hr : a.inUse? h = some r) {state : ChunkState} (hstate : state.isFree = false) {addr : Nat}
    (hpin : (a.pinRecord h r state).result build = .ok (addr, b))
    (hwritten : ∀ h i, deed.written h i = none) : a.Leads chunks deed b := by
  obtain ⟨before, c, after, rfl, rfl, hbusy, -, hdesc⟩ := hsound.toLaid.exists_split hr
  obtain ⟨b', hpin', hsound', hregion, -⟩ := hsound.pinRecord hbusy hdesc hstate
  rw [hpin' build, Except.ok.injEq, Prod.mk.injEq] at hpin
  exact hpin.2 ▸ hsound'.leads_inState hstate hregion hwritten

/-! ## Freeing and writing -/

/-- All chunks in use but the one that is freed stay as they are. -/
theorem Sound.leads_reclaim (hsound : a.Sound chunks spare) {r : Record}
    (hr : a.inUse? h = some r) (hreclaim : (a.reclaim h r).result build = .ok b)
    (hfrees : deed.Frees h) (hwritten : ∀ h i, deed.written h i = none) :
    a.Leads chunks deed b := by
  obtain ⟨before, c, after, rfl, rfl, hbusy, hget, hdesc⟩ := hsound.toLaid.exists_split hr
  obtain ⟨b', hreclaim', hsound', hchanged, -⟩ := hsound.reclaim hbusy hget hdesc
  rw [hreclaim' build, Except.ok.injEq] at hreclaim
  subst hreclaim
  have hother : ∀ d ∈ used (before ++ c :: after), ¬deed.Frees d.handle → d ≠ c := by
    rintro d - hd rfl
    exact hd hfrees
  refine ⟨_, _, hsound', .of_unchanged hwritten (fun d hd hfree => ?_) fun d hd hfree i hi => ?_⟩
  · have hne := hother d hd hfree
    obtain ⟨hd, hused⟩ := mem_used.mp hd
    refine ⟨d, mem_used.mpr ⟨?_, hused⟩, rfl, rfl, rfl⟩
    rcases List.mem_append.mp hd with hd | hd
    · simp [hd]
    · rcases List.mem_cons.mp hd with rfl | hd
      · exact absurd rfl hne
      · simp [hd]
  · apply hchanged.byte i
    intro hi'
    have hapart := hsound.fills.disjoint (mem_used.mp hd).1 (by simp) (hother d hd hfree)
    unfold Chunk.Holds at hi hi'
    omega

/-- A write that is not refused lies within a chunk in use. -/
theorem Laid.write_ok (hlaid : a.Laid chunks spare) {start : Nat} {bytes : ByteArray}
    (hwrite : (a.write h start bytes).result build = .ok (.ok b)) :
    ∃ c ∈ used chunks, c.handle = h ∧ start + bytes.size ≤ c.size ∧
      b = { a with region := a.region.overlay (c.addr + start) bytes } := by
  rw [Arena.write] at hwrite
  cases hr : a.inUse? h with
  | none =>
      rw [hr] at hwrite
      exact absurd hwrite (by simp)
  | some r =>
      rw [hr] at hwrite
      obtain ⟨-, -, hwrite⟩ := Act.of_result_bind_ok hwrite
      obtain ⟨c, hc, rfl, -, hdesc⟩ := hlaid.inUse?_eq_some_iff.mp hr
      split at hwrite
      · rename_i hbound
        rw [Act.result_pure, Except.ok.injEq, Except.ok.injEq] at hwrite
        exact ⟨c, hc, rfl, hdesc.size ▸ hbound, by rw [← hwrite, hdesc.addr]⟩
      · exact absurd hwrite (by simp)

/-- The bytes of a chunk after a write into it. -/
theorem byte_written {c : Chunk} {start i : Nat} {bytes : ByteArray} (r : Region) :
    (r.overlay (c.addr + start) bytes).byte (c.addr + i) =
      (Deed.written c.handle i (.call (.write c.handle start bytes) (.ok ()))).getD
        (r.byte (c.addr + i)) := by
  rw [Region.byte_overlay]
  simp only [Deed.written, true_and]
  by_cases hi : start ≤ i ∧ i < start + bytes.size
  · have hlt : i - start < bytes.size := by omega
    rw [if_pos (by omega), if_pos hi,
      show c.addr + i - (c.addr + start) = i - start by omega, getElem?_pos bytes (i - start) hlt]
    rfl
  · rw [if_neg (by omega), if_neg (by omega), Option.getD_none]

/-- A write changes the bytes it names and no others. -/
theorem Sound.leads_write (hsound : a.Sound chunks spare) {start : Nat} {bytes : ByteArray}
    (hwrite : (a.write h start bytes).result build = .ok (.ok b)) :
    a.Leads chunks (.call (.write h start bytes) (.ok ())) b := by
  obtain ⟨c, hc, rfl, hbound, rfl⟩ := hsound.toLaid.write_ok hwrite
  obtain ⟨hmem, hbusy⟩ := mem_used.mp hc
  have hchanged : a.region.Changed (a.region.overlay (c.addr + start) bytes) c.Holds := by
    apply (Region.changed_overlay _ _ _).mono
    intro i hi
    unfold Chunk.Holds Chunk.acme
    omega
  refine ⟨chunks, spare, hsound.write hmem hbusy hchanged,
    fun d hd _ => ⟨d, hd, rfl, le_refl _, ?_⟩⟩
  intro i hi
  by_cases hdc : d = c
  · subst hdc
    exact byte_written a.region
  · have hd := (mem_used.mp hd).1
    have hne : c.handle ≠ d.handle := fun heq =>
      hdc (hsound.toLaid.eq_of_handle_eq hd hmem heq.symm)
    have hapart := hsound.fills.disjoint hd hmem hdc
    simp only [Deed.written]
    rw [if_neg (fun h => hne h.1), Option.getD_none]
    apply hchanged.byte _
    intro hi'
    unfold Chunk.Holds at hi'
    unfold Chunk.acme at hi' hapart
    omega

end Arena

end CompactingArena
