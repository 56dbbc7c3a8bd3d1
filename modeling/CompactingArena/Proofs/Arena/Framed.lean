import CompactingArena.Proofs.Arena.Allocation
import CompactingArena.Proofs.Arena.Freeing
import CompactingArena.Proofs.SizeClasses.Damaged
/-!
# What stale writes leave intact

A client that writes through a stale address overwrites bytes of the region, and with
them the free lists.  `Arena.Framed` is the part of the invariant that no byte of the
region has a say in: the layout that the header table describes, its highest record and
the number of classes.  In a release build every operation on such an arena ends and
leaves one like it, whatever the free lists say and whatever the counters hold.
-/

namespace CompactingArena.Arena

open Act Layout

/-- What is in order however the bytes of the region and the heads of the classes
read. -/
structure Framed (a : Arena) (chunks : List Chunk) (spare : List Handle) : Prop
    extends Laid a chunks spare where
  topped : a.Topped chunks
  enough : a.region.size < 2 ^ a.classes.count
  nonempty : 0 < a.classes.count

/-- An arena in which only the free lists and the counters may be out of order. -/
def Steady (a : Arena) : Prop := ∃ chunks spare, a.Framed chunks spare

variable {a b : Arena} {chunks before after : List Chunk} {spare : List Handle} {c : Chunk}
  {h : Handle} {r : Record} {size : Nat}

theorem Orderly.framed (h : a.Orderly chunks spare) : a.Framed chunks spare :=
  ⟨h.toLaid, h.topped, h.covers.enough, h.covers.nonempty⟩

theorem Laid.charted (hlaid : a.Laid chunks spare) : a.headers.Charted a.region chunks where
  size := hlaid.size_le_max
  places _ hc := hlaid.places hc
  live h hlive := by
    by_contra hout
    rw [hlaid.live?_eq_none_iff.mpr hout] at hlive
    exact absurd hlive (by simp)

theorem Laid.isSome_live? (hlaid : a.Laid chunks spare) (hc : c ∈ chunks) :
    (a.headers.live? c.handle).isSome = true := by
  obtain ⟨r, hget, hdesc⟩ := hlaid.chained.get hc
  rw [hlaid.live?_eq_some_iff.mpr ⟨c, hc, rfl, hget, hdesc⟩]
  rfl

/-- Bytes of the region, heads of classes and counters do not matter. -/
theorem Framed.congr (h : a.Framed chunks spare) (hheaders : b.headers = a.headers)
    (hsize : b.region.size = a.region.size) (hcount : b.classes.count = a.classes.count)
    (hhigh : b.memoryHigh = a.memoryHigh) (hhighest : b.highest = a.highest) :
    b.Framed chunks spare where
  toLaid := h.toLaid.congr hheaders hsize hhigh
  topped := by
    unfold Topped
    rw [hhigh, hhighest]
    exact h.topped
  enough := by
    rw [hsize, hcount]
    exact h.enough
  nonempty := hcount ▸ h.nonempty

/-- A chunk gets another state. -/
theorem Framed.inState (hframed : a.Framed (before ++ c :: after) spare)
    (hget : a.headers.get? c.handle = some r) (hdesc : r.Describes c) (state : ChunkState)
    (hheaders : b.headers = a.headers.set c.handle { r with state })
    (hsize : b.region.size = a.region.size) (hcount : b.classes.count = a.classes.count)
    (hhigh : b.memoryHigh = a.memoryHigh) (hhighest : b.highest = a.highest) :
    b.Framed (before ++ c.inState state :: after) spare where
  toLaid := hframed.toLaid.replace hget rfl rfl rfl
    (show Record.Describes { r with state } (c.inState state) from ⟨hdesc.addr, hdesc.size, rfl⟩)
    rfl hheaders hsize hhigh
  topped := hframed.topped.replace rfl rfl hhighest hhigh
  enough := by
    rw [hsize, hcount]
    exact hframed.enough
  nonempty := hcount ▸ hframed.nonempty

/-! ## Requests -/

/-- A request was served with the chunk of `h`. -/
def Provides (h : Handle) (a : Arena) : Prop := a.Steady ∧ (a.headers.live? h).isSome = true

theorem Framed.provides (h : a.Framed chunks spare) (hc : c ∈ chunks) : a.Provides c.handle :=
  ⟨⟨_, _, h⟩, h.isSome_live? hc⟩

theorem Framed.ends_bump (hframed : a.Framed chunks spare)
    (hleast : Trailer.bytes ≤ size) (haligned : size % Word.alignment = 0) :
    Ends (a.bump size) fun
      | none => True
      | some (h, b) => b.Provides h := by
  rcases hframed.toLaid.bump hleast haligned with ⟨hbump, -⟩ | ⟨h, headers, spare', hbump, hlaid, -⟩
  · exact .of_yields hbump trivial
  · have hframed' : Framed _ (a.fresh h size :: chunks) spare' :=
      ⟨hlaid, .inr ⟨_, List.mem_cons_self, rfl, rfl⟩, hframed.enough, hframed.nonempty⟩
    exact .of_yields hbump (hframed'.provides List.mem_cons_self)

theorem Framed.ends_split (hframed : a.Framed chunks spare) (hc : c ∈ chunks) (hsize : size ≤ c.size)
    (hleast : Trailer.bytes ≤ size) (haligned : size % Word.alignment = 0) :
    Ends (a.split c.handle c.size size) (Provides c.handle) := by
  obtain ⟨before, after, rfl⟩ := List.append_of_mem hc
  rcases hframed.toLaid.exists_splitOff hsize hleast haligned with
    ⟨hsplit, -⟩ | ⟨g, headers, spare', -, -, hlaid, hsplit⟩
  · exact .of_yields hsplit (hframed.provides hc)
  · have hplaces := (hlaid a.classes a.region rfl).places
      (show excess c size g ∈ before ++ resized c size :: excess c size g :: after by simp)
    obtain ⟨next, hnext⟩ := SizeClasses.exists_head
      (SizeClasses.classFor_lt hframed.nonempty (excess c size g).size)
    obtain ⟨region', hinsert, hchanged, -⟩ :=
      SizeClasses.insert_eq hplaces hframed.size_le_max hnext
    have hfree : (excess c size g).isFree = true := rfl
    rw [hfree, Act.expect_true, pure_bind] at hinsert
    have hlaid' := hlaid
      (a.classes.setHead (a.classes.classFor (excess c size g).size) (some g)) region' hchanged.size
    have hframed' : Framed _ (before ++ resized c size :: excess c size g :: after) spare' :=
      ⟨hlaid', hframed.topped.split hframed.nodup_handles hsize rfl rfl, by
          rw [splitOff, SizeClasses.count_setHead, hchanged.size]
          exact hframed.enough, by
          rw [splitOff, SizeClasses.count_setHead]
          exact hframed.nonempty⟩
    exact .of_yields (hsplit _ _ hinsert)
      (hframed'.provides (c := resized c size) (by simp))

/-- What a search of the free lists turns up is handed out, even if it is in use. -/
theorem Framed.ends_reuse (hframed : a.Framed chunks spare)
    (hleast : Trailer.bytes ≤ size) (haligned : size % Word.alignment = 0) :
    Ends (a.reuse size) fun
      | (none, b) => b.Steady
      | (some h, b) => b.Provides h := by
  rw [reuse]
  apply (SizeClasses.ends_find hframed.toLaid.charted hframed.nonempty
    (lt_of_lt_of_le (by decide) hleast : 0 < size)).bind
  rintro ⟨found, classes, region⟩ - ⟨hmatches, hfinds⟩
  have hframed' : Framed { a with classes, region } chunks spare :=
    hframed.congr rfl hmatches.size hmatches.count rfl rfl
  rcases found with violation | _ | h
  · exact .bind_ok (result_violate_release violation) (.of_pure ⟨_, _, hframed'⟩)
  · exact .of_pure ⟨_, _, hframed'⟩
  obtain ⟨d, hd, rfl, hfit⟩ := hfinds h rfl
  obtain ⟨before, after, rfl⟩ := List.append_of_mem hd
  obtain ⟨r, hget, hdesc⟩ := hframed.chained.get hd
  simp only [HeaderTable.get_eq hget, HeaderTable.update_eq hget, pure_bind, hdesc.size]
  apply (Counters.ends_accountReuse a.counters d.size).bind
  rintro counters - -
  have hframed'' : Framed { a with
      headers := a.headers.set d.handle { r with state := .unlocked }
      classes, region, counters } (before ++ d.inState .unlocked :: after) spare :=
    hframed'.inState hget hdesc .unlocked rfl rfl rfl rfl rfl
  rw [hdesc.size] at hframed''
  have hsplit := hframed''.ends_split (c := d.inState .unlocked) (by simp) hfit hleast haligned
  exact hsplit.bind fun b _ hb => .of_pure hb

theorem Framed.ends_tryAllocate (hframed : a.Framed chunks spare)
    (hleast : Trailer.bytes ≤ size) (haligned : size % Word.alignment = 0) :
    Ends (a.tryAllocate size) fun
      | (none, b) => b.Steady
      | (some h, b) => b.Provides h := by
  rw [tryAllocate]
  cases a.config.placement with
  | reuseFirst =>
      apply (hframed.ends_reuse hleast haligned).bind
      rintro ⟨_ | h, b⟩ - hb
      · obtain ⟨chunks', spare', hframed'⟩ := hb
        apply (hframed'.ends_bump hleast haligned).bind
        rintro (_ | ⟨h, b'⟩) - hb'
        · exact .of_pure ⟨_, _, hframed'⟩
        · exact .of_pure hb'
      · exact .of_pure hb
  | bumpFirst =>
      apply (hframed.ends_bump hleast haligned).bind
      rintro (_ | ⟨h, b⟩) - hb
      · exact hframed.ends_reuse hleast haligned
      · exact .of_pure hb

theorem result_selfCheck_release (a : Arena) : a.selfCheck.result .release = .ok () := by
  rw [selfCheck, result_bind_ok (a := Build.release) rfl]
  rfl

theorem Provides.ends_concludeAllocation (hprovides : a.Provides h) (requested : Nat) :
    Ends (a.concludeAllocation h requested) Steady := by
  obtain ⟨⟨chunks, spare, hframed⟩, hlive⟩ := hprovides
  obtain ⟨r, hr⟩ := Option.isSome_iff_exists.mp hlive
  obtain ⟨c, -, rfl, hget, -⟩ := hframed.live?_eq_some_iff.mp hr
  rw [concludeAllocation, HeaderTable.get_eq hget, pure_bind]
  apply (Counters.ends_accountAlloc a.counters r.size).bind
  rintro counters - -
  refine .bind_ok (result_log _ _) (.bind_ok (result_selfCheck_release _) (.of_pure ?_))
  exact ⟨chunks, spare, hframed.congr rfl rfl rfl rfl rfl⟩

theorem Steady.ends_refuseAllocation (hsteady : a.Steady) (requested : Nat) :
    Ends (a.refuseAllocation requested) Steady := by
  obtain ⟨chunks, spare, hframed⟩ := hsteady
  rw [refuseAllocation]
  apply (Counters.ends_accountOom a.counters).bind
  rintro counters - -
  exact .bind_ok (result_log _ _)
    (.of_pure ⟨chunks, spare, hframed.congr rfl rfl rfl rfl rfl⟩)

/-! ## Chunks in use -/

section InUse

variable (hframed : a.Framed chunks spare) (hr : a.inUse? h = some r)
include hframed hr

theorem Framed.ends_setState (state : ChunkState) :
    Ends (a.setState h state) fun b => b.Steady ∧ b.region = a.region := by
  obtain ⟨before, c, after, rfl, rfl, -, hget, hdesc⟩ := hframed.toLaid.exists_split hr
  rw [setState, HeaderTable.update_eq hget, pure_bind]
  exact .of_pure ⟨⟨_, _, hframed.inState hget hdesc state rfl rfl rfl rfl rfl⟩, rfl⟩

theorem Framed.ends_pinRecord (state : ChunkState) :
    Ends (a.pinRecord h r state) fun (_, b) => b.Steady := by
  obtain ⟨c, hc, -, -, hdesc⟩ := hframed.toLaid.inUse?_eq_some_iff.mp hr
  have hbound := (hframed.places (mem_used.mp hc).1).bound
  unfold Chunk.acme at hbound
  rw [pinRecord]
  apply (hframed.ends_setState hr state).bind
  rintro b - ⟨hsteady, hregion⟩
  have haddress : b.address r = pure c.addr := by
    rw [address, hregion, Region.check_eq (by rw [hdesc.addr]; omega), pure_bind, hdesc.addr]
  rw [haddress, pure_bind]
  exact .bind_ok (result_log _ _) (.of_pure hsteady)

/-- Freeing files the chunk under whatever head its class has. -/
theorem Framed.ends_reclaim : Ends (a.reclaim h r) Steady := by
  obtain ⟨before, c, after, rfl, rfl, hbusy, hget, hdesc⟩ := hframed.toLaid.exists_split hr
  have hplaces := hframed.places (show c ∈ before ++ c :: after by simp)
  obtain ⟨region₁, hchanged, hpoison⟩ :=
    exists_poisoned a.config.poison hplaces.least hplaces.bound
  set headers := a.headers.set c.handle { r with state := .free } with hheaders
  have hframed₁ : Framed { a with headers, region := region₁ }
      (before ++ c.inState .free :: after) spare :=
    hframed.inState hget hdesc .free rfl hchanged.size rfl rfl rfl
  have hfiled : Ends (a.classes.insert headers region₁ c.handle >>= fun filed => do
      let counters ← a.counters.accountFree r.size
      let a := { a with region := filed.2, headers, classes := filed.1, counters }
      Act.log (.freed c.handle r.size r.addr)
      a.selfCheck
      return a) Steady := by
    have hmem : c.inState .free ∈ before ++ c.inState .free :: after := by simp
    apply (SizeClasses.ends_insert hframed₁.toLaid.charted hframed.nonempty hmem).bind
    rintro ⟨classes, region⟩ - ⟨hmatches, -⟩
    apply (Counters.ends_accountFree a.counters r.size).bind
    rintro counters - -
    refine .bind_ok (result_log _ _) (.bind_ok (result_selfCheck_release _) (.of_pure ?_))
    exact ⟨_, spare, hframed₁.congr rfl hmatches.size hmatches.count rfl rfl⟩
  rw [reclaim, SizeClasses.acme_eq hplaces hdesc hframed.size_le_max, pure_bind,
    hframed.isOutside_eq (by simp), pure_bind, if_neg Bool.false_ne_true]
  rcases hpoison with ⟨hpoison, rfl⟩ | ⟨byte, hpoison, hfill⟩
  · simp only [hpoison, HeaderTable.update_eq hget, pure_bind]
    exact hfiled
  · have hsub : Word.sub r.size Trailer.bytes = pure (c.size - Trailer.bytes) := by
      rw [hdesc.size, Word.sub_eq hplaces.least]
    rw [← hdesc.addr] at hfill
    simp only [hpoison, hsub, hfill, HeaderTable.update_eq hget, pure_bind]
    exact hfiled

end InUse

/-! ## Operations -/

theorem Steady.overlay (hsteady : a.Steady) (offset : Nat) (bytes : ByteArray) :
    ({ a with region := a.region.overlay offset bytes } : Arena).Steady := by
  obtain ⟨chunks, spare, hframed⟩ := hsteady
  exact ⟨chunks, spare, hframed.congr rfl rfl rfl rfl rfl⟩

section Operations

variable (hsteady : a.Steady)
include hsteady

theorem Steady.ends_free (h : Handle) : Ends (a.free h) Steady := by
  rw [free]
  cases hlive : a.headers.live? h with
  | none =>
      exact .bind_ok (result_expect_release _ _) (.bind_ok (result_log _ _) (.of_pure hsteady))
  | some r =>
      obtain ⟨chunks, spare, hframed⟩ := hsteady
      by_cases hfree : r.state.isFree = true
      · simp only [if_pos hfree]
        exact .of_pure ⟨_, _, hframed⟩
      · simp only [if_neg hfree]
        exact hframed.ends_reclaim (inUse?_of_live hlive (Bool.eq_false_iff.mpr hfree))

theorem Steady.ends_tryFree (h : Handle) : Ends (a.tryFree h) fun (_, b) => b.Steady := by
  obtain ⟨chunks, spare, hframed⟩ := id hsteady
  rw [tryFree]
  cases hr : a.permit h with
  | error misuse => exact .of_pure hsteady
  | ok r =>
      exact (hframed.ends_reclaim (Laid.permit_ok_iff.mp hr)).bind fun b _ hb => .of_pure hb

theorem Steady.ends_pin (h : Handle) (state : ChunkState) :
    Ends (a.pin h state) fun (_, b) => b.Steady := by
  obtain ⟨chunks, spare, hframed⟩ := id hsteady
  rw [pin]
  cases hlive : a.headers.live? h with
  | none =>
      exact .bind_ok (result_expect_release _ _) (.bind_ok (result_log _ _) (.of_pure hsteady))
  | some r =>
      by_cases hfree : r.state.isFree = true
      · obtain ⟨c, hc, -, -, hdesc⟩ := hframed.live?_eq_some_iff.mp hlive
        have hbound := (hframed.places hc).bound
        unfold Chunk.acme at hbound
        have haddress : a.address r = pure r.addr := by
          rw [address, Region.check_eq (by rw [hdesc.addr]; omega), pure_bind]
        simp only [if_pos hfree, haddress, pure_bind]
        exact .bind_ok (result_expect_release _ _) (.bind_ok (result_log _ _) (.of_pure hsteady))
      · simp only [if_neg hfree]
        have hr := inUse?_of_live hlive (Bool.eq_false_iff.mpr hfree)
        exact (hframed.ends_pinRecord hr state).bind fun b _ hb => .of_pure hb

theorem Steady.ends_tryPin (h : Handle) (state : ChunkState) :
    Ends (a.tryPin h state) fun (_, b) => b.Steady := by
  obtain ⟨chunks, spare, hframed⟩ := id hsteady
  rw [tryPin]
  cases hr : a.permit h with
  | error misuse => exact .of_pure hsteady
  | ok r =>
      exact (hframed.ends_pinRecord (Laid.permit_ok_iff.mp hr) state).bind
        fun b _ hb => .of_pure hb

theorem Steady.ends_unlock (h : Handle) : Ends (a.unlock h) Steady := by
  obtain ⟨chunks, spare, hframed⟩ := id hsteady
  rw [unlock]
  cases hlive : a.headers.live? h with
  | none =>
      exact .bind_ok (result_expect_release _ _) (.bind_ok (result_log _ _) (.of_pure hsteady))
  | some r =>
      by_cases hfree : r.state.isFree = true
      · simp only [if_pos hfree]
        exact .bind_ok (result_expect_release _ _) (.bind_ok (result_log _ _) (.of_pure hsteady))
      · simp only [if_neg hfree]
        have hr := inUse?_of_live hlive (Bool.eq_false_iff.mpr hfree)
        exact (hframed.ends_setState hr .unlocked).mono fun _ h => h.1

theorem Steady.ends_tryUnlock (h : Handle) : Ends (a.tryUnlock h) fun (_, b) => b.Steady := by
  obtain ⟨chunks, spare, hframed⟩ := id hsteady
  rw [tryUnlock]
  cases hr : a.permit h with
  | error misuse => exact .of_pure hsteady
  | ok r =>
      exact (hframed.ends_setState (Laid.permit_ok_iff.mp hr) .unlocked).bind
        fun b _ hb => .of_pure hb.1

theorem Steady.ends_write (h : Handle) (start : Nat) (bytes : ByteArray) :
    Ends (a.write h start bytes) fun outcome => ∀ b, outcome = .ok b → b.Steady := by
  obtain ⟨chunks, spare, hframed⟩ := id hsteady
  rw [write]
  cases hr : a.inUse? h with
  | none => exact .of_pure (by simp)
  | some r =>
      obtain ⟨c, hc, -, -, hdesc⟩ := hframed.toLaid.inUse?_eq_some_iff.mp hr
      have hbound := (hframed.places (mem_used.mp hc).1).bound
      unfold Chunk.acme at hbound
      simp only [hdesc.addr, hdesc.size, Region.check_eq hbound, pure_bind]
      split
      · refine .of_pure fun b hb => ?_
        rw [← Except.ok.inj hb]
        exact hsteady.overlay _ _
      · exact .of_pure (by simp)

end Operations

end CompactingArena.Arena
