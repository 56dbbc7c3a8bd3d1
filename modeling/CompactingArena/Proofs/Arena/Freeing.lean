import CompactingArena.Arena.Freeing
import CompactingArena.Proofs.Arena.Audit
import CompactingArena.Proofs.Arena.Pinning
import CompactingArena.Proofs.Counters
/-!
# Freeing keeps the invariant

A chunk that is freed becomes a free chunk in its place.  Poison and the trailer
are written within it, and the sums of the counters never pass below zero.
-/

namespace CompactingArena.Arena

open Layout

variable {a : Arena} {before after : List Chunk} {spare : List Handle} {c : Chunk}
  {r : Record}

theorem accountFree_eq {counters : Counters} (haccounts : Accounts counters (before ++ c :: after))
    (hc : c.isFree = false) :
    ∃ counters', counters.accountFree c.size = pure counters' ∧
      Accounts counters' (before ++ c.inState .free :: after) ∧ counters.Backs counters' := by
  obtain ⟨hcount, hbytes⟩ := haccounts
  have hfreed : (c.inState .free).isFree = true := rfl
  simp only [used_append, used_cons, hc, Bool.false_eq_true, if_false, List.length_append,
    List.length_cons, bytes_append, bytes_cons] at hcount hbytes
  refine ⟨{ counters with
    allocationCount := counters.allocationCount - 1
    allocatedBytes := counters.allocatedBytes - c.size }, ?_, ⟨?_, ?_⟩,
    .of_le (Nat.sub_le _ _) rfl⟩
  · rw [Counters.accountFree, Word.sub_eq (by omega), Word.sub_eq (by omega), pure_bind, pure_bind]
  · simp only [used_append, used_cons, hfreed, if_true, List.length_append, hcount]
    omega
  · simp only [used_append, used_cons, hfreed, if_true, bytes_append, hbytes]
    omega

/-- The bytes of a chunk but those of its trailer are poisoned, if at all. -/
theorem exists_poisoned {region : Region} (poison : Option UInt8) (hleast : Trailer.bytes ≤ c.size)
    (hbound : c.acme ≤ region.size) :
    ∃ region', region.Changed region' c.Holds ∧
      (poison = none ∧ region' = region ∨ ∃ byte, poison = some byte ∧
        region.fill c.addr (c.size - Trailer.bytes) byte = pure region') := by
  cases poison with
  | none => exact ⟨region, .refl _ _, .inl ⟨rfl, rfl⟩⟩
  | some byte =>
      unfold Chunk.acme at hbound
      refine ⟨_, ?_, .inr ⟨byte, rfl, Region.fill_eq (by omega) byte⟩⟩
      apply (Region.changed_overlay _ _ _).mono
      intro i hi
      rw [Region.size_repeated] at hi
      unfold Chunk.Holds Chunk.acme
      omega

theorem Laid.isOutside_eq {chunks : List Chunk} (hlaid : a.Laid chunks spare) (hc : c ∈ chunks) :
    a.isOutside c.acme = pure false := by
  rw [isOutside, if_neg (Nat.not_lt.mpr (hlaid.acme_le hc)), hlaid.lowest_eq, pure_bind,
    decide_eq_false (Nat.not_lt.mpr hlaid.memoryHigh_le_low)]

/-- Freeing a chunk in use leaves a free chunk in its place, and changes no byte
outside of it. -/
theorem Sound.reclaim (hsound : a.Sound (before ++ c :: after) spare)
    (hc : c.isFree = false) (hget : a.headers.get? c.handle = some r) (hdesc : r.Describes c) :
    ∃ a', (a.reclaim c.handle r).Yields a' ∧
      a'.Sound (before ++ c.inState .free :: after) spare ∧ a.region.Changed a'.region c.Holds ∧
      a'.config = a.config ∧ a.counters.Backs a'.counters := by
  have hmem : c ∈ before ++ c :: after := by simp
  have hplaces := hsound.places hmem
  -- the region after poisoning still files the chunks that were free before
  obtain ⟨region₁, hchanged₁, hpoison⟩ :=
    exists_poisoned a.config.poison hplaces.least hplaces.bound
  have hcovers₁ := (hsound.write hmem hc hchanged₁).covers
  set headers' := a.headers.set c.handle { r with state := .free } with hheaders'
  have hlaid' : ({ a with headers := headers', region := region₁ } : Arena).Laid
      (before ++ c.inState .free :: after) spare :=
    hsound.toLaid.replace hget rfl rfl rfl
      (show Record.Describes { r with state := .free } (c.inState .free) from
        ⟨hdesc.addr, hdesc.size, rfl⟩) rfl rfl hchanged₁.size rfl
  have hfree : (frees (before ++ c.inState .free :: after)).Perm
      (c.inState .free :: frees (before ++ c :: after)) := by
    have hfreed : (c.inState .free).isFree = true := rfl
    simp only [frees_append, frees_cons, hc, hfreed, if_true, Bool.false_eq_true, if_false]
    exact List.perm_middle
  have hfresh : c.inState .free ∉ frees (before ++ c :: after) := by
    intro hin
    have hnodup := (frees_perm (.refl _)).trans hfree |>.nodup_iff.mp (hlaid'.nodup.filter _)
    exact (List.nodup_cons.mp hnodup).1 hin
  have hfilable : SizeClasses.Filable headers' region₁
      (c.inState .free :: frees (before ++ c :: after)) :=
    hlaid'.filable.subset fun d hd => (mem_frees.mp (hfree.mem_iff.mpr hd)).1
  obtain ⟨classes', region₂, hinsert, hcovers₂, hchanged₂⟩ :=
    hcovers₁.insert hfilable hfresh rfl
  obtain ⟨counters', haccount, haccounts, hbacks⟩ := accountFree_eq hsound.accounts hc
  have hsound' : ({ a with
      region := region₂, headers := headers', classes := classes',
      counters := counters' } : Arena).Sound (before ++ c.inState .free :: after) spare :=
    ⟨⟨hlaid'.congr rfl hchanged₂.size rfl, hsound.topped.replace rfl rfl rfl rfl,
      hcovers₂.perm hfree.symm, hsound.tight.congr (HeaderTable.capacity_set _ _ _)⟩, haccounts⟩
  refine ⟨_, ?_, hsound', ?_, rfl, hbacks⟩
  · have hinsert' : a.classes.insert headers' region₁ c.handle = pure (classes', region₂) := hinsert
    rw [Arena.reclaim, SizeClasses.acme_eq hplaces hdesc hsound.size_le_max, pure_bind,
      hsound.isOutside_eq hmem, pure_bind, if_neg Bool.false_ne_true]
    rcases hpoison with ⟨hpoison, rfl⟩ | ⟨byte, hpoison, hfill⟩
    · simp only [hpoison, HeaderTable.update_eq hget, pure_bind]
      rw [← hheaders', hinsert', pure_bind, hdesc.size, haccount, pure_bind]
      exact (Act.yields_log _).bind (hsound'.selfCheck.bind (Act.yields_pure _))
    · have hsub : Word.sub r.size Trailer.bytes = pure (c.size - Trailer.bytes) := by
        rw [hdesc.size, Word.sub_eq hplaces.least]
      rw [← hdesc.addr] at hfill
      simp only [hpoison, hsub, hfill, HeaderTable.update_eq hget, pure_bind]
      rw [← hheaders', hinsert', pure_bind, hdesc.size, haccount, pure_bind]
      exact (Act.yields_log _).bind (hsound'.selfCheck.bind (Act.yields_pure _))
  · exact hchanged₁.trans (hchanged₂.mono fun i hi =>
      Chunk.holds_of_inTrailer hplaces.least hi)

end CompactingArena.Arena
