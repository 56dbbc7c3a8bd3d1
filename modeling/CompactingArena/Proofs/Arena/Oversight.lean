import CompactingArena.Proofs.Arena.Acceptance
/-!
# What the audit overlooks

The audit compares numbers: as many chunks are filed as are free, and the chained records
and the recyclable ones are together as many as there are.  That makes sure of what it is
meant for, `Arena.Complete`, provided that what is filed lies on the header chain and that
what is recyclable is unused.  It does not look whether it is so, and one fault can hide
another: a chained record may wait to be recycled where an unused one is missing.
-/

namespace CompactingArena

open Act Layout

namespace HeaderTable

variable {t t' : HeaderTable} {build : Build} {h : Handle}

/-- The link of the free-record chain that a handle has; one without a record ends the
chain. -/
def NextUnused (t : HeaderTable) (h : Handle) (next : Option Handle) : Prop :=
  (t.get? h).bind (·.nextUnused) = next

theorem path_of_length_lt {limit : Nat} {link : Option Handle}
    (hlength : (t.freeRecordsFrom limit link).length < limit) :
    Path t.NextUnused link (t.freeRecordsFrom limit link) := by
  induction limit generalizing link with
  | zero => exact absurd hlength (Nat.not_lt_zero _)
  | succ limit ih =>
      cases link with
      | none => rfl
      | some h =>
          rw [freeRecordsFrom, List.length_cons] at hlength
          exact ⟨rfl, _, rfl, ih (by omega)⟩

/-- A free-record chain no longer than the table has an end. -/
theorem nodup_freeRecordList (hlength : t.freeRecordList.length ≤ t.capacity) :
    t.freeRecordList.Nodup :=
  (path_of_length_lt (Nat.lt_succ_of_le hlength)).nodup
    fun _ _ _ hnext hnext' => hnext.symm.trans hnext'

theorem index_of_carve {floor reserve : Nat}
    (hcarve : (t.carve floor reserve).result build = .ok (some (h, t'))) : h.index = t.capacity := by
  rw [carve] at hcarve
  obtain ⟨needed, -, hcarve⟩ := of_result_bind_ok hcarve
  obtain ⟨low, -, hcarve⟩ := of_result_bind_ok hcarve
  split at hcarve
  · exact absurd (Except.ok.inj hcarve) (by simp)
  · split at hcarve
    · exact absurd (Except.ok.inj hcarve) (by simp)
    · rename_i g hg
      obtain ⟨-, -, hcarve⟩ := of_result_bind_ok hcarve
      obtain ⟨rfl, -⟩ := Prod.mk.inj (Option.some.inj (Except.ok.inj hcarve))
      exact Handle.index_of_ofIndex? hg

/-- A record that is obtained is the first of the free-record chain, or a new one. -/
theorem mem_or_eq_of_allocate {linked : Bool} {floor reserve : Nat}
    (hallocate : (t.allocate linked floor reserve).result build = .ok (some (h, t'))) :
    h ∈ t.freeRecordList ∨ h.index = t.capacity := by
  rw [allocate] at hallocate
  cases hfree : t.freeRecords with
  | none =>
      rw [hfree] at hallocate
      obtain ⟨carved, hcarved, hallocate⟩ := of_result_bind_ok hallocate
      rcases carved with _ | ⟨g, carved⟩
      · exact absurd (Except.ok.inj hallocate) (by simp)
      · dsimp only at hallocate
        obtain ⟨_, -, hallocate⟩ := of_result_bind_ok hallocate
        obtain ⟨rfl, -⟩ := Prod.mk.inj (Option.some.inj (Except.ok.inj hallocate))
        exact .inr (index_of_carve hcarved)
  | some g =>
      rw [hfree] at hallocate
      obtain ⟨recycled, -, hallocate⟩ := of_result_bind_ok hallocate
      simp only [pure_bind] at hallocate
      obtain ⟨_, -, hallocate⟩ := of_result_bind_ok hallocate
      obtain ⟨rfl, -⟩ := Prod.mk.inj (Option.some.inj (Except.ok.inj hallocate))
      left
      rw [freeRecordList, hfree, freeRecordsFrom]
      exact List.mem_cons_self

end HeaderTable

namespace Arena

variable {a : Arena} {chunks : List Chunk} {filed : Nat → List Handle} {build : Build} {h : Handle}

/-- What the audit is meant to make sure of: that the free chunks of the header chain are
filed and no others are, and that the unused records can be recycled, each once, and no
others can. -/
structure Complete (a : Arena) (chunks : List Chunk) (filed : Nat → List Handle) : Prop where
  filed : ∀ h, (∃ k < a.classes.count, h ∈ filed k) ↔ h ∈ handles (frees chunks)
  recyclable : ∀ h, h ∈ a.headers.freeRecordList ↔
    ∃ r, a.headers.get? h = some r ∧ r.isUnused = true
  nodup : a.headers.freeRecordList.Nodup
  fresh : ∀ build linked floor reserve h t,
    (a.headers.allocate linked floor reserve).result build = .ok (some (h, t)) →
      h ∉ handles chunks

namespace Audited

variable (haudited : a.Audited build chunks filed)
include haudited

theorem nodup_recyclable : a.headers.freeRecordList.Nodup := by
  have hrecyclable := haudited.recyclable
  exact HeaderTable.nodup_freeRecordList (by omega)

theorem mem_frees_of_filed {k : Nat} (hk : k < a.classes.count) (hh : h ∈ filed k)
    (honchain : h ∈ handles chunks) : h ∈ handles (frees chunks) := by
  obtain ⟨r, -, -, hlive, hfree, -⟩ := (haudited.lines k hk).suits h hh
  obtain ⟨hget, -⟩ := Option.filter_eq_some_iff.mp hlive
  obtain ⟨c, hc, rfl⟩ := mem_handles.mp honchain
  have hdesc := haudited.chained.describes hc hget
  exact handle_mem (mem_frees.mpr ⟨hc, c.isFree_iff.mpr (hdesc.state ▸ hfree)⟩)

/-- If no more is filed than lies on the header chain, the number of the filed chunks tells
that all free chunks are filed. -/
theorem mem_filed_iff (honchain : ∀ k < a.classes.count, ∀ h ∈ filed k, h ∈ handles chunks) :
    (∃ k < a.classes.count, h ∈ filed k) ↔ h ∈ handles (frees chunks) := by
  have hsub : (List.range a.classes.count).flatMap filed ⊆ handles (frees chunks) := by
    intro g hg
    obtain ⟨k, hk, hg⟩ := List.mem_flatMap.mp hg
    have hk := List.mem_range.mp hk
    exact haudited.mem_frees_of_filed hk hg (honchain k hk g hg)
  have hperm : ((List.range a.classes.count).flatMap filed).Perm (handles (frees chunks)) :=
    (List.subperm_of_subset haudited.nodup_filed hsub).perm_of_length_le
      (by rw [haudited.filed, length_handles])
  rw [← hperm.mem_iff, List.mem_flatMap]
  simp only [List.mem_range]

theorem not_unused_of_mem (hh : h ∈ handles chunks) {r : Record} (hget : a.headers.get? h = some r) :
    r.isUnused = false := by
  obtain ⟨c, hc, rfl⟩ := mem_handles.mp hh
  obtain ⟨r', hlive⟩ := Option.isSome_iff_exists.mp (haudited.live c hc).1
  obtain ⟨hget', hused⟩ := Option.filter_eq_some_iff.mp hlive
  obtain rfl : r' = r := Option.some.inj (hget'.symm.trans hget)
  exact (Bool.not_eq_true' _).mp hused

section Unused

variable (hunused : ∀ h ∈ a.headers.freeRecordList,
  ∃ r, a.headers.get? h = some r ∧ r.isUnused = true)
include hunused

theorem not_mem_freeRecordList (hh : h ∈ handles chunks) : h ∉ a.headers.freeRecordList := by
  intro hfree
  obtain ⟨r, hget, hr⟩ := hunused h hfree
  rw [haudited.not_unused_of_mem hh hget] at hr
  exact absurd hr (by simp)

/-- If no more is recyclable than is unused, the number of the records tells that each of
them is either chained or recyclable. -/
theorem partition : ((handles chunks ++ a.headers.freeRecordList).map Handle.index).Perm
    (List.range a.headers.capacity) := by
  have hnodup : (handles chunks ++ a.headers.freeRecordList).Nodup :=
    List.nodup_append.mpr ⟨haudited.nodup_handles, haudited.nodup_recyclable,
      fun g hg g' hg' heq => haudited.not_mem_freeRecordList hunused hg (heq ▸ hg')⟩
  refine (List.subperm_of_subset (hnodup.map fun _ _ => Handle.ext_iff.mpr) ?_).perm_of_length_le ?_
  · intro i hi
    obtain ⟨g, hg, rfl⟩ := List.mem_map.mp hi
    rw [List.mem_range, ← HeaderTable.get?_isSome_iff]
    rcases List.mem_append.mp hg with hg | hg
    · obtain ⟨c, hc, rfl⟩ := mem_handles.mp hg
      obtain ⟨r, hget, -⟩ := haudited.chained.get hc
      rw [hget]
      rfl
    · obtain ⟨r, hget, -⟩ := hunused g hg
      rw [hget]
      rfl
  · have hrecyclable := haudited.recyclable
    simp only [List.length_range, List.length_map, List.length_append, length_handles]
    omega

theorem mem_freeRecordList_iff :
    h ∈ a.headers.freeRecordList ↔ ∃ r, a.headers.get? h = some r ∧ r.isUnused = true := by
  refine ⟨hunused h, fun ⟨r, hget, hr⟩ => ?_⟩
  have hmem : h ∈ handles chunks ++ a.headers.freeRecordList := by
    rw [HeaderTable.mem_iff_of_perm_range (haudited.partition hunused),
      ← HeaderTable.get?_isSome_iff, hget]
    rfl
  refine (List.mem_append.mp hmem).resolve_left fun hh => ?_
  rw [haudited.not_unused_of_mem hh hget] at hr
  exact absurd hr (by simp)

theorem not_mem_of_allocate {build' : Build} {linked : Bool} {floor reserve : Nat} {t : HeaderTable}
    (hallocate : (a.headers.allocate linked floor reserve).result build' = .ok (some (h, t))) :
    h ∉ handles chunks := by
  intro hh
  rcases HeaderTable.mem_or_eq_of_allocate hallocate with hfree | hnew
  · exact haudited.not_mem_freeRecordList hunused hh hfree
  · have hlt := (HeaderTable.mem_iff_of_perm_range (haudited.partition hunused)).mp
      (List.mem_append_left _ hh)
    omega

end Unused

theorem complete_iff : a.Complete chunks filed ↔
    (∀ k < a.classes.count, ∀ h ∈ filed k, h ∈ handles chunks) ∧
      ∀ h ∈ a.headers.freeRecordList, ∃ r, a.headers.get? h = some r ∧ r.isUnused = true := by
  constructor
  · intro hcomplete
    refine ⟨fun k hk h hh => ?_, fun h hh => (hcomplete.recyclable h).mp hh⟩
    obtain ⟨c, hc, rfl⟩ := mem_handles.mp ((hcomplete.filed h).mp ⟨k, hk, hh⟩)
    exact handle_mem (mem_frees.mp hc).1
  · rintro ⟨honchain, hunused⟩
    exact {
      filed := fun h => haudited.mem_filed_iff honchain
      recyclable := fun h => haudited.mem_freeRecordList_iff hunused
      nodup := haudited.nodup_recyclable
      fresh := fun _ _ _ _ _ _ hallocate => haudited.not_mem_of_allocate hunused hallocate }

end Audited

/-- An audit that finds nothing wrong is complete exactly if the filed chunks lie on the
header chain and the recyclable records are unused.  All else that it is meant to make sure
of follows from the numbers. -/
theorem complete_iff_of_verify (hverify : a.verify.run.result build = .ok (.ok ())) :
    ∃ chunks filed, a.headers.Lists a.headers.chain chunks none ∧
      (∀ k < a.classes.count, a.Lines build k (filed k)) ∧ a.headers.freeRecordList.Nodup ∧
      (a.Complete chunks filed ↔
        (∀ k < a.classes.count, ∀ h ∈ filed k, h ∈ handles chunks) ∧
          ∀ h ∈ a.headers.freeRecordList, ∃ r, a.headers.get? h = some r ∧ r.isUnused = true) := by
  obtain ⟨chunks, filed, haudited⟩ := exists_audited hverify
  exact ⟨chunks, filed, haudited.chained, haudited.lines, haudited.nodup_recyclable,
    haudited.complete_iff⟩

/-- An arena with two chunks in use, where the record of the first waits to be recycled and
the unused one does not. -/
def leaking : Arena := { small with
  headers := {
    records := #[⟨0, 16, none, none, .unlocked⟩, ⟨16, 16, some (nth 0), none, .unlocked⟩, .unused]
    high := 4096
    chain := some (nth 1)
    freeRecords := some (nth 0) }
  memoryHigh := 32
  highest := some (nth 1) }

theorem not_complete_leaking :
    leaking.verify.run.result .release = .ok (.ok ()) ∧ ∃ chunks filed,
      leaking.headers.Lists leaking.headers.chain chunks none ∧ ¬leaking.Complete chunks filed := by
  have hverify : leaking.verify.run.result .release = .ok (.ok ()) := by decide +kernel
  obtain ⟨chunks, filed, hlists, -, -, hiff⟩ := complete_iff_of_verify hverify
  refine ⟨hverify, chunks, filed, hlists, fun hcomplete => ?_⟩
  have hmem : nth 0 ∈ leaking.headers.freeRecordList := by decide
  obtain ⟨r, hget, hr⟩ := (hiff.mp hcomplete).2 (nth 0) hmem
  obtain rfl := Option.some.inj (hget.symm.trans rfl)
  exact absurd hr (by decide)

/-- The audit passes, and the next record handed out is that of a chunk in use. -/
theorem allocate_leaking :
    leaking.verify.run.result .debug = .ok (.ok ()) ∧
      leaking.verify.run.result .release = .ok (.ok ()) ∧
      leaking.headers.Lists leaking.headers.chain
        [⟨nth 1, 16, 16, .unlocked⟩, ⟨nth 0, 0, 16, .unlocked⟩] none ∧
      (∃ t, (leaking.headers.allocate true 32 Record.reserved).result .release =
        .ok (some (nth 0, t))) ∧
      leaking.headers.get? (nth 2) = some .unused ∧
      nth 2 ∉ leaking.headers.freeRecordList := by
  refine ⟨by decide +kernel, by decide +kernel, ?_, ⟨_, rfl⟩, rfl, by decide⟩
  exact ⟨rfl, _, rfl, ⟨rfl, rfl, rfl⟩, rfl, _, rfl, ⟨rfl, rfl, rfl⟩, rfl⟩

end Arena

end CompactingArena
