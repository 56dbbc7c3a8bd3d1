import CompactingArena.Proofs.Chain.MergeSort
import CompactingArena.Proofs.HeaderTable.Records
/-!
# Sorting the header chain

The chain is sorted in place, by addresses that setting links does not change.  So
after `HeaderTable.sortChain` the chain lists the same chunks by ascending address, and
nothing but their links has changed.
-/

namespace CompactingArena.HeaderTable

open Layout

variable {t t' : HeaderTable} {l : List Chunk} {held spare : List Handle}

/-- The tables agree on everything but the chain and the links of some
records. -/
structure Relinked (t t' : HeaderTable) (changed : List Handle) : Prop where
  get_other : ∀ g, g ∉ changed → t'.get? g = t.get? g
  capacity : t'.capacity = t.capacity
  freeRecords : t'.freeRecords = t.freeRecords
  high : t'.high = t.high

theorem Relinked.kept (h : t.Relinked t' held) (hkept : t.Kept held spare) :
    t'.Kept held spare :=
  hkept.congr h.capacity h.freeRecords fun g hg => h.get_other g fun hheld =>
    hkept.not_mem_spare hheld hg

theorem Relinked.mono {changed changed' : List Handle} (h : t.Relinked t' changed)
    (hsub : changed ⊆ changed') : t.Relinked t' changed' :=
  ⟨fun g hg => h.get_other g fun hmem => hg (hsub hmem), h.capacity, h.freeRecords, h.high⟩

theorem Relinked.lists {changed : List Handle} {start stop : Option Handle}
    (h : t.Relinked t' changed) (hl : t.Lists start l stop)
    (hdisjoint : (handles l).Disjoint changed) : t'.Lists start l stop :=
  hl.frame h.get_other hdisjoint

theorem relinked_setNext (t : HeaderTable) (h : Handle) (next : Option Handle) :
    t.Relinked (t.setNext h next) [h] where
  get_other g hg := by
    rw [get?_setNext, if_neg]
    rintro rfl
    exact hg (by simp)
  capacity := capacity_setNext t h next
  freeRecords := rfl
  high := rfl

theorem relinked_set (t : HeaderTable) (h : Handle) (record : Record) :
    t.Relinked (t.set h record) [h] where
  get_other g hg := by
    rw [get?_set, if_neg]
    rintro rfl
    exact hg (by simp)
  capacity := capacity_set t h record
  freeRecords := rfl
  high := rfl

theorem Relinked.trans {t'' : HeaderTable} {first second : List Handle}
    (h : t.Relinked t' first) (h' : t'.Relinked t'' second) :
    t.Relinked t'' (first ++ second) where
  get_other g hg := by
    rw [List.mem_append, not_or] at hg
    rw [h'.get_other g hg.2, h.get_other g hg.1]
  capacity := h'.capacity.trans h.capacity
  freeRecords := h'.freeRecords.trans h.freeRecords
  high := h'.high.trans h.high

/-- Setting links changes nothing else of a record. -/
theorem map_get?_of_relinked {α : Type} {changed : List Handle}
    (h : Chain.Relinked changed t t') (f : Record → α) (hf : ∀ r next, f { r with next } = f r)
    (g : Handle) : (t'.get? g).map f = (t.get? g).map f := by
  induction h with
  | refl => rfl
  | @setNext t' k _ _ next ih =>
      change ((t'.setNext k next).get? g).map f = _
      rw [get?_setNext, ← ih]
      by_cases hk : k = g
      · rw [if_pos hk, Option.map_map]
        exact Option.map_congr fun r _ => hf r next
      · rw [if_neg hk]

theorem relinked_of_relinked {changed : List Handle} (h : Chain.Relinked changed t t') :
    t.Relinked t' changed := by
  induction h with
  | refl => exact ⟨fun _ _ => rfl, rfl, rfl, rfl⟩
  | @setNext t' g _ hg next ih =>
      refine (ih.trans (relinked_setNext t' g next)).mono ?_
      simpa using hg

/-- A chain lists the chunks that its records describe. -/
theorem lists_of_path {start : Option Handle} (hpath : Path (Chain.LinksTo t) start (handles l))
    (hrecords : ∀ c ∈ l, ∃ r, t.get? c.handle = some r ∧ r.Describes c) :
    t.Lists start l none := by
  induction l generalizing start with
  | nil => exact hpath
  | cons c l ih =>
      have ⟨hstart, following, hfollowing, hrest⟩ := hpath
      have ⟨r, hget, hdesc⟩ := hrecords c (by simp)
      have hnext : r.next = following := by
        have h : (t.get? c.handle).map Record.next = some following := hfollowing
        rwa [hget, Option.map_some, Option.some_inj] at h
      exact ⟨hstart, r, hget, hdesc, hnext ▸ ih hrest fun d hd => hrecords d (by simp [hd])⟩

/-- Sorting keeps the chunks of the chain and brings them into ascending
order. -/
theorem sortChain_eq (hlists : t.Lists t.chain l none) :
    ∃ t' sorted, t.sortChain = pure t' ∧ sorted.Perm l ∧ Ascending sorted ∧
      t'.Lists t'.chain sorted none ∧ t.Relinked t' (handles l) := by
  set addr : HeaderTable → Handle → Nat := fun t h => ((t.get? h).map (·.addr)).getD 0 with haddr
  set le : HeaderTable → Handle → Handle → Bool := fun t g h => decide (addr t g ≤ addr t h)
    with hle
  have ⟨t', order, hsort, hsorts, hpath, hrelinked⟩ := Chain.exists_mergeSort_eq le hlists.path
  -- the sorted records are those of the same chunks in another order
  have ⟨sorted, horder, hperm⟩ : ∃ sorted : List Chunk, order = handles sorted ∧ sorted.Perm l :=
    (congrFun₂ (List.eq_map_comp_perm Chunk.handle) order l).mpr hsorts.perm
  subst horder
  have hchunk : ∀ c ∈ l, addr t c.handle = c.addr := by
    intro c hc
    have ⟨r, hget, hdesc⟩ := hlists.get hc
    simp only [haddr, hget, Option.map_some, Option.getD_some, hdesc.addr]
  have hpicks : ∀ g h b, Chain.Answers le (handles l) t g h b → le t g h = b := by
    rintro g h b ⟨u, hu, rfl⟩
    simp only [hle, haddr, map_get?_of_relinked hu Record.addr fun _ _ => rfl]
  have hkeys : Sorting.Sorted (le t) (handles sorted) := by
    refine hsorts.sorted hpicks ?_ ?_ (Sorting.inRuns_one _ _)
    · intro g h k hgh hhk
      exact decide_eq_true (Nat.le_trans (of_decide_eq_true hgh) (of_decide_eq_true hhk))
    · exact fun g h => (Nat.le_total _ _).imp decide_eq_true decide_eq_true
  have hascending : Ascending sorted := by
    apply (List.pairwise_map.mp hkeys).imp_of_mem
    intro c d hc hd hcd
    have hcd := of_decide_eq_true hcd
    rwa [hchunk c (hperm.mem_iff.mp hc), hchunk d (hperm.mem_iff.mp hd)] at hcd
  have hrecords : ∀ c ∈ sorted, ∃ r, t'.get? c.handle = some r ∧ r.Describes c := by
    intro c hc
    have ⟨r, hget, hdesc⟩ := hlists.get (hperm.mem_iff.mp hc)
    have hsame := map_get?_of_relinked hrelinked (fun r => (r.addr, r.size, r.state))
      (fun _ _ => rfl) c.handle
    rw [hget, Option.map_some, Option.map_eq_some_iff] at hsame
    have ⟨r', hget', heq⟩ := hsame
    simp only [Prod.mk.injEq] at heq
    exact ⟨r', hget', heq.1.trans hdesc.addr, heq.2.1.trans hdesc.size, heq.2.2.trans hdesc.state⟩
  have hsame := relinked_of_relinked hrelinked
  refine ⟨{ t' with chain := (handles sorted).head? }, sorted, ?_, hperm, hascending,
    (lists_of_path hpath hrecords).congr fun _ _ => rfl,
    ⟨hsame.get_other, hsame.capacity, hsame.freeRecords, hsame.high⟩⟩
  rw [sortChain, hsort]
  rfl

end CompactingArena.HeaderTable
