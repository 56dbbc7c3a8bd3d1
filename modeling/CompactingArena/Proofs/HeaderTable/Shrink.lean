import CompactingArena.Proofs.HeaderTable.Records
import Mathlib.Data.List.DropRight
/-!
# Shrinking the header table

`HeaderTable.shrink` drops the unused records at the end of the table.  The held
records stay as they are, the free-record chain lists exactly the unused records
that remain, and the last record of the table is a held one.
-/

namespace CompactingArena.HeaderTable

variable {t : HeaderTable} {held spare : List Handle}

/-! ## The records that remain -/

/-- The records fall into those that remain and the unused ones at the end. -/
theorem exists_trimmed (records : Array Record) :
    ∃ tail : List Record, records.toList = (trimmed records).toList ++ tail ∧
      (∀ r ∈ tail, r.isUnused = true) ∧
      ∀ r ∈ (trimmed records).toList.getLast?, r.isUnused = false := by
  have hkept : (trimmed records).toList = records.toList.rdropWhile Record.isUnused := rfl
  refine ⟨records.toList.rtakeWhile Record.isUnused, ?_, fun r => List.mem_rtakeWhile_imp, ?_⟩
  · rw [hkept, List.rdropWhile_append_rtakeWhile]
  · intro r hr
    obtain ⟨hne, hlast⟩ := List.mem_getLast?_eq_getLast hr
    rw [hlast]
    simpa [hkept] using List.rdropWhile_last_not Record.isUnused records.toList (hkept ▸ hne)

theorem size_trimmed_le (records : Array Record) : (trimmed records).size ≤ records.size := by
  obtain ⟨tail, hsplit, -⟩ := exists_trimmed records
  have := congrArg List.length hsplit
  simp only [List.length_append, Array.length_toList] at this
  omega

theorem getElem?_trimmed {records : Array Record} {i : Nat} (hi : i < (trimmed records).size) :
    (trimmed records)[i]? = records[i]? := by
  obtain ⟨tail, hsplit, -⟩ := exists_trimmed records
  rw [← Array.getElem?_toList, ← Array.getElem?_toList, hsplit,
    List.getElem?_append_left (by simpa using hi)]

theorem lt_size_trimmed {records : Array Record} {i : Nat} {r : Record}
    (hget : records[i]? = some r) (hlive : r.isUnused = false) : i < (trimmed records).size := by
  obtain ⟨tail, hsplit, hunused, -⟩ := exists_trimmed records
  by_contra hi
  rw [← Array.getElem?_toList, hsplit, List.getElem?_append_right (by simpa using hi)] at hget
  rw [hunused r (List.mem_of_getElem? hget)] at hlive
  exact absurd hlive (by simp)

/-! ## The rebuilt free-record chain -/

/-- One step of `linkUnused`. -/
def linkIndex (index : Nat) (linked : Option Handle × Array Record) :
    Option Handle × Array Record :=
  match linked.2[index]? with
  | some record =>
      if record.isUnused then
        (Handle.ofIndex? index,
          linked.2.setIfInBounds index { record with nextUnused := linked.1 })
      else
        linked
  | none => linked

theorem linkUnused_eq (records : Array Record) :
    linkUnused records = (List.range records.size).foldr linkIndex (none, records) :=
  rfl

/-- The unused records among some positions. -/
def unusedAt (records : Array Record) (indices : List Nat) : List Nat :=
  indices.filter fun i => (records[i]?).any Record.isUnused

/-- The unused records among `indices` are linked, and nothing else has changed. -/
structure Links (t : HeaderTable) (records : Array Record) (indices : List Nat)
    (linked : Option Handle × Array Record) : Prop where
  size : linked.2.size = records.size
  kept : ∀ i : Nat, (records[i]?).any Record.isUnused = false ∨ i ∉ indices →
    linked.2[i]? = records[i]?
  chain : ∃ spare, spare.map Handle.index = unusedAt records indices ∧
    Recycles { t with records := linked.2 } linked.1 spare

section Links

variable {records : Array Record} {indices : List Nat} {linked : Option Handle × Array Record}
  {index : Nat}

/-- A record that describes a chunk is passed. -/
theorem Links.pass (h : t.Links records indices linked) (hnot : index ∉ indices)
    (hused : (records[index]?).any Record.isUnused = false) :
    t.Links records (index :: indices) (linkIndex index linked) := by
  obtain ⟨spare, hspare, hrec⟩ := h.chain
  have hstep : linkIndex index linked = linked := by
    rw [linkIndex]
    simp only [h.kept index (.inr hnot)]
    cases hget : records[index]? with
    | none => rfl
    | some r =>
        rw [hget, Option.any_some] at hused
        simp only [hused]
        rfl
  rw [hstep]
  refine ⟨h.size, fun i hi => ?_, spare, ?_, hrec⟩
  · by_cases hi' : i ∈ indices
    · exact h.kept i (.inl (hi.resolve_right fun hout => hout (by simp [hi'])))
    · exact h.kept i (.inr hi')
  · rw [hspare, unusedAt, unusedAt, List.filter_cons, hused]
    rfl

/-- An unused record becomes the head of the chain. -/
theorem Links.link (h : t.Links records indices linked) (hnot : index ∉ indices)
    (hlimit : index < Handle.limit)
    (hblank : ∀ r, records[index]? = some r → r.isUnused = true → r.Blank)
    (hunused : (records[index]?).any Record.isUnused = true) :
    t.Links records (index :: indices) (linkIndex index linked) := by
  obtain ⟨spare, hspare, hrec⟩ := h.chain
  obtain ⟨record, hget, hrecord⟩ : ∃ r, records[index]? = some r ∧ r.isUnused = true := by
    rwa [Option.any_eq_true] at hunused
  have hblank' : Record.Blank { record with nextUnused := linked.1 } :=
    ⟨hrecord, (hblank record hget hrecord).size, (hblank record hget hrecord).state⟩
  have hlinked : linked.2[index]? = some record := (h.kept index (.inr hnot)).trans hget
  have hlt : index < linked.2.size := (Array.getElem?_eq_some_iff.mp hlinked).1
  have hstep : linkIndex index linked = (Handle.ofIndex? index,
      linked.2.setIfInBounds index { record with nextUnused := linked.1 }) := by
    rw [linkIndex]
    simp only [hlinked, hrecord, if_true]
  have hself : (linked.2.setIfInBounds index { record with nextUnused := linked.1 })[index]? =
      some { record with nextUnused := linked.1 } := by
    rw [Array.getElem?_setIfInBounds, if_pos rfl, if_pos hlt]
  have hother : ∀ i, index ≠ i →
      (linked.2.setIfInBounds index { record with nextUnused := linked.1 })[i]? = linked.2[i]? := by
    intro i hi
    rw [Array.getElem?_setIfInBounds, if_neg hi]
  rw [hstep]
  refine ⟨?_, fun i hi => ?_, ⟨index, hlimit⟩ :: spare, ?_, dif_pos hlimit,
    { record with nextUnused := linked.1 }, hself, hblank', hrec.congr fun g hg => ?_⟩
  · rw [Array.size_setIfInBounds, h.size]
  · have hne : index ≠ i := by
      rintro rfl
      rcases hi with hi | hi
      · exact absurd (hunused.symm.trans hi) (by simp)
      · exact hi (by simp)
    rw [hother i hne]
    exact h.kept i (hi.imp_right fun hout hmem => hout (by simp [hmem]))
  · rw [List.map_cons, hspare, unusedAt, unusedAt, List.filter_cons, if_pos hunused]
  · apply hother g.index
    rintro rfl
    have hmem : g.index ∈ spare.map Handle.index := List.mem_map_of_mem hg
    rw [hspare] at hmem
    exact hnot (List.mem_filter.mp hmem).1

end Links

/-- Linking the unused records at ascending positions makes a free-record chain
of them and changes nothing else. -/
theorem links_foldr (t : HeaderTable) (records : Array Record) {indices : List Nat}
    (hascending : indices.Pairwise (· < ·)) (hlimit : ∀ i ∈ indices, i < Handle.limit)
    (hblank : ∀ i ∈ indices, ∀ r, records[i]? = some r → r.isUnused = true → r.Blank) :
    t.Links records indices (indices.foldr linkIndex (none, records)) := by
  induction indices with
  | nil => exact ⟨rfl, fun _ _ => rfl, [], rfl, rfl⟩
  | cons index indices ih =>
      obtain ⟨hlater, hascending⟩ := List.pairwise_cons.mp hascending
      have hrest := ih hascending (fun i hi => hlimit i (by simp [hi]))
        fun i hi => hblank i (by simp [hi])
      have hnot : index ∉ indices := fun h => absurd (hlater index h) (by omega)
      by_cases hunused : (records[index]?).any Record.isUnused = true
      · exact hrest.link hnot (hlimit index (by simp)) (hblank index (by simp)) hunused
      · exact hrest.pass hnot (by simpa using hunused)

/-! ## The shrunk table -/

/-- The record that is last once the unused ones are dropped is a held one. -/
theorem Kept.held_last (hkept : t.Kept held spare) :
    (trimmed t.records).size = 0 ∨ ∃ h ∈ held, h.index + 1 = (trimmed t.records).size := by
  obtain ⟨tail, -, -, hlast⟩ := exists_trimmed t.records
  have hle : (trimmed t.records).size ≤ t.capacity := size_trimmed_le t.records
  have hlimit := hkept.capacity_le
  rcases Nat.eq_zero_or_pos (trimmed t.records).size with hzero | hpos
  · exact .inl hzero
  right
  obtain ⟨h, hindex⟩ : ∃ h : Handle, h.index = (trimmed t.records).size - 1 :=
    ⟨⟨(trimmed t.records).size - 1, by omega⟩, rfl⟩
  obtain ⟨r, hget⟩ : ∃ r, (trimmed t.records)[h.index]? = some r :=
    ⟨_, Array.getElem?_eq_getElem (by omega)⟩
  have hr : r.isUnused = false := by
    apply hlast
    rw [List.getLast?_eq_getElem?, Array.length_toList, Array.getElem?_toList, ← hindex, hget]
    rfl
  refine ⟨h, ?_, by omega⟩
  have hindex : h.index < t.capacity := by omega
  rcases List.mem_append.mp (hkept.mem_iff.mpr hindex) with hheld | hspare
  · exact hheld
  · obtain ⟨r', hget', hunused⟩ := hkept.recycled.unused hspare
    have hsame : t.get? h = some r := by
      rw [HeaderTable.get?, ← getElem?_trimmed (by omega)]
      exact hget
    rw [hsame, Option.some.injEq] at hget'
    rw [hget', hunused] at hr
    exact absurd hr (by simp)

/-- The positions that remain are those of the held records and of the unused
ones that are not dropped. -/
theorem Kept.partition_trimmed (hkept : t.Kept held spare)
    (hlive : ∀ h ∈ held, ∃ r, t.get? h = some r ∧ r.isUnused = false) :
    (held.map Handle.index ++
      unusedAt (trimmed t.records) (List.range (trimmed t.records).size)).Perm
        (List.range (trimmed t.records).size) := by
  have hlimit := hkept.capacity_le
  have hle : (trimmed t.records).size ≤ t.capacity := size_trimmed_le t.records
  have hheld : ∀ h ∈ held, ∃ r, (trimmed t.records)[h.index]? = some r ∧ r.isUnused = false ∧
      h.index < (trimmed t.records).size := by
    intro h hh
    obtain ⟨r, hget, hr⟩ := hlive h hh
    have hlt := lt_size_trimmed hget hr
    exact ⟨r, (getElem?_trimmed hlt).trans hget, hr, hlt⟩
  have hnodup := hkept.partition.nodup_iff.mpr List.nodup_range
  rw [List.map_append] at hnodup
  rw [List.perm_ext_iff_of_nodup _ List.nodup_range]
  · intro i
    rw [List.mem_append, List.mem_range]
    constructor
    · rintro (hi | hi)
      · obtain ⟨h, hh, rfl⟩ := List.mem_map.mp hi
        obtain ⟨-, -, -, hlt⟩ := hheld h hh
        exact hlt
      · exact List.mem_range.mp (List.mem_filter.mp hi).1
    · intro hi
      obtain ⟨h, rfl⟩ : ∃ h : Handle, h.index = i := ⟨⟨i, by omega⟩, rfl⟩
      rcases List.mem_append.mp (hkept.mem_iff.mpr (by omega : h.index < t.capacity)) with hh | hh
      · exact .inl (List.mem_map_of_mem hh)
      · obtain ⟨r, hget, hunused⟩ := hkept.recycled.unused hh
        have hsame : (trimmed t.records)[h.index]? = some r := (getElem?_trimmed hi).trans hget
        exact .inr (List.mem_filter.mpr ⟨List.mem_range.mpr hi, by rw [hsame]; simpa using hunused⟩)
  · refine List.nodup_append.mpr ⟨(List.nodup_append.mp hnodup).1, List.nodup_range.filter _, ?_⟩
    rintro i hi j hj rfl
    obtain ⟨h, hh, rfl⟩ := List.mem_map.mp hi
    obtain ⟨r, hget, hr, -⟩ := hheld h hh
    have hany := (List.mem_filter.mp hj).2
    rw [hget] at hany
    simp [hr] at hany

/-- Where the held records describe chunks, an unused one waits to be recycled. -/
theorem Kept.blank_of_unused (hkept : t.Kept held spare)
    (hlive : ∀ h ∈ held, ∃ r, t.get? h = some r ∧ r.isUnused = false) {i : Nat} {r : Record}
    (hget : t.records[i]? = some r) (hunused : r.isUnused = true) : r.Blank := by
  have hlt : i < t.capacity := (Array.getElem?_eq_some_iff.mp hget).1
  have hlimit := hkept.capacity_le
  obtain ⟨h, rfl⟩ : ∃ h : Handle, h.index = i := ⟨⟨i, by omega⟩, rfl⟩
  rcases List.mem_append.mp (hkept.mem_iff.mpr hlt) with hh | hh
  · obtain ⟨r', hget', hr'⟩ := hlive h hh
    obtain rfl : r = r' := Option.some.inj (hget.symm.trans hget')
    rw [hunused] at hr'
    exact absurd hr' (by simp)
  · obtain ⟨r', hget', hblank⟩ := hkept.recycled.blank hh
    obtain rfl : r = r' := Option.some.inj (hget.symm.trans hget')
    exact hblank

/-- What shrinking makes of a table: the `popped` unused records at its end are gone. -/
structure Shrinks (t : HeaderTable) (held spare : List Handle) (popped : Nat) (t' : HeaderTable)
    (spare' : List Handle) : Prop where
  kept : t'.Kept held spare'
  get : ∀ h ∈ held, t'.get? h = t.get? h
  chain : t'.chain = t.chain
  high : t'.high = t.high
  capacity : t'.capacity + popped = t.capacity
  /-- The record that is last now is a held one. -/
  last : t'.capacity = 0 ∨ ∃ h ∈ held, h.index + 1 = t'.capacity
  idle : popped = 0 → t' = t ∧ spare' = spare
  /-- The free-record chain is only built anew if something was dropped. -/
  ascending : popped ≠ 0 → (spare'.map Handle.index).Pairwise (· < ·)

/-- Shrinking keeps the held records, and leaves a held record last. -/
theorem Kept.shrink (hkept : t.Kept held spare)
    (hlive : ∀ h ∈ held, ∃ r, t.get? h = some r ∧ r.isUnused = false) :
    ∃ popped t' spare', t.shrink.Yields (popped, t') ∧
      t.Shrinks held spare popped t' spare' := by
  have hle : (trimmed t.records).size ≤ t.capacity := size_trimmed_le t.records
  have hend := hkept.held_last
  by_cases hpopped : t.capacity - (trimmed t.records).size = 0
  · have hsize : t.capacity = (trimmed t.records).size := by omega
    refine ⟨0, t, spare, ?_, hkept, fun _ _ => rfl, rfl, rfl, rfl, hsize ▸ hend,
      fun _ => ⟨rfl, rfl⟩, fun h => absurd rfl h⟩
    rw [HeaderTable.shrink]
    simp only [hpopped, if_true]
    exact Act.yields_pure _
  · have hlimit := hkept.capacity_le
    have hpositions := List.pairwise_lt_range (n := (trimmed t.records).size)
    obtain ⟨hsize, hkeep, spare', hspare', hrec⟩ :=
      t.links_foldr (trimmed t.records) hpositions
        (fun i hi => by
          have hi := List.mem_range.mp hi
          omega)
        fun i hi r hget hunused =>
          hkept.blank_of_unused hlive (getElem?_trimmed (List.mem_range.mp hi) ▸ hget) hunused
    rw [← linkUnused_eq] at hsize hkeep hrec
    set t' : HeaderTable :=
      { t with
        records := (linkUnused (trimmed t.records)).2
        freeRecords := (linkUnused (trimmed t.records)).1 }
    have hcapacity : t'.capacity = (trimmed t.records).size := hsize
    refine ⟨t.capacity - (trimmed t.records).size, t', spare', ?_, ⟨?_, hrec.congr fun _ _ => rfl⟩,
      ?_, rfl, rfl, ?_, ?_, fun h => absurd h hpopped, fun _ => ?_⟩
    · rw [HeaderTable.shrink]
      simp only [hpopped, if_false]
      exact (Act.yields_log _).bind (Act.yields_pure _)
    · rw [hcapacity, List.map_append, hspare']
      exact hkept.partition_trimmed hlive
    · intro h hh
      obtain ⟨r, hget, hr⟩ := hlive h hh
      have hsame : (trimmed t.records)[h.index]? = some r :=
        (getElem?_trimmed (lt_size_trimmed hget hr)).trans hget
      exact (hkeep h.index (.inl (by rw [hsame]; simpa using hr))).trans (hsame.trans hget.symm)
    · omega
    · rwa [hcapacity]
    · rw [hspare']
      exact hpositions.sublist List.filter_sublist

end CompactingArena.HeaderTable
