import CompactingArena.Proofs.SizeClasses.Filing
import Mathlib.Data.List.Perm.Subperm
/-!
# What the free lists hold

A chunk may be filed lower than its size warrants, as long as it is large enough for its
class.  `SizeClasses.Stocks` says what can be relied on all the same, and
`SizeClasses.Shifts` what the steps of a search may change: chunks move to the class of
their size, and at most one of them is taken out.
-/

namespace CompactingArena.SizeClasses

open Layout

variable {c c' c'' : SizeClasses} {t : HeaderTable} {region region' region'' : Region}
  {filed filed' filed'' : Nat → List Chunk} {chunk : Chunk} {taken : Option Chunk}
  {before after : List Chunk} {floor floor' k j : Nat}

/-- The chunks that are filed, class by class. -/
def stock (c : SizeClasses) (filed : Nat → List Chunk) : List Chunk :=
  (List.range c.count).flatMap filed

theorem stock_congr (h : c'.count = c.count) : c'.stock filed = c.stock filed := by
  rw [stock, stock, h]

theorem classFor_congr (h : c'.count = c.count) (size : Nat) :
    c'.classFor size = c.classFor size := by
  rw [classFor, classFor, h]

/-- The class of a size is not too high for it. -/
theorem le_of_classFor {size : Nat} (hpos : 0 < size) (hk : k ≤ c.classFor size) :
    2 ^ k ≤ size := by
  calc 2 ^ k
    _ ≤ 2 ^ size.log2 := Nat.pow_le_pow_right (by decide) (hk.trans (Nat.min_le_left _ _))
    _ ≤ size := Nat.log2_self_le (by omega)

/-- There are enough classes for every chunk of a region. -/
theorem ofRegionSize_eq {size : Nat} (hpos : 0 < size) :
    ∃ classes, ofRegionSize size = pure classes ∧ classes.clear = classes ∧
      size < 2 ^ classes.count ∧ 0 < classes.count := by
  obtain ⟨largest, hlargest, hsize⟩ : ∃ largest, Word.ceilLog2 size = pure largest ∧
      size < 2 ^ (largest + 1) := by
    obtain ⟨n, rfl⟩ : ∃ n, size = n + 1 := ⟨size - 1, by omega⟩
    cases n with
    | zero => exact ⟨0, rfl, by decide⟩
    | succ n =>
        have hlog : n + 1 < 2 ^ ((n + 1).log2 + 1) := Nat.lt_log2_self
        refine ⟨(n + 1).log2 + 1, rfl, ?_⟩
        rw [Nat.pow_succ]
        omega
  refine ⟨⟨.replicate (largest + 1) none⟩, ?_, ?_, ?_, ?_⟩
  · rw [ofRegionSize, hlargest, pure_bind]
  · simp only [clear, count, Array.size_replicate]
  · rwa [count, Array.size_replicate]
  · rw [count, Array.size_replicate]
    omega

/-- Even a region without bytes has a class, if only in a release build. -/
theorem enough_of_ofRegionSize {made : SizeClasses} {build : Build} {size : Nat}
    (hmade : (ofRegionSize size).result build = .ok made) :
    size < 2 ^ made.count ∧ 0 < made.count := by
  rcases Nat.eq_zero_or_pos size with rfl | hpos
  · cases build with
    | debug =>
        have hfault : (ofRegionSize 0).result .debug = .error .assertion := rfl
        rw [hfault] at hmade
        exact absurd hmade (by simp)
    | release =>
        obtain rfl : made = _ := (Except.ok.inj hmade).symm
        exact ⟨by decide, by decide⟩
  · obtain ⟨classes, heq, -, henough, hnonempty⟩ := ofRegionSize_eq hpos
    rw [heq, Act.result_pure, Except.ok.injEq] at hmade
    exact hmade ▸ ⟨henough, hnonempty⟩

/-- A region has enough classes if every chunk that fits into it has one of its own. -/
theorem log2_lt (henough : region.size < 2 ^ c.count) (hplaces : t.Places region chunk) :
    chunk.size.log2 < c.count := by
  have hleast := hplaces.least
  have hbound := hplaces.bound
  unfold Chunk.acme at hbound
  have hsixteen : Trailer.bytes = 16 := rfl
  rw [Nat.log2_lt (by omega)]
  omega

theorem classFor_eq_log2 (henough : region.size < 2 ^ c.count) (hplaces : t.Places region chunk) :
    c.classFor chunk.size = chunk.size.log2 := by
  have hlt := log2_lt henough hplaces
  unfold classFor
  omega

theorem mem_stock : chunk ∈ c.stock filed ↔ ∃ k < c.count, chunk ∈ filed k := by
  simp only [stock, List.mem_flatMap, List.mem_range]

theorem filter_ne_of_not_mem {l : List Chunk} (h : chunk ∉ l) :
    l.filter (fun d => some chunk ≠ some d) = l := by
  refine List.filter_eq_self.mpr fun d hd => ?_
  have hne : chunk ≠ d := fun heq => h (heq ▸ hd)
  simpa using hne

/-- A class can be looked at apart from the others. -/
theorem exists_stock_perm (hk : k < c.count) (filed : Nat → List Chunk) :
    ∃ rest, ∀ l, (c.stock (Function.update filed k l)).Perm (l ++ rest) := by
  obtain ⟨low, high, hsplit⟩ := List.append_of_mem (List.mem_range.mpr hk)
  have hnodup : (low ++ k :: high).Nodup := hsplit ▸ List.nodup_range
  have hother : ∀ j ∈ low ++ high, ∀ l, Function.update filed k l j = filed j := by
    rintro j hj l
    apply Function.update_of_ne
    rintro rfl
    exact (List.nodup_cons.mp (List.perm_middle.nodup_iff.mp hnodup)).1 hj
  refine ⟨low.flatMap filed ++ high.flatMap filed, fun l => ?_⟩
  rw [stock, hsplit, List.flatMap_append, List.flatMap_cons, Function.update_self,
    List.flatMap_congr fun j hj => hother j (List.mem_append_left _ hj) l,
    List.flatMap_congr fun j hj => hother j (List.mem_append_right _ hj) l]
  exact List.perm_append_comm_assoc _ _ _

/-- Where a chunk leaves its class, the others stay filed. -/
theorem stock_perm_cons (hk : k < c.count) (hfiled : filed k = before ++ chunk :: after) :
    (c.stock filed).Perm (chunk :: c.stock (Function.update filed k (before ++ after))) := by
  obtain ⟨rest, hrest⟩ := exists_stock_perm hk filed
  have hwhole := hrest (filed k)
  rw [Function.update_eq_self, hfiled, List.append_assoc, List.cons_append] at hwhole
  refine hwhole.trans (List.perm_middle.trans (List.Perm.cons _ ?_))
  rw [← List.append_assoc]
  exact (hrest _).symm

theorem stock_cons_perm (hk : k < c.count) (chunk : Chunk) (filed : Nat → List Chunk) :
    (c.stock (Function.update filed k (chunk :: filed k))).Perm (chunk :: c.stock filed) := by
  have h : (c.stock (Function.update filed k (chunk :: filed k))).Perm (chunk ::
      c.stock (Function.update (Function.update filed k (chunk :: filed k)) k ([] ++ filed k))) :=
    stock_perm_cons hk (Function.update_self k _ filed)
  rwa [Function.update_idem, List.nil_append, Function.update_eq_self] at h

/-- Every chunk is filed once, in a class that it is large enough for. -/
structure Stocks (c : SizeClasses) (t : HeaderTable) (region : Region)
    (filed : Nat → List Chunk) : Prop where
  files : c.Files region filed
  filable : Filable t region (c.stock filed)
  free : ∀ d ∈ c.stock filed, d.isFree = true
  once : (handles (c.stock filed)).Nodup
  large : ∀ k < c.count, ∀ d ∈ filed k, 2 ^ k ≤ d.size

/-- Every chunk is filed in the class of its size. -/
def Proper (c : SizeClasses) (filed : Nat → List Chunk) : Prop :=
  ∀ k < c.count, ∀ d ∈ filed k, c.classFor d.size = k

/-- The chunk `taken` was taken out, if any, and others of the class `floor` and of those
above it may have been moved to the class of their size. -/
structure Shifts (c : SizeClasses) (region : Region) (filed : Nat → List Chunk)
    (taken : Option Chunk) (floor : Nat) (c' : SizeClasses) (region' : Region)
    (filed' : Nat → List Chunk) : Prop where
  count : c'.count = c.count
  perm : (c.stock filed).Perm (taken.toList ++ c'.stock filed')
  origin : ∀ k < c.count, ∀ d ∈ filed' k, d ∈ filed k ∨ c.classFor d.size = k
  below : ∀ k < floor, filed' k = filed k
  changed : region.Changed region' fun i => ∃ d ∈ c.stock filed, Region.InTrailer d.acme i
  /-- Where nothing was filed too low, the other chunks stay as they are. -/
  order : c.Proper filed → ∀ k < c.count, filed' k = (filed k).filter fun d => taken ≠ some d

/-- `chunk` was filed too low and has been filed anew, at the head of the class of its size.
The class `k` is left with `rest`. -/
structure Refiles (t : HeaderTable) (c : SizeClasses) (region : Region)
    (filed : Nat → List Chunk) (k : Nat) (chunk : Chunk) (rest : List Chunk) (c' : SizeClasses)
    (region' : Region) (filed' : Nat → List Chunk) : Prop where
  stocks : c'.Stocks t region' filed'
  shifts : c.Shifts region filed none k c' region' filed'
  stays : filed' k = rest
  heads : (filed' (c.classFor chunk.size)).head? = some chunk

namespace Shifts

theorem mem_of_mem (h : c.Shifts region filed taken floor c' region' filed')
    (hchunk : chunk ∈ c'.stock filed') : chunk ∈ c.stock filed :=
  h.perm.mem_iff.mpr (List.mem_append_right _ hchunk)

theorem mono (h : c.Shifts region filed taken floor c' region' filed') (hle : floor' ≤ floor) :
    c.Shifts region filed taken floor' c' region' filed' :=
  { h with below := fun k hk => h.below k (Nat.lt_of_lt_of_le hk hle) }

theorem trans (h : c.Shifts region filed none floor c' region' filed')
    (h' : c'.Shifts region' filed' taken floor c'' region'' filed'') :
    c.Shifts region filed taken floor c'' region'' filed'' where
  count := h'.count.trans h.count
  perm := h.perm.trans h'.perm
  origin k hk d hd := by
    rcases h'.origin k (h.count ▸ hk) d hd with hd | hd
    · exact h.origin k hk d hd
    · rw [classFor_congr h.count] at hd
      exact .inr hd
  below k hk := (h'.below k hk).trans (h.below k hk)
  changed := by
    apply h.changed.trans (h'.changed.mono _)
    rintro i ⟨d, hd, hi⟩
    exact ⟨d, h.perm.mem_iff.mpr hd, hi⟩
  order hproper k hk := by
    have hsame : ∀ k < c.count, filed' k = filed k := fun k hk => by
      rw [h.order hproper k hk]
      exact List.filter_eq_self.mpr fun d _ => by simp
    have hproper' : c'.Proper filed' := fun k hk d hd => by
      rw [h.count] at hk
      rw [classFor_congr h.count]
      exact hproper k hk d (hsame k hk ▸ hd)
    rw [h'.order hproper' k (h.count ▸ hk), hsame k hk]

end Shifts

namespace Stocks

/-- What is left of the chunks can be relied on as before. -/
theorem shift (h : c.Stocks t region filed)
    (hshifts : c.Shifts region filed taken floor c' region' filed')
    (hfiles : c'.Files region' filed') : c'.Stocks t region' filed' where
  files := hfiles
  filable := (h.filable.changed hshifts.changed).subset fun _ hd => hshifts.mem_of_mem hd
  free d hd := h.free d (hshifts.mem_of_mem hd)
  once := by
    have hnodup := (hshifts.perm.map Chunk.handle).nodup_iff.mp h.once
    rw [List.map_append] at hnodup
    exact hnodup.of_append_right
  large k hk d hd := by
    have hplaces := h.filable.places d (hshifts.mem_of_mem (mem_stock.mpr ⟨k, hk, hd⟩))
    rw [hshifts.count] at hk
    rcases hshifts.origin k hk d hd with hd | hclass
    · exact h.large k hk d hd
    · exact le_of_classFor hplaces.pos hclass.ge

variable (h : c.Stocks t region filed)
include h

theorem nodup : (c.stock filed).Nodup := h.once.of_map _

/-- There are at most as many chunks as records. -/
theorem length_le : (c.stock filed).length ≤ t.capacity := by
  have hindex : ((handles (c.stock filed)).map Handle.index).Nodup :=
    h.once.map fun g g' heq => Handle.ext_iff.mpr heq
  have hbelow : (handles (c.stock filed)).map Handle.index ⊆ List.range t.capacity := by
    intro i hi
    obtain ⟨g, hg, rfl⟩ := List.mem_map.mp hi
    obtain ⟨d, hd, rfl⟩ := mem_handles.mp hg
    obtain ⟨record, hget, -⟩ := (h.filable.places d hd).record
    rw [List.mem_range, ← HeaderTable.get?_isSome_iff, hget]
    rfl
  have hlength := (hindex.subperm hbelow).length_le
  rwa [List.length_map, length_handles, List.length_range] at hlength

theorem length_filed_le (hk : k < c.count) : (filed k).length ≤ t.capacity := by
  obtain ⟨rest, hrest⟩ := exists_stock_perm hk filed
  have hwhole := (hrest (filed k)).length_eq
  rw [Function.update_eq_self, List.length_append] at hwhole
  have hcapacity := h.length_le
  omega

theorem nodup_filed (hk : k < c.count) : (filed k).Nodup :=
  (List.nodup_flatMap.mp h.nodup).1 k (List.mem_range.mpr hk)

/-- No chunk is filed in two classes. -/
theorem disjoint (hk : k < c.count) (hj : j < c.count) (hne : j ≠ k) :
    ∀ d ∈ filed j, d ∉ filed k := by
  have hpairwise := (List.nodup_flatMap.mp h.nodup).2
  rw [List.pairwise_iff_getElem] at hpairwise
  intro d hdj hdk
  rcases Nat.lt_or_gt_of_ne hne with hlt | hlt
  · have happly := hpairwise j k (by simpa using hj) (by simpa using hk) hlt
    simp only [List.getElem_range] at happly
    exact happly hdj hdk
  · have happly := hpairwise k j (by simpa using hk) (by simpa using hj) hlt
    simp only [List.getElem_range] at happly
    exact happly hdk hdj

theorem link_eq (hk : k < c.count) : c.heads[k]? = some ((filed k).head?.map Chunk.handle) := by
  obtain ⟨link, hlink, hthreads⟩ := h.files.threads k hk
  rw [hlink, hthreads.link_eq]

/-- The chunk after a filed one is the next of its list. -/
theorem nextOf_eq (hk : k < c.count) (hfiled : filed k = before ++ chunk :: after) :
    nextOf t region chunk.handle = pure (.ok (after.head?.map Chunk.handle)) := by
  obtain ⟨link, -, hthreads⟩ := h.files.threads k hk
  rw [hfiled] at hthreads
  obtain ⟨mid, -, rfl, howner, hafter⟩ := Region.threads_append.mp hthreads
  have hplaces := h.filable.places chunk (mem_stock.mpr ⟨k, hk, by simp [hfiled]⟩)
  rw [SizeClasses.nextOf_eq hplaces h.filable.size howner, hafter.link_eq]

section Unlink

variable (hk : k < c.count) (hfiled : filed k = before ++ chunk :: after)
include hk hfiled

/-- A filed chunk can be taken out of its class. -/
theorem unlink :
    ∃ c' region', c.unlink t region k (before.getLast?.map Chunk.handle) chunk.handle =
        pure (.ok (c', region')) ∧
      c'.Stocks t region' (Function.update filed k (before ++ after)) ∧
      c.Shifts region filed (some chunk) k c' region'
        (Function.update filed k (before ++ after)) := by
  obtain ⟨c', region', hunlink, hfiles, hcount, hchanged⟩ := h.files.unlink hk hfiled h.filable
    (fun j hj d hd => mem_stock.mpr ⟨j, hj, hd⟩) (h.nodup_filed hk)
    fun j hj hne => h.disjoint hk hj hne
  have hsub : ∀ j, ∀ d ∈ Function.update filed k (before ++ after) j, d ∈ filed j := by
    intro j d hd
    by_cases hj : j = k
    · subst hj
      rw [Function.update_self] at hd
      rw [hfiled]
      rcases List.mem_append.mp hd with hd | hd <;> simp [hd]
    · rwa [Function.update_of_ne hj] at hd
  have hperm : (c.stock filed).Perm
      (chunk :: c'.stock (Function.update filed k (before ++ after))) := by
    rw [stock_congr hcount]
    exact stock_perm_cons hk hfiled
  have hshifts : c.Shifts region filed (some chunk) k c' region'
      (Function.update filed k (before ++ after)) := by
    refine ⟨hcount, hperm, fun j _ d hd => .inl (hsub j d hd),
      fun j hj => Function.update_of_ne (Nat.ne_of_lt hj) _ _, hchanged.mono ?_,
      fun _ j hj => ?_⟩
    · rintro i ⟨d, hd, hi⟩
      exact ⟨d, mem_stock.mpr ⟨k, hk, by simp [hfiled, hd]⟩, hi⟩
    by_cases hjk : j = k
    · subst hjk
      have hnodup := h.nodup_filed hj
      rw [hfiled] at hnodup
      have hfresh := (List.nodup_cons.mp (List.perm_middle.nodup_iff.mp hnodup)).1
      rw [Function.update_self, hfiled, List.filter_append, List.filter_cons_of_neg (by simp),
        ← List.filter_append, filter_ne_of_not_mem hfresh]
    · rw [Function.update_of_ne hjk, filter_ne_of_not_mem fun hmem =>
        h.disjoint hk hj hjk chunk hmem (by simp [hfiled])]
  exact ⟨c', region', hunlink, h.shift hshifts hfiles, hshifts⟩

/-- A chunk that is filed too low can be filed anew. -/
theorem refile (hlow : k < c.classFor chunk.size) :
    ∃ c₁ region₁ c₂ region₂ filed₂,
      c.unlink t region k (before.getLast?.map Chunk.handle) chunk.handle =
        pure (.ok (c₁, region₁)) ∧ c₁.count = c.count ∧
      c₁.insert t region₁ chunk.handle = pure (c₂, region₂) ∧
      Refiles t c region filed k chunk (before ++ after) c₂ region₂ filed₂ := by
  obtain ⟨c₁, region₁, hunlink, hstocks, hshifts⟩ := h.unlink hk hfiled
  have hmem : chunk ∈ c.stock filed := mem_stock.mpr ⟨k, hk, by simp [hfiled]⟩
  have hperm₁ : (c.stock filed).Perm (chunk :: c₁.stock _) := hshifts.perm
  have hcount₁ := hshifts.count
  have hlt : c₁.classFor chunk.size < c₁.count := classFor_lt (by omega) _
  obtain ⟨c₂, region₂, hinsert, hfiles, hcount₂, hchanged⟩ := hstocks.files.insert
    ((h.filable.changed hshifts.changed).subset fun d hd => hperm₁.mem_iff.mpr hd)
    (fun j hj d hd => mem_stock.mpr ⟨j, hj, hd⟩)
    (List.nodup_cons.mp (hperm₁.nodup_iff.mp h.nodup)).1 (h.free chunk hmem) (by omega)
  have hclass := classFor_congr hcount₁ chunk.size
  have hperm₂ := hperm₁.trans (stock_cons_perm hlt chunk _).symm
  rw [← stock_congr hcount₂] at hperm₂
  rw [hclass] at hfiles hperm₂ hlt
  have hne : c.classFor chunk.size ≠ k := Nat.ne_of_gt hlow
  have hstay : Function.update filed k (before ++ after) (c.classFor chunk.size) =
      filed (c.classFor chunk.size) := Function.update_of_ne hne _ _
  rw [hstay] at hfiles hperm₂
  have hshifts₂ : c.Shifts region filed none k c₂ region₂ (Function.update
      (Function.update filed k (before ++ after)) (c.classFor chunk.size)
      (chunk :: filed (c.classFor chunk.size))) := by
    refine ⟨hcount₂.trans hcount₁, hperm₂, fun j hj d hd => ?_, fun j hj => ?_,
      hshifts.changed.trans (hchanged.mono fun i hi => ⟨chunk, hmem, hi⟩), fun hproper => ?_⟩
    · by_cases hjc : j = c.classFor chunk.size
      · rw [hjc, Function.update_self] at hd
        rcases List.mem_cons.mp hd with rfl | hd
        · exact .inr hjc.symm
        · exact .inl (hjc ▸ hd)
      · rw [Function.update_of_ne hjc] at hd
        exact hshifts.origin j hj d hd
    · rw [Function.update_of_ne (by omega), Function.update_of_ne (by omega)]
    · exact absurd (hproper k hk chunk (by simp [hfiled])) hne
  refine ⟨c₁, region₁, c₂, region₂, _, hunlink, hcount₁, hinsert, h.shift hshifts₂ hfiles,
    hshifts₂, ?_, ?_⟩
  · rw [Function.update_of_ne hne.symm, Function.update_self]
  · rw [Function.update_self, List.head?_cons]

end Unlink

end Stocks

end CompactingArena.SizeClasses
