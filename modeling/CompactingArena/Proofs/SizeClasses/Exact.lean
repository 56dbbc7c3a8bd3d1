import CompactingArena.Proofs.SizeClasses.Search
/-!
# Exact filing

`SizeClasses.Covers` says that some free chunks are filed once each, in the
class of their size.  This is what an arena keeps its free lists like, and what a
search leaves like that.
-/

namespace CompactingArena.SizeClasses

open Layout

variable {c c' : SizeClasses} {t : HeaderTable} {region region' : Region}
  {filed filed' : Nat → List Chunk} {free free' : List Chunk} {chunk : Chunk} {k : Nat}

/-- Each class holds the chunks of its sizes. -/
def Exact (filed : Nat → List Chunk) (free : List Chunk) : Prop :=
  ∀ k, (filed k).Perm (free.filter fun d => d.size.log2 = k)

/-- The chunks filed are exactly some free chunks, each in the class of its
size. -/
structure Covers (c : SizeClasses) (region : Region) (free : List Chunk) : Prop where
  filed : ∃ filed, c.Files region filed ∧ Exact filed free
  enough : region.size < 2 ^ c.count
  nonempty : 0 < c.count

namespace Exact

variable (hexact : Exact filed free)
include hexact

theorem mem_iff {d : Chunk} : d ∈ filed k ↔ d ∈ free ∧ d.size.log2 = k := by
  rw [(hexact k).mem_iff, List.mem_filter, decide_eq_true_eq]

theorem nodup (hnodup : free.Nodup) : (filed k).Nodup :=
  (hexact k).nodup_iff.mpr (hnodup.filter _)

theorem length_le (k : Nat) : (filed k).length ≤ free.length := by
  calc (filed k).length
    _ = (free.filter fun d => d.size.log2 = k).length := (hexact k).length_eq
    _ ≤ free.length := List.length_filter_le _ _

theorem disjoint {j : Nat} (hne : j ≠ k) : ∀ d ∈ filed j, d ∉ filed k := by
  intro d hj hk
  exact hne ((hexact.mem_iff.mp hj).2.symm.trans (hexact.mem_iff.mp hk).2)

theorem perm (hperm : free.Perm free') : Exact filed free' := fun k =>
  (hexact k).trans (hperm.filter _)

theorem cons : Exact (Function.update filed chunk.size.log2 (chunk :: filed chunk.size.log2))
    (chunk :: free) := by
  intro k
  by_cases hk : k = chunk.size.log2
  · subst hk
    rw [Function.update_self, List.filter_cons_of_pos (by simp)]
    exact (hexact _).cons _
  · rw [Function.update_of_ne hk, List.filter_cons_of_neg (by simpa using Ne.symm hk)]
    exact hexact k

/-- The chunks that are filed are the free ones. -/
theorem stock_perm (hnodup : free.Nodup) (hlog : ∀ d ∈ free, d.size.log2 < c.count) :
    (c.stock filed).Perm free := by
  have hstock : (c.stock filed).Nodup := by
    refine List.nodup_flatMap.mpr ⟨fun k _ => hexact.nodup hnodup, ?_⟩
    exact List.nodup_range.imp fun hne d => hexact.disjoint hne d
  refine (List.perm_ext_iff_of_nodup hstock hnodup).mpr fun d => ?_
  rw [mem_stock]
  constructor
  · rintro ⟨k, -, hd⟩
    exact (hexact.mem_iff.mp hd).1
  · intro hd
    exact ⟨_, hlog d hd, hexact.mem_iff.mpr ⟨hd, rfl⟩⟩

end Exact

namespace Covers

theorem perm (h : c.Covers region free) (hperm : free.Perm free') : c.Covers region free' := by
  obtain ⟨⟨filed, hfiles, hexact⟩, henough, hcount⟩ := h
  exact ⟨⟨filed, hfiles, hexact.perm hperm⟩, henough, hcount⟩

/-- Only the trailers of the free chunks matter. -/
theorem congr (h : c.Covers region free) (hsize : region'.size = region.size)
    (hsame : ∀ d ∈ free, region'.trailer d.acme = region.trailer d.acme) :
    c.Covers region' free := by
  obtain ⟨⟨filed, hfiles, hexact⟩, henough, hcount⟩ := h
  refine ⟨⟨filed, ⟨fun j hj => ?_⟩, hexact⟩, hsize ▸ henough, hcount⟩
  obtain ⟨link, hlink, hthreads⟩ := hfiles.threads j hj
  exact ⟨link, hlink, hthreads.congr fun d hd => hsame d (hexact.mem_iff.mp hd).1⟩

theorem clear (c : SizeClasses) (henough : region.size < 2 ^ c.count) (hnonempty : 0 < c.count) :
    c.clear.Covers region [] := by
  have hcount : c.clear.count = c.count := Array.size_replicate
  refine ⟨⟨fun _ => [], ⟨fun j hj => ⟨none, ?_, rfl⟩⟩, fun k => .refl _⟩, by rwa [hcount],
    by rwa [hcount]⟩
  rw [hcount] at hj
  rw [SizeClasses.clear, Array.getElem?_replicate, if_pos hj]

theorem log2_lt (h : c.Covers region free) (hplaces : t.Places region chunk) :
    chunk.size.log2 < c.count :=
  SizeClasses.log2_lt h.enough hplaces

theorem classFor_eq (h : c.Covers region free) (hplaces : t.Places region chunk) :
    c.classFor chunk.size = chunk.size.log2 :=
  classFor_eq_log2 h.enough hplaces

theorem insert (h : c.Covers region free) (hfilable : Filable t region (chunk :: free))
    (hchunk : chunk ∉ free) (hfree : chunk.isFree = true) :
    ∃ c' region', c.insert t region chunk.handle = pure (c', region') ∧
      c'.Covers region' (chunk :: free) ∧ region.Changed region' (Region.InTrailer chunk.acme) := by
  have hplaces := hfilable.places chunk (by simp)
  obtain ⟨⟨filed, hfiles, hexact⟩, henough, hcount⟩ := id h
  obtain ⟨c', region', hinsert, hfiles', hcount', hchanged⟩ := hfiles.insert hfilable
    (fun j _ d hd => (hexact.mem_iff.mp hd).1) hchunk hfree hcount
  rw [h.classFor_eq hplaces] at hfiles'
  refine ⟨c', region', hinsert, ⟨⟨_, hfiles', hexact.cons⟩, ?_, ?_⟩, hchanged⟩
  · rwa [hchanged.size, hcount']
  · rwa [hcount']

end Covers

/-! ## Searching -/

theorem Shifts.proper {taken : Option Chunk} {floor : Nat}
    (h : c.Shifts region filed taken floor c' region' filed') (hproper : c.Proper filed) :
    c'.Proper filed' := by
  intro k hk d hd
  rw [h.count] at hk
  rw [classFor_congr h.count]
  exact (h.origin k hk d hd).elim (hproper k hk d) id

/-- Lists in which every chunk is filed in the class of its size are exact. -/
theorem Stocks.covers (h : c.Stocks t region filed) (henough : region.size < 2 ^ c.count)
    (hnonempty : 0 < c.count) (hproper : c.Proper filed) :
    c.Covers region (c.stock filed) := by
  have hclass : ∀ j < c.count, ∀ d ∈ filed j, d.size.log2 = j := by
    intro j hj d hd
    rw [← classFor_eq_log2 henough (h.filable.places d (mem_stock.mpr ⟨j, hj, hd⟩))]
    exact hproper j hj d hd
  -- beyond the last class nothing is filed
  obtain ⟨own, hown⟩ : ∃ own : Nat → List Chunk, ∀ k, own k = if k < c.count then filed k else [] :=
    ⟨_, fun _ => rfl⟩
  refine ⟨⟨own, ⟨fun k hk => ?_⟩, fun k => ?_⟩, henough, hnonempty⟩
  · rw [hown, if_pos hk]
    exact h.files.threads k hk
  by_cases hk : k < c.count
  · rw [hown, if_pos hk]
    refine (List.perm_ext_iff_of_nodup (h.nodup_filed hk) (h.nodup.filter _)).mpr fun d => ?_
    rw [List.mem_filter, mem_stock, decide_eq_true_eq]
    constructor
    · intro hd
      exact ⟨⟨k, hk, hd⟩, hclass k hk d hd⟩
    · rintro ⟨⟨j, hj, hd⟩, rfl⟩
      rwa [hclass j hj d hd]
  · rw [hown, if_neg hk, List.filter_eq_nil_iff.mpr fun d hd => ?_]
    obtain ⟨j, hj, hd⟩ := mem_stock.mp hd
    rw [decide_eq_true_eq, hclass j hj d hd]
    omega

/-- A chunk was taken out, and at most the trailers of the others changed. -/
structure Takes (c : SizeClasses) (region : Region) (free : List Chunk) (chunk : Chunk)
    (c' : SizeClasses) (region' : Region) : Prop where
  rest : ∃ free', free.Perm (chunk :: free') ∧ c'.Covers region' free'
  changed : region.Changed region' fun i => ∃ d ∈ free, Region.InTrailer d.acme i

/-- A search takes a chunk out that is large enough, unless there is none. -/
theorem Covers.find (h : c.Covers region free) (hfilable : Filable t region free)
    (hfree : ∀ d ∈ free, d.isFree = true) (hnodup : (handles free).Nodup) {least : Nat}
    (hleast : 0 < least) :
    ((∀ d ∈ free, d.size < least) ∧ c.find t region least = pure (.ok none, c, region)) ∨
      ∃ chunk ∈ free, least ≤ chunk.size ∧ ∃ c' region',
        (c.find t region least).Yields (.ok (some chunk.handle), c', region') ∧
          c.Takes region free chunk c' region' := by
  obtain ⟨filed, hfiles, hexact⟩ := h.filed
  have hlog : ∀ d ∈ free, d.size.log2 < c.count := fun d hd => h.log2_lt (hfilable.places d hd)
  have hperm := hexact.stock_perm hnodup.of_map hlog
  have hmem : ∀ d ∈ c.stock filed, d ∈ free := fun d hd => hperm.mem_iff.mp hd
  have hproper : c.Proper filed := by
    intro k hk d hd
    rw [h.classFor_eq (hfilable.places d (hmem d (mem_stock.mpr ⟨k, hk, hd⟩)))]
    exact (hexact.mem_iff.mp hd).2
  have hstocks : c.Stocks t region filed :=
    { files := hfiles
      filable := hfilable.subset hmem
      free := fun d hd => hfree d (hmem d hd)
      once := (hperm.map Chunk.handle).nodup_iff.mpr hnodup
      large := fun k hk d hd => by
        have hpos := (hfilable.places d (hexact.mem_iff.mp hd).1).pos
        exact le_of_classFor hpos (hproper k hk d hd).ge }
  rcases hstocks.find h.nonempty hleast with
    ⟨hsmall, -, hfind⟩ | ⟨d, c', region', filed', ⟨hyields, hstocks', hshifts⟩, hfit, -⟩
  · refine .inl ⟨fun d hd => ?_, hfind⟩
    rcases Nat.lt_or_ge d.size.log2 (c.classFor least) with hlow | hhigh
    · calc d.size
        _ < 2 ^ (d.size.log2 + 1) := Nat.lt_log2_self
        _ ≤ 2 ^ c.classFor least := Nat.pow_le_pow_right (by decide) hlow
        _ ≤ least := le_of_classFor hleast (le_refl _)
    · exact hsmall _ hhigh (hlog d hd) d (hexact.mem_iff.mpr ⟨hd, rfl⟩)
  · have hrest := hperm.symm.trans hshifts.perm
    refine .inr ⟨d, hrest.mem_iff.mpr (by simp), hfit, c', region', hyields, ⟨_, hrest, ?_⟩, ?_⟩
    · refine hstocks'.covers ?_ (hshifts.count ▸ h.nonempty) (hshifts.proper hproper)
      rw [hshifts.changed.size, hshifts.count]
      exact h.enough
    · exact hshifts.changed.mono fun i ⟨e, he, hi⟩ => ⟨e, hmem e he, hi⟩

end CompactingArena.SizeClasses
