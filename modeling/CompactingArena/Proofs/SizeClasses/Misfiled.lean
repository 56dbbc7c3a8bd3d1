import CompactingArena.Proofs.SizeClasses.Search
/-!
# Searching lists with misfiled chunks

A chunk that has grown since it was filed sits in a class that is too low for it.  A search
of lists with such chunks is as exact as any other: it finds a chunk if one is large enough,
and of those that it passes none is lost, filed twice or filed wrongly.
-/

namespace CompactingArena.SizeClasses

open Layout

variable {c c' : SizeClasses} {t : HeaderTable} {region region' : Region}
  {filed filed' : Nat → List Chunk} {chunk : Chunk} {taken : Option Chunk} {floor least : Nat}

/-- What a search for `least` bytes does, where `taken` is what it takes out and
`filed'` are the lists that it leaves. -/
structure Finding (t : HeaderTable) (c : SizeClasses) (region : Region)
    (filed : Nat → List Chunk) (least : Nat) (taken : Option Chunk) (c' : SizeClasses)
    (region' : Region) (filed' : Nat → List Chunk) : Prop where
  yields : (c.find t region least).Yields (.ok (taken.map Chunk.handle), c', region')
  natural : c.classOf least = pure (c.classFor least)
  isSome_iff : taken.isSome = true ↔
    ∃ k, c.classFor least ≤ k ∧ k < c.count ∧ ∃ d ∈ filed k, least ≤ d.size
  fits : ∀ d ∈ taken, least ≤ d.size ∧ ∃ r, t.get? d.handle = some r ∧ r.Describes d
  gone : ∀ d ∈ taken, d.handle ∉ handles (c'.stock filed')
  /-- Every other chunk is filed once, as before. -/
  perm : (c.stock filed).Perm (taken.toList ++ c'.stock filed')
  stocks : c'.Stocks t region' filed'
  count : c'.count = c.count
  size : region'.size = region.size
  origin : ∀ k < c.count, ∀ d ∈ filed' k, d ∈ filed k ∨ d.size.log2 = k
  /-- Where nothing was misfiled, the search is a first fit. -/
  first : (∀ k < c.count, ∀ d ∈ filed k, d.size.log2 = k) →
    taken = c.firstFit filed least ∧
      ∀ k < c.count, filed' k = (filed k).filter fun d => taken ≠ some d

/-- A chunk that was taken out was filed in a class that the search looks through. -/
theorem Stocks.exists_filed (h : c.Stocks t region filed)
    (hshifts : c.Shifts region filed (some chunk) floor c' region' filed') :
    ∃ k, floor ≤ k ∧ k < c.count ∧ chunk ∈ filed k := by
  have hperm : (c.stock filed).Perm (chunk :: c'.stock filed') := hshifts.perm
  obtain ⟨hfresh, -⟩ := List.nodup_cons.mp (hperm.nodup_iff.mp h.nodup)
  obtain ⟨k, hk, hchunk⟩ := mem_stock.mp (hperm.mem_iff.mpr List.mem_cons_self)
  refine ⟨k, Nat.le_of_not_lt fun hlow => hfresh ?_, hk, hchunk⟩
  rw [← hshifts.below k hlow] at hchunk
  exact mem_stock.mpr ⟨k, hshifts.count ▸ hk, hchunk⟩

/-- On lists of any chunks, each of which is filed once and large enough for its class, a
search finds a chunk exactly if one is large enough.  It leaves such lists again, with the
others in their old class or in the class of their size. -/
theorem finding_of_stocks {made : SizeClasses} {build : Build}
    (hmade : (ofRegionSize region.size).result build = .ok made) (hcount : c.count = made.count)
    (hstocks : c.Stocks t region filed) (hleast : 1 ≤ least) :
    ∃ taken c' region' filed', Finding t c region filed least taken c' region' filed' := by
  obtain ⟨henough, hnonempty⟩ := enough_of_ofRegionSize hmade
  rw [← hcount] at henough hnonempty
  have hclass : ∀ k < c.count, ∀ d ∈ filed k, c.classFor d.size = d.size.log2 := fun k hk d hd =>
    classFor_eq_log2 henough (hstocks.filable.places d (mem_stock.mpr ⟨k, hk, hd⟩))
  have hproper : (∀ k < c.count, ∀ d ∈ filed k, d.size.log2 = k) → c.Proper filed :=
    fun hexact k hk d hd => (hclass k hk d hd).trans (hexact k hk d hd)
  rcases hstocks.find hnonempty hleast with
    ⟨hsmall, hnone, hfind⟩ | ⟨d, c', region', filed', ⟨hyields, hstocks', hshifts⟩, hfit, hfirst⟩
  · refine ⟨none, c, region, filed, ?_, classOf_eq hleast, ?_, by simp, by simp, .refl _, hstocks,
      rfl, rfl, fun k _ d hd => .inl hd, fun _ => ⟨hnone.symm, fun k _ => ?_⟩⟩
    · rw [hfind]
      exact Act.yields_pure _
    · refine iff_of_false (by simp) ?_
      rintro ⟨k, hlow, hk, d, hd, hlarge⟩
      exact Nat.not_lt.mpr hlarge (hsmall k hlow hk d hd)
    · exact (List.filter_eq_self.mpr fun d _ => by simp).symm
  · have hperm : (c.stock filed).Perm (d :: c'.stock filed') := hshifts.perm
    have honce := (hperm.map Chunk.handle).nodup_iff.mp hstocks.once
    obtain ⟨k, hlow, hk, hd⟩ := hstocks.exists_filed hshifts
    refine ⟨some d, c', region', filed', hyields, classOf_eq hleast,
      iff_of_true rfl ⟨k, hlow, hk, d, hd, hfit⟩, ?_, ?_, hperm, hstocks', hshifts.count,
      hshifts.changed.size, ?_, fun hexact =>
        ⟨(hfirst (hproper hexact)).symm, hshifts.order (hproper hexact)⟩⟩
    · rintro e he
      obtain rfl := Option.some.inj he
      exact ⟨hfit, (hstocks.filable.places d (mem_stock.mpr ⟨k, hk, hd⟩)).record⟩
    · rintro e he
      obtain rfl := Option.some.inj he
      exact (List.nodup_cons.mp honce).1
    · intro j hj e he
      have hplaces := hstocks'.filable.places e (mem_stock.mpr ⟨j, hshifts.count ▸ hj, he⟩)
      have hlog : c'.classFor e.size = e.size.log2 := by
        refine classFor_eq_log2 ?_ hplaces
        rw [hshifts.changed.size, hshifts.count]
        exact henough
      rw [classFor_congr hshifts.count] at hlog
      rw [← hlog]
      exact hshifts.origin j hj e he

/-! ## A chunk that has grown -/

/-- A chunk of 64 bytes and one of 40 above it, both in the class of sizes from 32 on. -/
def grown : Chunk := ⟨⟨0, by decide⟩, 0, 64, .free⟩

def lesser : Chunk := ⟨⟨1, by decide⟩, 64, 40, .free⟩

def grownHeaders : HeaderTable :=
  ⟨#[⟨0, 64, some lesser.handle, none, .free⟩, ⟨64, 40, none, none, .free⟩], 128,
    some grown.handle, none⟩

def grownRegion : Region :=
  ((Region.zeroed 128).overlay 48 ⟨(littleEndian 8 1 ++ littleEndian 8 2).toArray⟩).overlay 88
    ⟨(littleEndian 8 2).toArray⟩

def grownClasses : SizeClasses :=
  ⟨#[none, none, none, none, none, some grown.handle, none, none]⟩

def grownFiled (k : Nat) : List Chunk := if k = 5 then [grown, lesser] else []

theorem stock_grown : grownClasses.stock grownFiled = [grown, lesser] := by decide

theorem mem_grown {d : Chunk} (hd : d ∈ grownClasses.stock grownFiled) :
    d = grown ∨ d = lesser := by
  rw [stock_grown] at hd
  simpa using hd

theorem files_grown : grownClasses.Files grownRegion grownFiled where
  threads k hk := by
    by_cases hfive : k = 5
    · subst hfive
      have hfirst : grownRegion.trailer grown.acme = ⟨1, 2⟩ := by decide +kernel
      have hsecond : grownRegion.trailer lesser.acme = ⟨2, 0⟩ := by decide +kernel
      refine ⟨some grown.handle, rfl, rfl, by rw [hfirst]; rfl, ?_⟩
      rw [hfirst]
      refine ⟨rfl, by rw [hsecond]; rfl, ?_⟩
      rw [hsecond]
      rfl
    · have hempty : ∀ k < 8, k ≠ 5 → grownClasses.heads[k]? = some none := by decide
      refine ⟨none, hempty k hk hfive, ?_⟩
      rw [grownFiled, if_neg hfive]
      rfl

theorem stocks_grown : grownClasses.Stocks grownHeaders grownRegion grownFiled where
  files := files_grown
  filable :=
    { size := show 128 ≤ Word.max by decide
      places := fun d hd => by
        rcases mem_grown hd with rfl | rfl
        · exact ⟨⟨_, rfl, rfl, rfl, rfl⟩, by decide, show 64 ≤ 128 by decide⟩
        · exact ⟨⟨_, rfl, rfl, rfl, rfl⟩, by decide, show 104 ≤ 128 by decide⟩
      apart := fun d hd e he hne => by
        rcases mem_grown hd with rfl | rfl <;> rcases mem_grown he with rfl | rfl
        · exact absurd rfl hne
        · exact .inl (by decide)
        · exact .inr (by decide)
        · exact absurd rfl hne }
  free d hd := by
    rcases mem_grown hd with rfl | rfl <;> rfl
  once := by
    rw [stock_grown]
    decide
  large k hk d hd := by
    obtain rfl : k = 5 := by
      by_contra hne
      rw [grownFiled, if_neg hne] at hd
      exact absurd hd (by simp)
    rcases mem_grown (mem_stock.mpr ⟨5, hk, hd⟩) with rfl | rfl
    · decide
    · decide

/-- A search for 36 bytes files the larger chunk anew and takes the other one. -/
theorem finding_of_grown :
    (ofRegionSize grownRegion.size).result .release = .ok ⟨.replicate 8 none⟩ ∧
      ∃ taken c' region' filed',
        Finding grownHeaders grownClasses grownRegion grownFiled 36 taken c' region' filed' ∧
        taken.map Chunk.handle = some lesser.handle := by
  have hmade : (ofRegionSize grownRegion.size).result .release = .ok ⟨.replicate 8 none⟩ := rfl
  have hcount : grownClasses.count = (SizeClasses.mk (.replicate 8 none)).count := rfl
  obtain ⟨taken, c', region', filed', hfinding⟩ :=
    finding_of_stocks hmade hcount stocks_grown (show 1 ≤ 36 by decide)
  refine ⟨hmade, taken, c', region', filed', hfinding, ?_⟩
  have hfound : ((grownClasses.find grownHeaders grownRegion 36).result .release).map Prod.fst =
      .ok (.ok (some lesser.handle)) := by
    decide +kernel
  rw [hfinding.yields .release] at hfound
  exact Except.ok.inj (Except.ok.inj hfound)

end CompactingArena.SizeClasses
