import CompactingArena.Proofs.Act
import CompactingArena.Proofs.HeaderTable.Chain
import Mathlib.Data.List.Range
/-!
# Records in use and records to recycle

`HeaderTable.Kept held spare` says that the records of a table fall into those
that were handed out, `held` in any order, and the unused ones of the
free-record chain, `spare` in the order of the chain.  Obtaining a record moves
it from the one list to the other, and releasing it moves it back.
-/

namespace CompactingArena

/-- A record is unused, and shows nothing of the chunk that it described. -/
structure Record.Blank (r : Record) : Prop where
  isUnused : r.isUnused = true
  size : r.size = 0
  state : r.state = .free

namespace HeaderTable

/-- The free-record chain from a link on consists of the unused records of a
list. -/
def Recycles (t : HeaderTable) : Option Handle → List Handle → Prop
  | link, [] => link = none
  | link, h :: l =>
      link = some h ∧ ∃ r, t.get? h = some r ∧ r.Blank ∧ t.Recycles r.nextUnused l

/-- Every record is either held or on the free-record chain, and only one of
the two, and once. -/
structure Kept (t : HeaderTable) (held spare : List Handle) : Prop where
  partition : ((held ++ spare).map Handle.index).Perm (List.range t.capacity)
  recycled : t.Recycles t.freeRecords spare

/-- The last record waits for no recycling. -/
def Tight (t : HeaderTable) (spare : List Handle) : Prop := ∀ h ∈ spare, h.index + 1 ≠ t.capacity

variable {t t' : HeaderTable} {held held' spare spare' : List Handle} {h : Handle}

theorem Tight.congr (htight : t.Tight spare) (hcapacity : t'.capacity = t.capacity) :
    t'.Tight spare := by
  unfold Tight
  rwa [hcapacity]

theorem Recycles.congr {link : Option Handle} {l : List Handle} (hl : t.Recycles link l)
    (hsame : ∀ g ∈ l, t'.get? g = t.get? g) : t'.Recycles link l := by
  induction l generalizing link with
  | nil => exact hl
  | cons g l ih =>
      obtain ⟨hlink, r, hget, hblank, hrest⟩ := hl
      refine ⟨hlink, r, ?_, hblank, ih hrest fun k hk => hsame k (by simp [hk])⟩
      rw [hsame g (by simp), hget]

theorem Recycles.blank {link : Option Handle} {l : List Handle} (hl : t.Recycles link l)
    (hh : h ∈ l) : ∃ r, t.get? h = some r ∧ r.Blank := by
  induction l generalizing link with
  | nil => exact absurd hh (by simp)
  | cons g l ih =>
      obtain ⟨-, r, hget, hblank, hrest⟩ := hl
      rcases List.mem_cons.mp hh with rfl | hh
      · exact ⟨r, hget, hblank⟩
      · exact ih hrest hh

theorem Recycles.unused {link : Option Handle} {l : List Handle} (hl : t.Recycles link l)
    (hh : h ∈ l) : ∃ r, t.get? h = some r ∧ r.isUnused = true := by
  obtain ⟨r, hget, hblank⟩ := hl.blank hh
  exact ⟨r, hget, hblank.isUnused⟩

/-- The free-record chain is what it recycles. -/
theorem Recycles.freeRecordsFrom {link : Option Handle} {l : List Handle}
    (hl : t.Recycles link l) {limit : Nat} (hlimit : l.length ≤ limit) :
    t.freeRecordsFrom limit link = l := by
  induction l generalizing link limit with
  | nil =>
      obtain rfl : link = none := hl
      cases limit <;> rfl
  | cons g l ih =>
      obtain ⟨rfl, r, hget, -, hrest⟩ := hl
      obtain ⟨limit, rfl⟩ : ∃ n, limit = n + 1 := ⟨limit - 1, by simp at hlimit; omega⟩
      rw [HeaderTable.freeRecordsFrom, hget, Option.bind_some, ih hrest (by simpa using hlimit)]

/-- Handles whose positions are the first `n` are all that name one of these. -/
theorem mem_iff_of_perm_range {l : List Handle} {n : Nat}
    (hl : (l.map Handle.index).Perm (List.range n)) : h ∈ l ↔ h.index < n := by
  rw [← List.mem_range, ← hl.mem_iff]
  constructor
  · exact List.mem_map_of_mem
  · intro hmem
    obtain ⟨g, hg, hindex⟩ := List.mem_map.mp hmem
    rwa [Handle.ext_iff.mpr hindex] at hg

namespace Kept

theorem nodup (hkept : t.Kept held spare) : (held ++ spare).Nodup :=
  .of_map _ (hkept.partition.nodup_iff.mpr List.nodup_range)

theorem mem_iff (hkept : t.Kept held spare) : h ∈ held ++ spare ↔ h.index < t.capacity :=
  mem_iff_of_perm_range hkept.partition

theorem length_eq (hkept : t.Kept held spare) : held.length + spare.length = t.capacity := by
  simpa using hkept.partition.length_eq

theorem freeRecordList (hkept : t.Kept held spare) : t.freeRecordList = spare :=
  hkept.recycled.freeRecordsFrom (by have hlength := hkept.length_eq; omega)

theorem capacity_le (hkept : t.Kept held spare) : t.capacity ≤ Handle.limit := by
  by_contra hlt
  have hmem : Handle.limit ∈ (held ++ spare).map Handle.index := by
    rw [hkept.partition.mem_iff, List.mem_range]
    omega
  obtain ⟨g, -, hindex⟩ := List.mem_map.mp hmem
  exact absurd hindex (Nat.ne_of_lt g.index_lt)

theorem not_mem_spare (hkept : t.Kept held spare) (hh : h ∈ held) : h ∉ spare :=
  fun hspare => (List.disjoint_of_nodup_append hkept.nodup) hh hspare

theorem nodup_held (hkept : t.Kept held spare) : held.Nodup :=
  (List.nodup_append.mp hkept.nodup).1

theorem nodup_spare (hkept : t.Kept held spare) : spare.Nodup :=
  (List.nodup_append.mp hkept.nodup).2.1

theorem fresh (hkept : t.Kept (h :: held) spare) : h ∉ held :=
  (List.nodup_cons.mp hkept.nodup_held).1

/-- The last record is held, if there is one. -/
theorem tight_iff (hkept : t.Kept held spare) :
    t.Tight spare ↔ t.capacity = 0 ∨ ∃ h ∈ held, h.index + 1 = t.capacity := by
  constructor
  · intro htight
    by_cases hzero : t.capacity = 0
    · exact .inl hzero
    have hlimit := hkept.capacity_le
    obtain ⟨h, hindex⟩ : ∃ h : Handle, h.index = t.capacity - 1 := ⟨⟨t.capacity - 1, by omega⟩, rfl⟩
    have hlast : h.index + 1 = t.capacity := by omega
    rcases List.mem_append.mp (hkept.mem_iff.mpr (by omega : h.index < t.capacity)) with hh | hh
    · exact .inr ⟨h, hh, hlast⟩
    · exact absurd hlast (htight h hh)
  · rintro (hzero | ⟨g, hg, hlast⟩) h hh hindex
    · omega
    · have heq : h = g := Handle.ext_iff.mpr (by omega)
      exact hkept.not_mem_spare hg (heq ▸ hh)

/-- A table whose last record is held is no larger than it takes. -/
theorem capacity_mono (hkept : t.Kept held spare) (htight : t.Tight spare)
    (hkept' : t'.Kept held' spare') (hsub : ∀ h ∈ held, h ∈ held') : t.capacity ≤ t'.capacity := by
  rcases hkept.tight_iff.mp htight with hzero | ⟨h, hh, hlast⟩
  · omega
  · have hlt := hkept'.mem_iff.mp (List.mem_append_left spare' (hsub h hh))
    omega

theorem perm (hkept : t.Kept held spare) (hperm : held.Perm held') : t.Kept held' spare :=
  ⟨((hperm.symm.append_right spare).map _).trans hkept.partition, hkept.recycled⟩

/-- Only the size of the table and its unused records matter. -/
theorem congr (hkept : t.Kept held spare) (hcapacity : t'.capacity = t.capacity)
    (hfree : t'.freeRecords = t.freeRecords) (hsame : ∀ g ∈ spare, t'.get? g = t.get? g) :
    t'.Kept held spare := by
  refine ⟨hcapacity ▸ hkept.partition, ?_⟩
  rw [hfree]
  exact hkept.recycled.congr hsame

theorem set (hkept : t.Kept held spare) (hh : h ∈ held) (record : Record) :
    (t.set h record).Kept held spare := by
  apply hkept.congr (capacity_set t h record) rfl
  intro g hg
  rw [get?_set, if_neg]
  rintro rfl
  exact hkept.not_mem_spare hh hg

theorem setNext (hkept : t.Kept held spare) (hh : h ∈ held) (next : Option Handle) :
    (t.setNext h next).Kept held spare := by
  apply hkept.congr (capacity_setNext t h next) rfl
  intro g hg
  rw [get?_setNext, if_neg]
  rintro rfl
  exact hkept.not_mem_spare hh hg

end Kept

/-! ## Obtaining records -/

/-- The record of a chunk that was just obtained. -/
def obtained (t : HeaderTable) (linked : Bool) : Record :=
  { Record.unused with state := .unlocked, next := if linked then t.chain else none }

/-- How a table looks after the record `h` was obtained. -/
structure Obtains (t : HeaderTable) (linked : Bool) (h : Handle) (t' : HeaderTable) : Prop where
  get_self : t'.get? h = some (t.obtained linked)
  get_other : ∀ g, g ≠ h → t'.get? g = t.get? g
  chain : t'.chain = if linked then some h else t.chain
  high : t'.high = t.high

theorem Obtains.get?_set_self {linked : Bool} (hobtains : t.Obtains linked h t') (r : Record) :
    (t'.set h r).get? h = some r := by
  rw [get?_set, if_pos rfl, hobtains.get_self]
  rfl

theorem Obtains.get?_set_other {linked : Bool} (hobtains : t.Obtains linked h t') (r : Record)
    {g : Handle} (hg : g ≠ h) : (t'.set h r).get? g = t.get? g := by
  rw [get?_set, if_neg (Ne.symm hg), hobtains.get_other g hg]

theorem low_eq (hfits : t.footprint ≤ t.high) : t.low = t.high - t.footprint :=
  if_pos hfits

/-- Obtaining a record leaves the table clear of the floor that it was asked to
heed. -/
theorem room_of_capacity {floor : Nat} (reserve : Nat) (hroom : floor + t.footprint ≤ t.high)
    (hcapacity : t'.capacity = t.capacity ∨
      t'.capacity = t.capacity + 1 ∧ floor + (1 + reserve) * Record.bytes ≤ t.low) :
    floor + t'.footprint ≤ t.high := by
  have hlow := low_eq (t := t) (by omega)
  have hone : 1 * Record.bytes ≤ (1 + reserve) * Record.bytes :=
    Nat.mul_le_mul_right _ (Nat.le_add_right 1 reserve)
  unfold footprint at *
  rcases hcapacity with heq | ⟨heq, hfloor⟩
  · rwa [heq]
  · rw [heq, Nat.add_mul]
    omega

theorem Kept.allocate_recycle (hkept : t.Kept held (h :: spare)) (linked : Bool)
    (floor reserve : Nat) : ∃ t', t.allocate linked floor reserve = pure (some (h, t')) ∧
      t.Obtains linked h t' ∧ t'.Kept (h :: held) spare ∧ t'.capacity = t.capacity := by
  obtain ⟨hfree, r, hget, -, hrest⟩ := hkept.recycled
  have hrecycle : t.recycle h = pure { t with freeRecords := r.nextUnused } := by
    rw [recycle, get_eq hget, pure_bind]
  have hget' : HeaderTable.get? { t with freeRecords := r.nextUnused } h = some r := hget
  refine ⟨{ HeaderTable.set { t with freeRecords := r.nextUnused } h (t.obtained linked) with
    chain := if linked then some h else t.chain }, ?_, ⟨?_, ?_, rfl, rfl⟩, ⟨?_, ?_⟩, ?_⟩
  · rw [allocate, hfree]
    simp only [hrecycle, pure_bind, update_eq hget']
    rfl
  · change (HeaderTable.set { t with freeRecords := r.nextUnused } h (t.obtained linked)).get? h = _
    rw [get?_set, if_pos rfl, hget']
    rfl
  · intro g hg
    change (HeaderTable.set { t with freeRecords := r.nextUnused } h (t.obtained linked)).get? g = _
    rw [get?_set, if_neg (Ne.symm hg)]
    rfl
  · change List.Perm _ (List.range (HeaderTable.set _ h _).capacity)
    rw [capacity_set]
    exact (List.perm_middle.symm.map _).trans hkept.partition
  · apply hrest.congr
    intro g hg
    change (HeaderTable.set { t with freeRecords := r.nextUnused } h (t.obtained linked)).get? g = _
    rw [get?_set, if_neg]
    · rfl
    · rintro rfl
      exact (List.nodup_cons.mp hkept.nodup_spare).1 hg
  · exact capacity_set _ h _

/-- The table with one unused record more. -/
def extended (t : HeaderTable) : HeaderTable := { t with records := t.records.push .unused }

theorem capacity_extended (t : HeaderTable) : t.extended.capacity = t.capacity + 1 :=
  Array.size_push _

theorem get?_extended (t : HeaderTable) (h : Handle) :
    t.extended.get? h = if h.index = t.capacity then some .unused else t.get? h := by
  simp only [get?, extended, capacity, Array.getElem?_push]
  rfl

theorem allocate_carve (hfree : t.freeRecords = none) (hh : Handle.ofIndex? t.capacity = some h)
    (hfits : t.footprint ≤ t.high) (linked : Bool) {floor reserve : Nat}
    (hreserve : 1 + reserve < Word.modulus)
    (hroom : floor + (1 + reserve) * Record.bytes ≤ t.low) :
    (t.allocate linked floor reserve).Yields
      (some (h, { t.extended.set h (t.obtained linked) with
        chain := if linked then some h else t.chain })) := by
  have hget : t.extended.get? h = some .unused := by
    rw [get?_extended, if_pos (Handle.index_of_ofIndex? hh)]
  have hcarve : (t.carve floor reserve).Yields (some (h, t.extended)) := by
    rw [carve, Word.add_eq hreserve, lowest_eq hfits]
    simp only [pure_bind, if_neg (Nat.not_lt.mpr hroom), hh]
    exact (Act.yields_log _).bind (Act.yields_pure _)
  rw [allocate, hfree]
  apply hcarve.bind
  simp only [update_eq hget, pure_bind]
  exact Act.yields_pure _

theorem Kept.allocate_carve (hkept : t.Kept held []) (hh : Handle.ofIndex? t.capacity = some h)
    (hfits : t.footprint ≤ t.high) (linked : Bool) {floor reserve : Nat}
    (hreserve : 1 + reserve < Word.modulus)
    (hroom : floor + (1 + reserve) * Record.bytes ≤ t.low) :
    ∃ t', (t.allocate linked floor reserve).Yields (some (h, t')) ∧ t.Obtains linked h t' ∧
      t'.Kept (h :: held) [] ∧ t'.capacity = t.capacity + 1 := by
  have hfree : t.freeRecords = none := hkept.recycled
  have hself := Handle.index_of_ofIndex? hh
  refine ⟨_, HeaderTable.allocate_carve hfree hh hfits linked hreserve hroom, ⟨?_, ?_, rfl, rfl⟩,
    ⟨?_, hfree⟩, ?_⟩
  · change (t.extended.set h _).get? h = _
    rw [get?_set, if_pos rfl, get?_extended, if_pos hself]
    rfl
  · intro g hg
    change (t.extended.set h _).get? g = _
    rw [get?_set, if_neg (Ne.symm hg), get?_extended, if_neg]
    rw [← hself, ← Handle.ext_iff]
    exact hg
  · change List.Perm _ (List.range (t.extended.set h _).capacity)
    rw [capacity_set, capacity_extended, List.range_succ, ← hself]
    refine List.Perm.trans ?_ (List.perm_append_singleton _ _).symm
    simpa [hself] using hkept.partition
  · change (t.extended.set h _).capacity = _
    rw [capacity_set, capacity_extended]

theorem allocate_refused (hfree : t.freeRecords = none) (hfits : t.footprint ≤ t.high)
    (linked : Bool) (floor : Nat) {reserve : Nat} (hreserve : 1 + reserve < Word.modulus)
    (hroom : t.low < floor + (1 + reserve) * Record.bytes ∨ Handle.ofIndex? t.capacity = none) :
    t.allocate linked floor reserve = pure none := by
  have hcarve : t.carve floor reserve = pure none := by
    rw [carve, Word.add_eq hreserve, pure_bind, lowest_eq hfits, pure_bind]
    rcases hroom with hroom | hindex
    · rw [if_pos hroom]
    · simp only [hindex, ite_self]
  rw [allocate, hfree, hcarve]
  rfl

/-- Obtaining a record: one is recycled if there is one, otherwise one is carved
if there is room, and otherwise there is none. -/
theorem Kept.allocate (hkept : t.Kept held spare) (hfits : t.footprint ≤ t.high) (linked : Bool)
    (floor : Nat) {reserve : Nat} (hreserve : 1 + reserve < Word.modulus) :
    ∃ got, (t.allocate linked floor reserve).Yields got ∧
      match got with
      | none => spare = [] ∧
          (t.low < floor + (1 + reserve) * Record.bytes ∨ t.capacity = Handle.limit)
      | some (h, t') => t.Obtains linked h t' ∧ ∃ spare', t'.Kept (h :: held) spare' ∧
          (spare = h :: spare' ∧ t'.capacity = t.capacity ∨
            spare = [] ∧ t'.capacity = t.capacity + 1 ∧
              floor + (1 + reserve) * Record.bytes ≤ t.low) := by
  cases spare with
  | cons h spare =>
      obtain ⟨t', halloc, hobtains, hkept', hcapacity⟩ :=
        hkept.allocate_recycle linked floor reserve
      exact ⟨some (h, t'), halloc ▸ Act.yields_pure _, hobtains, spare, hkept',
        .inl ⟨rfl, hcapacity⟩⟩
  | nil =>
      have hfree : t.freeRecords = none := hkept.recycled
      by_cases hroom : t.low < floor + (1 + reserve) * Record.bytes
      · have hrefused := allocate_refused hfree hfits linked floor hreserve (.inl hroom)
        exact ⟨none, hrefused ▸ Act.yields_pure _, rfl, .inl hroom⟩
      · cases hindex : Handle.ofIndex? t.capacity with
        | none =>
            have hlimit : t.capacity = Handle.limit :=
              Nat.le_antisymm hkept.capacity_le (Handle.ofIndex?_eq_none_iff.mp hindex)
            have hrefused := allocate_refused hfree hfits linked floor hreserve (.inr hindex)
            exact ⟨none, hrefused ▸ Act.yields_pure _, rfl, .inr hlimit⟩
        | some h =>
            obtain ⟨t', hyields, hobtains, hkept', hcapacity⟩ :=
              hkept.allocate_carve hindex hfits linked hreserve (Nat.le_of_not_lt hroom)
            exact ⟨some (h, t'), hyields, hobtains, [], hkept',
              .inr ⟨rfl, hcapacity, Nat.le_of_not_lt hroom⟩⟩

/-- A record is only carved where all others are held, and it is held then as well. -/
theorem Kept.spare_eq_nil (hkept : t.Kept held []) (hkept' : t'.Kept (h :: held) spare')
    (hcapacity : t'.capacity = t.capacity + 1) : spare' = [] := by
  have hlength := hkept.length_eq
  have hlength' := hkept'.length_eq
  rw [List.length_nil] at hlength
  rw [List.length_cons] at hlength'
  exact List.length_eq_zero_iff.mp (by omega)

/-- Obtaining a record leaves the last one held. -/
theorem Kept.tight_obtained (hkept : t.Kept held spare) (htight : t.Tight spare)
    (hkept' : t'.Kept (h :: held) spare')
    (hwhere : spare = h :: spare' ∧ t'.capacity = t.capacity ∨
      spare = [] ∧ t'.capacity = t.capacity + 1) : t'.Tight spare' := by
  rcases hwhere with ⟨rfl, hcapacity⟩ | ⟨rfl, hcapacity⟩
  · intro g hg
    rw [hcapacity]
    exact htight g (List.mem_cons_of_mem _ hg)
  · obtain rfl := hkept.spare_eq_nil hkept' hcapacity
    exact fun g hg => absurd hg (by simp)

/-! ## Releasing records -/

/-- The record `r` after its release. -/
def released (t : HeaderTable) (r : Record) : Record :=
  { r with addr := Record.unset, size := 0, state := .free, nextUnused := t.freeRecords }

theorem release_eq {r : Record} (hget : t.get? h = some r) (hlive : r.isUnused = false) :
    t.release h = pure { t.set h (t.released r) with freeRecords := some h } := by
  rw [release, get_eq hget]
  simp only [pure_bind, hlive, Bool.not_false, Act.expect_true, update_eq hget]
  rfl

/-- Releasing a held record puts it at the head of the free-record chain, and
leaves its chain link and all other records as they are. -/
theorem Kept.release (hkept : t.Kept (h :: held) spare) {r : Record} (hget : t.get? h = some r)
    (hlive : r.isUnused = false) :
    ∃ t', t.release h = pure t' ∧ t'.Kept held (h :: spare) ∧
      t'.get? h = some (t.released r) ∧ (∀ g, g ≠ h → t'.get? g = t.get? g) ∧
      t'.capacity = t.capacity ∧ t'.chain = t.chain ∧ t'.high = t.high := by
  have hself : (t.set h (t.released r)).get? h = some (t.released r) := by
    rw [get?_set, if_pos rfl, hget]
    rfl
  have hother : ∀ g, g ≠ h → (t.set h (t.released r)).get? g = t.get? g := by
    intro g hg
    rw [get?_set, if_neg (Ne.symm hg)]
  refine ⟨_, release_eq hget hlive, ⟨?_, rfl, t.released r, hself, ⟨rfl, rfl, rfl⟩, ?_⟩, hself, hother,
    capacity_set _ _ _, rfl, rfl⟩
  · change List.Perm _ (List.range (t.set h _).capacity)
    rw [capacity_set]
    exact (List.perm_middle.map _).trans hkept.partition
  · refine hkept.recycled.congr fun g hg => hother g ?_
    rintro rfl
    exact (List.nodup_cons.mp hkept.nodup).1 (List.mem_append_right _ hg)

end HeaderTable

end CompactingArena
