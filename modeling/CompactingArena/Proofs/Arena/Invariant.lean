import CompactingArena.Arena
import CompactingArena.Proofs.HeaderTable.Records
import CompactingArena.Proofs.SizeClasses.Exact
/-!
# The invariant of arenas

`Arena.Laid` is what the header table alone must satisfy: the header chain lists
chunks that fill the region up to the high-water mark, and all other records can
be recycled.  It holds even in the middle of a compaction.  `Arena.Orderly` adds
what ties the rest of the arena to these chunks, between operations: the record
of the highest chunk and the free lists.  `Arena.Sound` adds the two counters that
follow the state.
-/

namespace CompactingArena

open Layout

namespace Arena

/-- The header chain lists `chunks`, and the records of `spare` wait to be
recycled. -/
structure Laid (a : Arena) (chunks : List Chunk) (spare : List Handle) : Prop where
  chained : a.headers.Lists a.headers.chain chunks none
  kept : a.headers.Kept (handles chunks) spare
  fills : Fills chunks a.memoryHigh
  sized : ∀ c ∈ chunks, c.Sized
  high : a.headers.high = a.region.size
  room : a.memoryHigh + a.headers.footprint ≤ a.region.size
  least : leastRegion ≤ a.region.size
  limit : a.region.size ≤ largestRegion

/-- The highest record describes a chunk that ends at the high-water mark. -/
def Topped (a : Arena) (chunks : List Chunk) : Prop :=
  (a.highest = none ∧ chunks = []) ∨
    ∃ c ∈ chunks, a.highest = some c.handle ∧ c.acme = a.memoryHigh

/-- The counters that follow the state count the chunks in use. -/
structure Accounts (counters : Counters) (chunks : List Chunk) : Prop where
  count : counters.allocationCount = (used chunks).length
  bytes : counters.allocatedBytes = bytes (used chunks)

/-- All that an audit looks at is in order, and the last record describes a chunk. -/
structure Orderly (a : Arena) (chunks : List Chunk) (spare : List Handle) : Prop
    extends Laid a chunks spare where
  topped : a.Topped chunks
  covers : a.classes.Covers a.region (frees chunks)
  tight : a.headers.Tight spare

/-- The invariant between operations. -/
structure Sound (a : Arena) (chunks : List Chunk) (spare : List Handle) : Prop
    extends Orderly a chunks spare where
  accounts : Accounts a.counters chunks

variable {a : Arena} {chunks : List Chunk} {spare : List Handle} {c d : Chunk} {h : Handle}

theorem Accounts.perm {counters : Counters} {l : List Chunk} (haccounts : Accounts counters chunks)
    (hperm : l.Perm chunks) : Accounts counters l where
  count := haccounts.count.trans (used_perm hperm).length_eq.symm
  bytes := haccounts.bytes.trans (bytes_perm (used_perm hperm)).symm

theorem inUse?_of_live {r : Record} (hlive : a.headers.live? h = some r)
    (hbusy : r.state.isFree = false) : a.inUse? h = some r := by
  rw [inUse?, Option.filter_eq_some_iff]
  exact ⟨hlive, by rw [hbusy]; rfl⟩

theorem live?_of_inUse {r : Record} (huse : a.inUse? h = some r) :
    a.headers.live? h = some r ∧ r.state.isFree = false := by
  rw [inUse?, Option.filter_eq_some_iff] at huse
  exact ⟨huse.1, (Bool.not_eq_true' _).mp huse.2⟩

namespace Laid

variable (hlaid : a.Laid chunks spare)
include hlaid

theorem nodup_handles : (handles chunks).Nodup :=
  hlaid.kept.nodup_held

theorem nodup : chunks.Nodup := .of_map _ hlaid.nodup_handles

theorem eq_of_handle_eq (hc : c ∈ chunks) (hd : d ∈ chunks) (heq : c.handle = d.handle) : c = d :=
  Layout.eq_of_handle_eq hlaid.nodup_handles hc hd heq

theorem acme_le (hc : c ∈ chunks) : c.acme ≤ a.memoryHigh := hlaid.fills.bound hc

theorem size_lt_unset : a.region.size < Record.unset :=
  Nat.lt_of_le_of_lt hlaid.limit (by decide)

theorem size_lt_modulus : a.region.size < Word.modulus :=
  Nat.lt_of_le_of_lt hlaid.limit (by decide)

theorem size_le_max : a.region.size ≤ Word.max :=
  hlaid.limit.trans (by decide)

theorem memoryHigh_le : a.memoryHigh ≤ a.region.size :=
  (Nat.le_add_right _ _).trans hlaid.room

theorem places (hc : c ∈ chunks) : a.headers.Places a.region c where
  record := hlaid.chained.get hc
  least := (hlaid.sized c hc).1
  bound := (hlaid.acme_le hc).trans hlaid.memoryHigh_le

theorem filable : SizeClasses.Filable a.headers a.region chunks where
  size := hlaid.size_le_max
  places _ hc := hlaid.places hc
  apart _ hc _ hd hne := hlaid.fills.disjoint hc hd hne

theorem length_le : chunks.length ≤ a.headers.capacity := by
  have h := hlaid.kept.length_eq
  rw [length_handles] at h
  omega

theorem length_frees_le : (frees chunks).length ≤ a.headers.capacity :=
  (List.length_filter_le _ _).trans hlaid.length_le

theorem length_filed_le {filed : Nat → List Chunk} (hexact : SizeClasses.Exact filed (frees chunks))
    (k : Nat) : (filed k).length ≤ a.headers.capacity :=
  (hexact.length_le k).trans hlaid.length_frees_le

theorem footprint_le : a.headers.footprint ≤ a.headers.high := by
  rw [hlaid.high]
  exact le_of_add_le_right hlaid.room

theorem low_eq : a.headerLow = a.region.size - a.headers.footprint := by
  rw [headerLow, HeaderTable.low_eq hlaid.footprint_le, hlaid.high]

theorem lowest_eq : a.headers.lowest = pure a.headerLow :=
  HeaderTable.lowest_eq hlaid.footprint_le

theorem memoryHigh_le_low : a.memoryHigh ≤ a.headerLow := by
  have hroom := hlaid.room
  rw [hlaid.low_eq]
  omega

/-- A record describes a chunk exactly if that chunk is on the chain. -/
theorem live?_eq_some_iff {r : Record} : a.headers.live? h = some r ↔
    ∃ c ∈ chunks, c.handle = h ∧ a.headers.get? h = some r ∧ r.Describes c := by
  constructor
  · intro hlive
    rw [HeaderTable.live?, Option.filter_eq_some_iff] at hlive
    obtain ⟨hget, hused⟩ := hlive
    have hmem : h ∈ handles chunks ++ spare := by
      rw [hlaid.kept.mem_iff, ← HeaderTable.get?_isSome_iff, hget]
      rfl
    rcases List.mem_append.mp hmem with hmem | hmem
    · obtain ⟨c, hc, rfl⟩ := mem_handles.mp hmem
      obtain ⟨r', hget', hdesc⟩ := hlaid.chained.get hc
      rw [hget, Option.some.injEq] at hget'
      exact ⟨c, hc, rfl, hget, hget' ▸ hdesc⟩
    · obtain ⟨r', hget', hunused⟩ := hlaid.kept.recycled.unused hmem
      rw [hget, Option.some.injEq] at hget'
      rw [hget', hunused] at hused
      exact absurd hused (by simp)
  · rintro ⟨c, hc, rfl, hget, hdesc⟩
    exact SizeClasses.live?_eq (hlaid.places hc) hget hdesc hlaid.size_le_max

theorem live?_eq_none_iff : a.headers.live? h = none ↔ h ∉ handles chunks := by
  rw [mem_handles, Option.eq_none_iff_forall_not_mem]
  constructor
  · rintro hnone ⟨c, hc, rfl⟩
    obtain ⟨r, hget, hdesc⟩ := hlaid.chained.get hc
    exact hnone r (hlaid.live?_eq_some_iff.mpr ⟨c, hc, rfl, hget, hdesc⟩)
  · intro hnone r hr
    obtain ⟨c, hc, heq, -⟩ := hlaid.live?_eq_some_iff.mp hr
    exact hnone ⟨c, hc, heq⟩

theorem inUse?_eq_some_iff {r : Record} : a.inUse? h = some r ↔
    ∃ c ∈ used chunks, c.handle = h ∧ a.headers.get? h = some r ∧ r.Describes c := by
  rw [inUse?, Option.filter_eq_some_iff, hlaid.live?_eq_some_iff]
  constructor
  · rintro ⟨⟨c, hc, rfl, hget, hdesc⟩, hused⟩
    refine ⟨c, mem_used.mpr ⟨hc, ?_⟩, rfl, hget, hdesc⟩
    rw [Chunk.isFree, ← hdesc.state]
    simpa using hused
  · rintro ⟨c, hc, rfl, hget, hdesc⟩
    obtain ⟨hc, hused⟩ := mem_used.mp hc
    refine ⟨⟨c, hc, rfl, hget, hdesc⟩, ?_⟩
    rw [hdesc.state, Bool.not_eq_true']
    exact hused

/-- Only the table, the size of the region and the high-water mark matter. -/
theorem congr {b : Arena} (hheaders : b.headers = a.headers)
    (hsize : b.region.size = a.region.size) (hhigh : b.memoryHigh = a.memoryHigh) :
    b.Laid chunks spare where
  chained := hheaders ▸ hlaid.chained
  kept := hheaders ▸ hlaid.kept
  fills := hhigh ▸ hlaid.fills
  sized := hlaid.sized
  high := by rw [hheaders, hsize, hlaid.high]
  room := by rw [hheaders, hsize, hhigh]; exact hlaid.room
  least := hsize ▸ hlaid.least
  limit := hsize ▸ hlaid.limit

omit hlaid in
theorem permit_ok_iff {r : Record} : a.permit h = .ok r ↔ a.inUse? h = some r := by
  rw [permit, inUse?]
  cases a.headers.live? h with
  | none => simp
  | some r' =>
      simp only [Option.filter_some]
      cases r'.state.isFree <;> simp

end Laid

/-- A chunk described anew by its own record, where it is. -/
theorem Laid.replace {b : Arena} {before after : List Chunk} {r record : Record}
    (hlaid : a.Laid (before ++ c :: after) spare) (hget : a.headers.get? c.handle = some r)
    (hhandle : d.handle = c.handle) (haddr : d.addr = c.addr) (hsize : d.size = c.size)
    (hdesc : record.Describes d) (hnext : record.next = r.next)
    (hheaders : b.headers = a.headers.set c.handle record)
    (hregion : b.region.size = a.region.size) (hhigh : b.memoryHigh = a.memoryHigh) :
    b.Laid (before ++ d :: after) spare where
  chained := by
    rw [hheaders]
    exact hlaid.chained.replace hlaid.nodup_handles hget hhandle hdesc hnext
  kept := by
    have hhandles : handles (before ++ d :: after) = handles (before ++ c :: after) := by
      simp [hhandle]
    rw [hheaders, hhandles]
    exact hlaid.kept.set (handle_mem (by simp)) record
  fills := by
    have htiles : Tiles c.addr [d] c.acme := ⟨haddr, by rw [hsize]; rfl⟩
    have hfills := hlaid.fills.replace htiles
    rw [hhigh]
    simpa using hfills
  sized := by
    intro e he
    rcases List.mem_append.mp he with he | he
    · exact hlaid.sized e (by simp [he])
    · rcases List.mem_cons.mp he with rfl | he
      · have hc := hlaid.sized c (by simp)
        unfold Chunk.Sized at hc ⊢
        rwa [hsize]
      · exact hlaid.sized e (by simp [he])
  high := by rw [hheaders, hregion]; exact hlaid.high
  room := by
    have hroom := hlaid.room
    rw [hheaders, hregion, hhigh, HeaderTable.footprint, HeaderTable.capacity_set]
    exact hroom
  least := hregion ▸ hlaid.least
  limit := hregion ▸ hlaid.limit

/-- The highest chunk is known by its handle and its end. -/
theorem Topped.replace {b : Arena} {before after : List Chunk}
    (htopped : a.Topped (before ++ c :: after)) (hhandle : d.handle = c.handle)
    (hacme : d.acme = c.acme) (hhighest : b.highest = a.highest)
    (hhigh : b.memoryHigh = a.memoryHigh) : b.Topped (before ++ d :: after) := by
  rcases htopped with ⟨-, hempty⟩ | ⟨e, he, hhandle', hacme'⟩
  · exact absurd hempty (by simp)
  · right
    rw [hhighest, hhigh]
    rcases List.mem_append.mp he with he | he
    · exact ⟨e, by simp [he], hhandle', hacme'⟩
    · rcases List.mem_cons.mp he with rfl | he
      · exact ⟨d, by simp, by rw [hhandle, hhandle'], by rw [hacme, hacme']⟩
      · exact ⟨e, by simp [he], hhandle', hacme'⟩

end Arena

end CompactingArena
