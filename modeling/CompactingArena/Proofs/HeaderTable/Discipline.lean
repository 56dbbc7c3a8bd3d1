import CompactingArena.Proofs.HeaderTable.Shrink
/-!
# The discipline of records

`HeaderTable.Managed` follows a table from when it was empty, through any sequence of
obtaining, describing and releasing records and of shrinking, together with the records
that are handed out.  In every such table all other records, and no others, are on the
free-record chain.  Hence what each operation does next can be told from that chain, which
is a stack until a shrink rebuilds it.
-/

namespace CompactingArena.HeaderTable

variable {t t' : HeaderTable} {held spare : List Handle} {h : Handle} {high floor reserve : Nat}

/-- A record describes a chunk: its address has been set. -/
def Live (t : HeaderTable) (h : Handle) : Prop := ∃ r, t.get? h = some r ∧ r.isUnused = false

/-- What becomes of a new table whose records are handed out, described and released; those
of `held` are handed out. -/
inductive Managed (high : Nat) : HeaderTable → List Handle → Prop
  | empty : Managed high (.empty high) []
  | allocate {t t' : HeaderTable} {held : List Handle} {h : Handle} (linked : Bool)
      (floor reserve : Nat) (build : Build) (ht : Managed high t held)
      (hreserve : 1 + reserve < Word.modulus)
      (hallocate : (t.allocate linked floor reserve).result build = .ok (some (h, t'))) :
      Managed high t' (h :: held)
  /-- A record that is handed out gets an address, and whatever else is to be in it. -/
  | describe {t : HeaderTable} {held : List Handle} (h : Handle) (record : Record)
      (ht : Managed high t held) (hheld : h ∈ held) (hset : record.isUnused = false) :
      Managed high (t.set h record) held
  | release {t t' : HeaderTable} {held : List Handle} (h : Handle) (build : Build)
      (ht : Managed high t held) (hheld : h ∈ held) (hlive : t.Live h)
      (hrelease : (t.release h).result build = .ok t') : Managed high t' (held.erase h)
  | shrink {t t' : HeaderTable} {held : List Handle} {popped : Nat} (build : Build)
      (ht : Managed high t held) (hlive : ∀ h ∈ held, t.Live h)
      (hshrink : t.shrink.result build = .ok (popped, t')) : Managed high t' held

/-! ## The partition of the records -/

theorem kept_empty (high : Nat) : (empty high).Kept [] [] := ⟨.refl _, rfl⟩

/-- A record that is carved where there is room for it fits. -/
theorem footprint_le_of_capacity (hfits : t.footprint ≤ t.high)
    (hcapacity : t'.capacity = t.capacity ∨
      t'.capacity = t.capacity + 1 ∧ floor + (1 + reserve) * Record.bytes ≤ t.low) :
    t'.footprint ≤ t.high := by
  have hroom : 0 + t'.footprint ≤ t.high :=
    room_of_capacity reserve (by omega) (hcapacity.imp id fun ⟨hone, hroom⟩ => ⟨hone, by omega⟩)
  omega

/-- The reserve still fits once a record is carved. -/
theorem clear_of_carved (hfits : t.footprint ≤ t.high) (hhigh : t'.high = t.high)
    (hcapacity : t'.capacity = t.capacity + 1)
    (hroom : floor + (1 + reserve) * Record.bytes ≤ t.low) :
    floor + reserve * Record.bytes ≤ t'.low := by
  have hfits' : t'.footprint ≤ t'.high :=
    hhigh ▸ footprint_le_of_capacity hfits (.inr ⟨hcapacity, hroom⟩)
  have hfootprint : t'.footprint = t.footprint + Record.bytes := by
    rw [footprint, hcapacity, Nat.add_mul, Nat.one_mul, footprint]
  rw [low_eq hfits, Nat.add_mul] at hroom
  rw [low_eq hfits', hhigh]
  omega

/-- Every record is handed out or on the free-record chain, and the table fits. -/
theorem Managed.kept (hmanaged : Managed high t held) :
    ∃ spare, t.Kept held spare ∧ t.high = high ∧ t.footprint ≤ high := by
  induction hmanaged with
  | empty => exact ⟨[], kept_empty high, rfl, Nat.zero_le _⟩
  | allocate linked floor reserve build _ hreserve hallocate ih =>
      obtain ⟨spare, hkept, rfl, hfits⟩ := ih
      obtain ⟨got, hyields, hgot⟩ := hkept.allocate hfits linked floor hreserve
      cases Except.ok.inj ((hyields build).symm.trans hallocate)
      obtain ⟨hobtains, spare', hkept', hwhere⟩ := hgot
      exact ⟨spare', hkept', hobtains.high,
        footprint_le_of_capacity hfits (hwhere.imp And.right And.right)⟩
  | describe h record _ hheld _ ih =>
      obtain ⟨spare, hkept, hhigh, hfits⟩ := ih
      refine ⟨spare, hkept.set hheld _, hhigh, ?_⟩
      rwa [footprint, capacity_set]
  | @release t t' held h build _ hheld hlive hrelease ih =>
      obtain ⟨spare, hkept, hhigh, hfits⟩ := ih
      obtain ⟨r, hget, hused⟩ := hlive
      obtain ⟨t₁, heq, hkept₁, _, _, hcapacity, _, hhigh₁⟩ :=
        (hkept.perm (List.perm_cons_erase hheld)).release hget hused
      obtain rfl : t₁ = t' := Except.ok.inj ((congrArg (·.result build) heq).symm.trans hrelease)
      refine ⟨_, hkept₁, hhigh₁.trans hhigh, ?_⟩
      rwa [footprint, hcapacity]
  | shrink build _ hlive hshrink ih =>
      obtain ⟨spare, hkept, hhigh, hfits⟩ := ih
      obtain ⟨popped, t₁, spare', hyields, hshrinks⟩ := hkept.shrink hlive
      cases Except.ok.inj ((hyields build).symm.trans hshrink)
      refine ⟨spare', hshrinks.kept, hshrinks.high.trans hhigh, le_trans ?_ hfits⟩
      exact Nat.mul_le_mul_right _ (Nat.le.intro hshrinks.capacity)

/-! ## What the operations do -/

/-- What obtaining a record comes to: one is recycled if there is one, and one is carved
only otherwise and where the reserve fits as well.  A refusal is all that a request comes
to that is refused. -/
inductive Allocates (t : HeaderTable) (held : List Handle) (linked : Bool) (floor reserve : Nat) :
    Option (Handle × HeaderTable) → Prop
  | recycled {h : Handle} {t' : HeaderTable} {spare : List Handle}
      (hspare : t.freeRecordList = h :: spare) (hnew : h ∉ held)
      (hobtains : t.Obtains linked h t') (hspare' : t'.freeRecordList = spare)
      (hcapacity : t'.capacity = t.capacity) :
      Allocates t held linked floor reserve (some (h, t'))
  | carved {h : Handle} {t' : HeaderTable} (hspare : t.freeRecordList = []) (hnew : h ∉ held)
      (hroom : floor + (1 + reserve) * Record.bytes ≤ t.low) (hobtains : t.Obtains linked h t')
      (hspare' : t'.freeRecordList = []) (hcapacity : t'.capacity = t.capacity + 1)
      (hclear : floor + reserve * Record.bytes ≤ t'.low) :
      Allocates t held linked floor reserve (some (h, t'))
  | refused (hspare : t.freeRecordList = [])
      (hnear : t.low < floor + (1 + reserve) * Record.bytes ∨ t.capacity = Handle.limit)
      (hnothing : t.allocate linked floor reserve = pure none) :
      Allocates t held linked floor reserve none

theorem Kept.allocates (hkept : t.Kept held spare) (hfits : t.footprint ≤ t.high) (linked : Bool)
    (floor : Nat) (hreserve : 1 + reserve < Word.modulus) :
    ∃ got, (t.allocate linked floor reserve).Yields got ∧
      t.Allocates held linked floor reserve got := by
  obtain ⟨got, hyields, hgot⟩ := hkept.allocate hfits linked floor hreserve
  refine ⟨got, hyields, ?_⟩
  rcases got with _ | ⟨h, t'⟩
  · obtain ⟨rfl, hnear⟩ := hgot
    have hnothing := allocate_refused hkept.recycled hfits linked floor hreserve
      (hnear.imp_right fun hlimit => Handle.ofIndex?_eq_none_iff.mpr hlimit.ge)
    exact .refused hkept.freeRecordList hnear hnothing
  · obtain ⟨hobtains, spare', hkept', hwhere⟩ := hgot
    have hnew := hkept'.fresh
    rcases hwhere with ⟨rfl, hcapacity⟩ | ⟨rfl, hcapacity, hroom⟩
    · exact .recycled hkept.freeRecordList hnew hobtains hkept'.freeRecordList hcapacity
    · have hspare' : spare' = [] := hkept.spare_eq_nil hkept' hcapacity
      have hclear := clear_of_carved hfits hobtains.high hcapacity hroom
      exact .carved hkept.freeRecordList hnew hroom hobtains (hspare' ▸ hkept'.freeRecordList)
        hcapacity hclear

/-- What releasing a record does: it becomes the head of the free-record chain, and a walk
along the header chain can still pass it. -/
structure Releases (t : HeaderTable) (h : Handle) (r : Record) (t' : HeaderTable) : Prop where
  spare : t'.freeRecordList = h :: t.freeRecordList
  get_self : t'.get? h = some (t.released r)
  get_other : ∀ g, g ≠ h → t'.get? g = t.get? g
  chain : t'.chain = t.chain
  capacity : t'.capacity = t.capacity

theorem Kept.releases (hkept : t.Kept held spare) (hheld : h ∈ held) {r : Record}
    (hget : t.get? h = some r) (hused : r.isUnused = false) :
    ∃ t', t.release h = pure t' ∧ t.Releases h r t' := by
  have ⟨t', heq, hkept', hself, hother, hcapacity, hchain, _⟩ :=
    (hkept.perm (List.perm_cons_erase hheld)).release hget hused
  refine ⟨t', heq, ?_, hself, hother, hchain, hcapacity⟩
  rw [hkept'.freeRecordList, hkept.freeRecordList]

/-- What shrinking does: the unused records at the end of the table are gone, and nothing
else but the order in which the others are recycled has changed. -/
structure Shortens (t : HeaderTable) (held : List Handle) (popped : Nat) (t' : HeaderTable) :
    Prop where
  capacity : t'.capacity + popped = t.capacity
  dropped : ∀ h, t'.capacity ≤ h.index → h.index < t.capacity →
    ∃ r, t.get? h = some r ∧ r.isUnused = true
  last : t'.capacity = 0 ∨ ∃ h ∈ held, h.index + 1 = t'.capacity
  get : ∀ h ∈ held, h.index < t'.capacity ∧ t'.get? h = t.get? h
  chain : t'.chain = t.chain
  once : t'.freeRecordList.Nodup
  spare : ∀ h, h ∈ t'.freeRecordList ↔
    h.index < t'.capacity ∧ ∃ r, t.get? h = some r ∧ r.isUnused = true
  idle : popped = 0 → t' = t
  ascending : popped ≠ 0 → (t'.freeRecordList.map Handle.index).Pairwise (· < ·)

/-- Where all records that are handed out describe chunks, the others are those that do not. -/
theorem Kept.mem_spare_iff (hkept : t.Kept held spare) (hlive : ∀ h ∈ held, t.Live h) :
    h ∈ spare ↔ ∃ r, t.get? h = some r ∧ r.isUnused = true := by
  refine ⟨fun hh => hkept.recycled.unused hh, fun ⟨r, hget, hunused⟩ => ?_⟩
  have hindex : h.index < t.capacity := by
    rw [← get?_isSome_iff, hget]
    rfl
  rcases List.mem_append.mp (hkept.mem_iff.mpr hindex) with hh | hh
  · obtain ⟨r', hget', hused⟩ := hlive h hh
    obtain rfl := Option.some.inj (hget.symm.trans hget')
    exact absurd (hunused.symm.trans hused) (by simp)
  · exact hh

/-- The unused records that remain were unused before, and no other is. -/
theorem Shrinks.mem_spare_iff {popped : Nat} {spare' : List Handle}
    (hshrinks : t.Shrinks held spare popped t' spare') (hkept : t.Kept held spare) :
    h ∈ spare' ↔ h.index < t'.capacity ∧ h ∈ spare := by
  have hkept' := hshrinks.kept
  have hcapacity := hshrinks.capacity
  have hmem : h ∈ held ++ spare ↔ h.index < t.capacity := hkept.mem_iff
  have hmem' : h ∈ held ++ spare' ↔ h.index < t'.capacity := hkept'.mem_iff
  rw [List.mem_append] at hmem hmem'
  constructor
  · intro hh
    have hlt := hmem'.mp (.inr hh)
    have hout : h ∉ held := fun hheld => hkept'.not_mem_spare hheld hh
    exact ⟨hlt, (hmem.mpr (by omega)).resolve_left hout⟩
  · rintro ⟨hlt, hh⟩
    have hout : h ∉ held := fun hheld => hkept.not_mem_spare hheld hh
    exact (hmem'.mpr hlt).resolve_left hout

theorem Kept.shortens (hkept : t.Kept held spare) (hlive : ∀ h ∈ held, t.Live h) :
    ∃ popped t', t.shrink.Yields (popped, t') ∧ t.Shortens held popped t' := by
  have ⟨popped, t', spare', hyields, hshrinks⟩ := hkept.shrink hlive
  have hkept' := hshrinks.kept
  have hcapacity := hshrinks.capacity
  have hremains : ∀ h ∈ held, h.index < t'.capacity := fun h hh =>
    hkept'.mem_iff.mp (List.mem_append_left spare' hh)
  refine
    ⟨popped, t', hyields,
      { capacity := hcapacity
        dropped := fun h hge hlt => (hkept.mem_spare_iff hlive).mp ?_
        last := hshrinks.last
        get := fun h hh => ⟨hremains h hh, hshrinks.get h hh⟩
        chain := hshrinks.chain
        once := hkept'.freeRecordList ▸ hkept'.nodup_spare
        spare := fun h => ?_
        idle := fun hzero => (hshrinks.idle hzero).1
        ascending := hkept'.freeRecordList ▸ hshrinks.ascending }⟩
  · have hout : h ∉ held := fun hh => absurd (hremains h hh) (Nat.not_lt.mpr hge)
    exact (List.mem_append.mp (hkept.mem_iff.mpr hlt)).resolve_left hout
  · rw [hkept'.freeRecordList, hshrinks.mem_spare_iff hkept, hkept.mem_spare_iff hlive]

/-! ## The discipline -/

/-- What the free-record chain tells of a table whose records in `held` are handed out. -/
structure Discipline (t : HeaderTable) (held : List Handle) (high : Nat) : Prop where
  /-- Each record is either handed out or on the free-record chain, and there once. -/
  partition : ((held ++ t.freeRecordList).map Handle.index).Perm (List.range t.capacity)
  unused : ∀ h ∈ t.freeRecordList, ∃ r, t.get? h = some r ∧ r.isUnused = true
  fits : t.footprint ≤ high
  allocate : ∀ linked floor reserve, 1 + reserve < Word.modulus →
    ∃ got, (t.allocate linked floor reserve).Yields got ∧
      t.Allocates held linked floor reserve got
  describe : ∀ h ∈ held, ∀ record, (t.set h record).freeRecordList = t.freeRecordList
  release : ∀ h ∈ held, ∀ r, t.get? h = some r → r.isUnused = false →
    ∃ t', t.release h = pure t' ∧ t.Releases h r t'
  shrink : (∀ h ∈ held, t.Live h) →
    ∃ popped t', t.shrink.Yields (popped, t') ∧ t.Shortens held popped t'

/-- Whatever records are obtained, described and released, in whatever order, the
free-record chain tells which are not handed out, and what comes next. -/
theorem discipline_of_managed (hmanaged : Managed high t held) : t.Discipline held high := by
  have ⟨spare, hkept, hhigh, hfits⟩ := hmanaged.kept
  exact
    { partition := hkept.freeRecordList ▸ hkept.partition
      unused := fun h hh => hkept.recycled.unused (hkept.freeRecordList ▸ hh)
      fits := hfits
      allocate := fun linked floor reserve =>
        hkept.allocates (hhigh ▸ hfits) linked floor
      describe := fun h hheld record =>
        (hkept.set hheld record).freeRecordList.trans hkept.freeRecordList.symm
      release := fun h hheld r => hkept.releases hheld
      shrink := hkept.shortens }

/-- The handles of the first records. -/
def nth (i : Fin 3) : Handle := ⟨i, i.isLt.trans (by decide)⟩

/-- The record of a chunk that was just carved. -/
def carvedAt (addr : Nat) (next : Option Handle) : Record :=
  { Record.unused with addr, next, state := .unlocked }

/-- Three records were carved, and then the first and the third of them released. -/
def gapped : HeaderTable where
  records := #[
    { carvedAt Record.unset none with state := .free },
    carvedAt 16 (some (nth 0)),
    { carvedAt Record.unset (some (nth 1)) with state := .free, nextUnused := some (nth 0) }]
  high := 320
  chain := some (nth 2)
  freeRecords := some (nth 2)

theorem managed_gapped : Managed 320 gapped [nth 1] := by
  have hone : Managed 320 ⟨#[carvedAt Record.unset none], 320, some (nth 0), none⟩ [nth 0] :=
    .allocate true 0 2 .debug .empty (by decide) rfl
  have hone := hone.describe (nth 0) (carvedAt 0 none) (by decide) rfl
  have htwo : Managed 320 ⟨#[carvedAt 0 none, carvedAt Record.unset (some (nth 0))], 320,
      some (nth 1), none⟩ [nth 1, nth 0] :=
    .allocate true 0 2 .debug hone (by decide) rfl
  have htwo := htwo.describe (nth 1) (carvedAt 16 (some (nth 0))) (by decide) rfl
  have hthree : Managed 320 ⟨#[carvedAt 0 none, carvedAt 16 (some (nth 0)),
      carvedAt Record.unset (some (nth 1))], 320, some (nth 2), none⟩ [nth 2, nth 1, nth 0] :=
    .allocate true 0 2 .debug htwo (by decide) rfl
  have hthree := hthree.describe (nth 2) (carvedAt 32 (some (nth 1))) (by decide) rfl
  have hgap := hthree.release (nth 0) .debug (by decide) ⟨_, rfl, rfl⟩ rfl
  exact hgap.release (nth 2) .debug (by decide) ⟨_, rfl, rfl⟩ rfl

theorem discipline_of_gapped :
    gapped.freeRecordList = [nth 2, nth 0] ∧ gapped.Discipline [nth 1] 320 :=
  ⟨rfl, discipline_of_managed managed_gapped⟩

end CompactingArena.HeaderTable
