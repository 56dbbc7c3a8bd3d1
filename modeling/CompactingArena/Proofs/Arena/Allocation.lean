import CompactingArena.Arena.Allocation
import CompactingArena.Proofs.Arena.Audit
import CompactingArena.Proofs.Counters
/-!
# Allocation keeps the invariant

A request is served with a new chunk on top or with a free one, whose excess is
split off.  Until the allocation is concluded the counters lag behind by the
chunk handed out: `Arena.Served` is the invariant with this one exception.
-/

namespace CompactingArena.Arena

open Layout

/-- A request was served with the chunk `c`, which is not accounted for yet. -/
structure Served (a : Arena) (chunks : List Chunk) (spare : List Handle) (c : Chunk) : Prop
    extends Orderly a chunks spare where
  mem : c ∈ chunks
  state : c.state = .unlocked
  count : a.counters.allocationCount + 1 = (used chunks).length
  bytes : a.counters.allocatedBytes + c.size = Layout.bytes (used chunks)

/-- The chunk that fresh memory makes. -/
def fresh (a : Arena) (h : Handle) (size : Nat) : Chunk := ⟨h, a.memoryHigh, size, .unlocked⟩

/-- The first `size` bytes of a chunk. -/
def resized (c : Chunk) (size : Nat) : Chunk := { c with size }

/-- The bytes of a chunk after the first `size`, as a free chunk. -/
def excess (c : Chunk) (size : Nat) (h : Handle) : Chunk :=
  ⟨h, c.addr + size, c.size - size, .free⟩

/-- A record can be had without the reserve: one is recycled, or there is room for one
more between the high-water mark and the header table. -/
def OffersRecord (a : Arena) : Prop :=
  a.headers.hasFreeRecord = true ∨
    a.memoryHigh + (1 + Record.reserved) * Record.bytes ≤ a.headerLow

/-- Where the chunk comes from that serves a request for `size` bytes: it is a new one on
top, or a free one.  The excess of a free chunk stays free, as a chunk of its own if it
can hold a trailer and a record can be had for it.  The high-water mark is `high` then. -/
inductive Source (a : Arena) (size high : Nat) : List Chunk → Chunk → List Chunk → Prop
  | fresh {chunks : List Chunk} (h : Handle)
      (hroom : a.memoryHigh + size + a.clearance ≤ a.headerLow)
      (hhigh : high = a.memoryHigh + size) :
      Source a size high chunks (a.fresh h size) (a.fresh h size :: chunks)
  | whole {before after : List Chunk} {c : Chunk} (hfree : c.isFree = true) (hfits : size ≤ c.size)
      (hkept : c.size - size < Trailer.bytes ∨ ¬a.OffersRecord ∨ a.headers.capacity = Handle.limit)
      (hhigh : high = a.memoryHigh) :
      Source a size high (before ++ c :: after) (c.inState .unlocked)
        (before ++ c.inState .unlocked :: after)
  | part {before after : List Chunk} {c : Chunk} (g : Handle) (hfree : c.isFree = true)
      (hfits : size ≤ c.size) (hsplit : Trailer.bytes ≤ c.size - size ∧ a.OffersRecord)
      (hhigh : high = a.memoryHigh) :
      Source a size high (before ++ c :: after) (resized (c.inState .unlocked) size)
        (before ++ resized (c.inState .unlocked) size :: excess c size g :: after)

/-- What serving a request of `size` bytes does to the chunks and the region. -/
structure Serves (a : Arena) (chunks : List Chunk) (size : Nat) (c : Chunk) (a' : Arena)
    (chunks' : List Chunk) : Prop where
  source : a.Source size a'.memoryHigh chunks c chunks'
  changed : a.region.Changed a'.region fun i => ∃ d ∈ frees chunks, d.Holds i
  config : a'.config = a.config
  backs : a.counters.Backs a'.counters
  totals : a.counters.SameAllocated a'.counters

variable {a : Arena} {chunks before after : List Chunk} {spare : List Handle} {c : Chunk}
  {h : Handle} {size requested : Nat}

theorem offersRecord_set (h : Handle) (record : Record) (classes : SizeClasses) (region : Region)
    (counters : Counters) :
    OffersRecord { a with headers := a.headers.set h record, classes, region, counters } ↔
      a.OffersRecord := by
  rw [OffersRecord, headerLow, HeaderTable.low_set]
  rfl

/-- Only the chunk that is handed out joins the chunks in use. -/
theorem Source.used {high : Nat} {chunks' : List Chunk}
    (h : a.Source size high chunks c chunks') : (used chunks').Perm (c :: used chunks) := by
  cases h with
  | fresh h => rw [used_cons]; exact .refl _
  | whole hfree =>
      have hunlocked (c : Chunk) : (c.inState .unlocked).isFree = false := rfl
      simp only [used_append, used_cons, hfree, hunlocked, if_true, Bool.false_eq_true, if_false]
      exact List.perm_middle
  | part g hfree =>
      have hresized (c : Chunk) : (resized (c.inState .unlocked) size).isFree = false := rfl
      have hexcess (c : Chunk) : (excess c size g).isFree = true := rfl
      simp only [used_append, used_cons, hfree, hresized, hexcess, if_true, Bool.false_eq_true,
        if_false]
      exact List.perm_middle

theorem Source.least {high : Nat} {chunks' : List Chunk}
    (h : a.Source size high chunks c chunks') : size ≤ c.size := by
  cases h with
  | fresh => exact le_refl _
  | whole _ hfits => exact hfits
  | part => exact le_refl _

/-- The chunk that is handed out was not in use. -/
theorem Source.inUse?_eq_none {b : Arena} {spare' : List Handle} {high : Nat}
    {chunks' : List Chunk} (h : a.Source size high chunks c chunks') (hlaid : a.Laid chunks spare)
    (hlaid' : b.Laid chunks' spare') : a.inUse? c.handle = none := by
  -- the chunks in use afterwards have different handles
  have hnodup : (handles (Layout.used chunks')).Nodup :=
    hlaid'.nodup_handles.sublist (List.filter_sublist.map _)
  have hperm : (handles (Layout.used chunks')).Perm (c.handle :: handles (Layout.used chunks)) :=
    h.used.map _
  rw [hperm.nodup_iff, List.nodup_cons] at hnodup
  rw [Option.eq_none_iff_forall_not_mem]
  intro r hr
  obtain ⟨d, hd, hhandle, -⟩ := hlaid.inUse?_eq_some_iff.mp hr
  exact hnodup.1 (hhandle ▸ handle_mem hd)

/-- A chunk holds what was requested, and a trailer once it is free. -/
theorem chunkSize?_eq_some (hsize : chunkSize? requested = some size) :
    requested ≤ size ∧ Trailer.bytes ≤ size ∧ size % Word.alignment = 0 := by
  rw [chunkSize?, Option.map_eq_some_iff] at hsize
  obtain ⟨rounded, hrounded, rfl⟩ := hsize
  obtain ⟨-, hle, -, hmod⟩ := Word.alignUp_eq_some_iff.mp hrounded
  simp only [Trailer.bytes, Word.alignment]
  omega

/-- The counters before the chunk handed out is accounted for. -/
theorem Accounts.serve {counters : Counters} {chunks' : List Chunk}
    (haccounts : Accounts counters chunks) (hused : (used chunks').Perm (c :: used chunks)) :
    counters.allocationCount + 1 = (used chunks').length ∧
      counters.allocatedBytes + c.size = Layout.bytes (used chunks') := by
  rw [haccounts.count, haccounts.bytes, hused.length_eq, bytes_perm hused, List.length_cons,
    bytes_cons]
  exact ⟨rfl, Nat.add_comm _ _⟩

/-! ## Fresh memory -/

theorem Laid.hasFreeRecord_iff (hlaid : a.Laid chunks spare) :
    a.headers.hasFreeRecord = false ↔ spare = [] := by
  have hrecycled := hlaid.kept.recycled
  cases spare with
  | nil =>
      have hnone : a.headers.freeRecords = none := hrecycled
      simp [HeaderTable.hasFreeRecord, hnone]
  | cons g spare =>
      have hsome : a.headers.freeRecords = some g := hrecycled.1
      simp [HeaderTable.hasFreeRecord, hsome]

/-- There is no room for a chunk of `size` bytes: every free chunk is too small, and a
new one would come too near to the header table or find no record there. -/
structure Packed (a : Arena) (chunks : List Chunk) (size : Nat) : Prop where
  small : ∀ c ∈ frees chunks, c.size < size
  near : a.headerLow < a.memoryHigh + size + a.clearance ∨ a.headers.capacity = Handle.limit

theorem Laid.low_le_max (hlaid : a.Laid chunks spare) : a.headerLow ≤ Word.max := by
  rw [hlaid.low_eq]
  exact (Nat.sub_le _ _).trans hlaid.size_le_max

/-- No chunk is made that would come too near to the header table. -/
theorem Laid.bump_none (hlaid : a.Laid chunks spare)
    (hnear : a.headerLow < a.memoryHigh + size + a.clearance) : a.bump size = pure none := by
  rw [Arena.bump, hlaid.lowest_eq, pure_bind]
  exact ite_eq_left_iff.mpr fun _ => if_pos hnear

/-- Fresh memory makes a chunk on top, unless the header table is in the way. -/
theorem Laid.bump (hlaid : a.Laid chunks spare)
    (hleast : Trailer.bytes ≤ size) (haligned : size % Word.alignment = 0) :
    ((a.bump size).Yields none ∧ (a.headerLow < a.memoryHigh + size + a.clearance ∨
        a.headers.capacity = Handle.limit)) ∨
      ∃ h headers spare',
        (a.bump size).Yields (some (h, { a with
          headers, memoryHigh := a.memoryHigh + size, highest := some h })) ∧
        Arena.Laid { a with headers, memoryHigh := a.memoryHigh + size, highest := some h }
          (a.fresh h size :: chunks) spare' ∧
        (a.headers.Tight spare → headers.Tight spare') ∧
        a.memoryHigh + size + a.clearance ≤ a.headerLow := by
  by_cases hguard : a.headerLow < a.memoryHigh + size + a.clearance
  · left
    rw [hlaid.bump_none hguard]
    exact ⟨Act.yields_pure _, .inl hguard⟩
  have hword : ¬Word.max < a.memoryHigh + size + a.clearance := by
    have hmax := hlaid.low_le_max
    omega
  rw [Arena.bump, if_neg hword, hlaid.lowest_eq, pure_bind, if_neg hguard]
  have hlow := hlaid.low_eq
  have hroom := hlaid.room
  obtain ⟨got, halloc, hgot⟩ := hlaid.kept.allocate hlaid.footprint_le true (a.memoryHigh + size)
    (show 1 + Record.reserved < Word.modulus by decide)
  rcases got with _ | ⟨h, t'⟩
  · left
    obtain ⟨hspare, hwhy⟩ := hgot
    have hclearance : a.clearance = (1 + Record.reserved) * Record.bytes := by
      rw [clearance, hlaid.hasFreeRecord_iff.mpr hspare]
      rfl
    refine ⟨halloc.bind (Act.yields_pure _), .inr (hwhy.resolve_left ?_)⟩
    rw [← hclearance]
    exact hguard
  · right
    obtain ⟨hobtains, spare', hkept, hwhere⟩ := hgot
    set record : Record :=
      { a.headers.obtained true with addr := a.memoryHigh, size } with hrecord
    have hfresh : h ∉ handles chunks := hkept.fresh
    have hchained : (t'.set h record).Lists (t'.set h record).chain (a.fresh h size :: chunks)
        none := by
      refine ⟨hobtains.chain, record, hobtains.get?_set_self record, ⟨rfl, rfl, rfl⟩, ?_⟩
      exact (hlaid.chained.frame_single hobtains.get_other hfresh).set hfresh
    have hfootprint : a.memoryHigh + size + (t'.set h record).footprint ≤ a.region.size := by
      rw [HeaderTable.footprint, HeaderTable.capacity_set, ← hlaid.high]
      exact HeaderTable.room_of_capacity _ (by rw [hlaid.high]; omega)
        (hwhere.imp And.right And.right)
    have hsized : ∀ d ∈ a.fresh h size :: chunks, d.Sized := by
      intro d hd
      rcases List.mem_cons.mp hd with rfl | hd
      · exact ⟨hleast, haligned⟩
      · exact hlaid.sized d hd
    refine ⟨h, t'.set h record, spare', halloc.bind ?_, ⟨hchained, hkept.set (by simp) record,
      hlaid.fills.push rfl, hsized, hobtains.high.trans hlaid.high, hfootprint, hlaid.least,
      hlaid.limit⟩, fun htight => ?_, Nat.le_of_not_lt hguard⟩
    · simp only [HeaderTable.update_eq hobtains.get_self, pure_bind]
      exact Act.yields_pure _
    · have hplaced := hwhere.imp_right (And.imp_right And.left)
      exact (hlaid.kept.tight_obtained htight hkept hplaced).congr (HeaderTable.capacity_set _ _ _)

/-- Fresh memory serves a request unless the header table is in the way. -/
theorem Sound.bump (hsound : a.Sound chunks spare)
    (hleast : Trailer.bytes ≤ size) (haligned : size % Word.alignment = 0) :
    ((a.bump size).Yields none ∧ (a.headerLow < a.memoryHigh + size + a.clearance ∨
        a.headers.capacity = Handle.limit)) ∨
      ∃ h a' spare', (a.bump size).Yields (some (h, a')) ∧
        a'.Served (a.fresh h size :: chunks) spare' (a.fresh h size) ∧
        a.Serves chunks size (a.fresh h size) a' (a.fresh h size :: chunks) := by
  rcases hsound.toLaid.bump hleast haligned with
    hrefused | ⟨h, headers, spare', hbump, hlaid', htight, hroom⟩
  · exact .inl hrefused
  · right
    have hserves : a.Serves chunks size (a.fresh h size)
        { a with headers, memoryHigh := a.memoryHigh + size, highest := some h }
        (a.fresh h size :: chunks) :=
      ⟨.fresh h hroom rfl, .refl _ _, rfl, .of_le (le_refl _) rfl, ⟨rfl, rfl⟩⟩
    obtain ⟨hcount, hbytes⟩ := hsound.accounts.serve hserves.source.used
    exact ⟨h, _, spare', hbump,
      ⟨⟨hlaid', .inr ⟨_, List.mem_cons_self, rfl, rfl⟩, hsound.covers, htight hsound.tight⟩,
        List.mem_cons_self, rfl, hcount, hbytes⟩, hserves⟩

/-! ## Reclaimed chunks -/

theorem tiles_split (h : Handle) (hsize : size ≤ c.size) :
    Tiles c.addr [resized c size, excess c size h] c.acme := by
  refine ⟨rfl, rfl, ?_⟩
  change c.addr + size + (c.size - size) = c.addr + c.size
  omega

theorem excess_acme (h : Handle) (hsize : size ≤ c.size) : (excess c size h).acme = c.acme := by
  change c.addr + size + (c.size - size) = c.addr + c.size
  omega

theorem used_split (hc : c.isFree = false) (h : Handle) :
    used (before ++ resized c size :: excess c size h :: after) =
      used before ++ resized c size :: used after := by
  have hresized : (resized c size).isFree = false := hc
  have hexcess : (excess c size h).isFree = true := rfl
  rw [used_append, used_cons, used_cons, hresized, hexcess]
  rfl

theorem frees_split (hc : c.isFree = false) (h : Handle) :
    (frees (before ++ resized c size :: excess c size h :: after)).Perm
      (excess c size h :: frees (before ++ c :: after)) := by
  have hresized : (resized c size).isFree = false := hc
  have hexcess : (excess c size h).isFree = true := rfl
  rw [frees_append, frees_cons, frees_cons, hresized, hexcess, frees_append, frees_cons, hc]
  exact List.perm_middle

theorem handles_split (g : Handle) :
    (g :: handles (before ++ c :: after)).Perm
      (handles (before ++ resized c size :: excess c size g :: after)) := by
  simp only [handles_append, handles_cons]
  calc
    List.Perm (g :: (handles before ++ c.handle :: handles after))
        (handles before ++ g :: c.handle :: handles after) := List.perm_middle.symm
    List.Perm _ (handles before ++ c.handle :: g :: handles after) :=
      (List.Perm.swap _ _ _).append_left _

/-- The excess of a chunk is aligned like the chunk and what is left of it. -/
theorem sized_split (hsized : ∀ d ∈ before ++ c :: after, d.Sized) (hleast : Trailer.bytes ≤ size)
    (haligned : size % Word.alignment = 0) (hexcess : size + Trailer.bytes ≤ c.size) (g : Handle) :
    ∀ d ∈ before ++ resized c size :: excess c size g :: after, d.Sized := by
  have hrest : (excess c size g).Sized := by
    have hmod := (hsized c (by simp)).2
    unfold Word.alignment at hmod haligned
    constructor
    · change Trailer.bytes ≤ c.size - size
      omega
    · change (c.size - size) % 8 = 0
      omega
  intro d hd
  simp only [List.mem_append, List.mem_cons] at hd
  rcases hd with hd | rfl | rfl | hd
  · exact hsized d (by simp [hd])
  · exact ⟨hleast, haligned⟩
  · exact hrest
  · exact hsized d (by simp [hd])

/-- The record obtained for the excess is linked in behind that of the chunk. -/
theorem lists_split {t t' : HeaderTable} {g : Handle} {r rest : Record} {start stop : Option Handle}
    (hlists : t.Lists start (before ++ c :: after) stop)
    (hnodup : (g :: handles (before ++ c :: after)).Nodup) (hobtains : t.Obtains false g t')
    (hget : t.get? c.handle = some r) (hrest : rest.Describes (excess c size g))
    (hnext : rest.next = r.next) :
    ((t'.set g rest).set c.handle { r with size, next := some g }).Lists start
      (before ++ resized c size :: excess c size g :: after) stop := by
  obtain ⟨hg, hnodup⟩ := List.nodup_cons.mp hnodup
  have hout : c.handle ∉ handles before ∧ c.handle ∉ handles after := by
    simpa using (nodup_handles_middle.mp hnodup).1
  have hne : c.handle ≠ g := by
    rintro rfl
    exact hg (handle_mem (by simp))
  have hgout : g ∉ handles before ∧ g ∉ handles after := by
    constructor <;> intro h <;> exact hg (by simp [h])
  have hgetc : (t'.set g rest).get? c.handle = some r :=
    (hobtains.get?_set_other rest hne).trans hget
  have hsame : ∀ l, g ∉ handles l → c.handle ∉ handles l → ∀ d ∈ l,
      ((t'.set g rest).set c.handle { r with size, next := some g }).get? d.handle =
        t.get? d.handle := by
    intro l hgl hcl d hd
    have hdc : c.handle ≠ d.handle := fun heq => hcl (heq ▸ handle_mem hd)
    have hdg : g ≠ d.handle := fun heq => hgl (heq ▸ handle_mem hd)
    rw [HeaderTable.get?_set, if_neg hdc, hobtains.get?_set_other _ (Ne.symm hdg)]
  have hdesc := hlists.describes (by simp) hget
  obtain ⟨hlower, -, r', hget', -, hupper⟩ := HeaderTable.lists_append.mp hlists
  obtain rfl : r = r' := Option.some.inj (hget.symm.trans hget')
  refine HeaderTable.lists_append.mpr ⟨hlower.congr (hsame _ hgout.1 hout.1), rfl,
    { r with size, next := some g }, ?_, ⟨hdesc.addr, rfl, hdesc.state⟩, rfl, rest, ?_, hrest, ?_⟩
  · rw [HeaderTable.get?_set]
    simp [resized, hgetc]
  · rw [HeaderTable.get?_set]
    simp [excess, hne, hobtains.get?_set_self]
  · rw [hnext]
    exact hupper.congr (hsame _ hgout.2 hout.2)

/-- The layout after a split: `g` describes the excess and follows `c`. -/
theorem Laid.split {b : Arena} {g : Handle} {t : HeaderTable} {r rest : Record}
    {spare' : List Handle} (hlaid : a.Laid (before ++ c :: after) spare)
    (hkept : t.Kept (g :: handles (before ++ c :: after)) spare')
    (hobtains : a.headers.Obtains false g t)
    (hroom : a.memoryHigh + t.footprint ≤ a.region.size)
    (hget : a.headers.get? c.handle = some r)
    (hrest : rest.Describes (excess c size g)) (hnext : rest.next = r.next)
    (hleast : Trailer.bytes ≤ size) (haligned : size % Word.alignment = 0)
    (hexcess : size + Trailer.bytes ≤ c.size)
    (hheaders : b.headers = (t.set g rest).set c.handle { r with size, next := some g })
    (hregion : b.region.size = a.region.size) (hhigh : b.memoryHigh = a.memoryHigh) :
    b.Laid (before ++ resized c size :: excess c size g :: after) spare' where
  chained := by
    have hchain : b.headers.chain = a.headers.chain := by
      rw [hheaders]
      exact hobtains.chain
    rw [hchain, hheaders]
    exact lists_split hlaid.chained hkept.nodup_held hobtains hget hrest hnext
  kept := by
    rw [hheaders]
    exact ((hkept.set (by simp) rest).set (by simp) _).perm (handles_split g)
  fills := by
    have hfills := hlaid.fills.replace (tiles_split g (by omega : size ≤ c.size))
    rw [hhigh]
    simpa using hfills
  sized := sized_split hlaid.sized hleast haligned hexcess g
  high := by
    rw [hheaders, hregion]
    exact hobtains.high.trans hlaid.high
  room := by
    rw [hheaders, hregion, hhigh, HeaderTable.footprint, HeaderTable.capacity_set,
      HeaderTable.capacity_set]
    exact hroom
  least := hregion ▸ hlaid.least
  limit := hregion ▸ hlaid.limit

theorem Topped.split {b : Arena} {g : Handle} (htopped : a.Topped (before ++ c :: after))
    (hnodup : (handles (before ++ c :: after)).Nodup) (hsize : size ≤ c.size)
    (hhighest : b.highest = if a.highest = some c.handle then some g else a.highest)
    (hhigh : b.memoryHigh = a.memoryHigh) :
    b.Topped (before ++ resized c size :: excess c size g :: after) := by
  rcases htopped with ⟨-, hempty⟩ | ⟨e, he, hhandle, hacme⟩
  · exact absurd hempty (by simp)
  right
  rw [hhighest, hhigh]
  by_cases htop : a.highest = some c.handle
  · have heq : e = c := by
      apply eq_of_handle_eq hnodup he (by simp)
      rw [hhandle, Option.some.injEq] at htop
      exact htop
    rw [if_pos htop]
    exact ⟨excess c size g, by simp, rfl, by rw [excess_acme g hsize, ← hacme, heq]⟩
  · rw [if_neg htop]
    refine ⟨e, ?_, hhandle, hacme⟩
    simp only [List.mem_append, List.mem_cons] at he ⊢
    rcases he with he | rfl | he
    · exact .inl he
    · exact absurd hhandle htop
    · exact .inr (.inr (.inr he))

/-- An arena with the excess of the chunk of `h` split off as the chunk of `g`. -/
def splitOff (a : Arena) (h g : Handle) (headers : HeaderTable) (classes : SizeClasses)
    (region : Region) : Arena :=
  { a with
    headers, classes, region, highest := if a.highest = some h then some g else a.highest }

/-- Splitting keeps the chunk as it is, if the excess has no room for a trailer or
there is no record for it.  Otherwise the excess is filed. -/
theorem Laid.exists_splitOff (hlaid : a.Laid (before ++ c :: after) spare)
    (hsize : size ≤ c.size) (hleast : Trailer.bytes ≤ size) (haligned : size % Word.alignment = 0) :
    ((a.split c.handle c.size size).Yields a ∧ (c.size - size < Trailer.bytes ∨
        ¬a.OffersRecord ∨ a.headers.capacity = Handle.limit)) ∨
      ∃ g headers spare', (Trailer.bytes ≤ c.size - size ∧ a.OffersRecord) ∧
        (a.headers.Tight spare → headers.Tight spare') ∧
        (∀ classes region, region.size = a.region.size →
          (a.splitOff c.handle g headers classes region).Laid
            (before ++ resized c size :: excess c size g :: after) spare') ∧
        ∀ classes region, a.classes.insert headers a.region g = pure (classes, region) →
          (a.split c.handle c.size size).Yields (a.splitOff c.handle g headers classes region) := by
  by_cases hsmall : c.size - size < Trailer.bytes
  · rw [Arena.split, Word.sub_eq hsize, pure_bind, if_pos hsmall]
    exact .inl ⟨Act.yields_pure _, .inl hsmall⟩
  obtain ⟨got, halloc, hgot⟩ := hlaid.kept.allocate hlaid.footprint_le false a.memoryHigh
    (show 1 + Record.reserved < Word.modulus by decide)
  rcases got with _ | ⟨g, t⟩
  · obtain ⟨hspare, hwhy⟩ := hgot
    have hrecord : ¬a.OffersRecord ∨ a.headers.capacity = Handle.limit := by
      refine hwhy.imp_left fun hlow hoffers => ?_
      rcases hoffers with hfree | hroom
      · rw [hlaid.hasFreeRecord_iff.mpr hspare] at hfree
        exact absurd hfree (by decide)
      · exact absurd hroom (Nat.not_le.mpr hlow)
    rw [Arena.split, Word.sub_eq hsize, pure_bind, if_neg hsmall]
    exact .inl ⟨halloc.bind (Act.yields_pure _), .inr hrecord⟩
  right
  obtain ⟨hobtains, spare', hkept, hwhere⟩ := hgot
  have hrecord : a.OffersRecord := by
    refine hwhere.imp (fun hrecycled => ?_) fun hcarved => hcarved.2.2
    rw [← Bool.not_eq_false, hlaid.hasFreeRecord_iff, hrecycled.1]
    exact List.cons_ne_nil _ _
  have hc : c ∈ before ++ c :: after := by simp
  obtain ⟨r, hget, hdesc⟩ := hlaid.chained.get hc
  have hne : c.handle ≠ g := by
    rintro rfl
    exact hkept.fresh (handle_mem hc)
  have hroom : a.memoryHigh + t.footprint ≤ a.region.size := by
    rw [← hlaid.high]
    exact HeaderTable.room_of_capacity _ (hlaid.high ▸ hlaid.room)
      (hwhere.imp And.right And.right)
  set rest : Record := ⟨c.addr + size, c.size - size, r.next, none, .free⟩ with hrest
  refine ⟨g, (t.set g rest).set c.handle { r with size, next := some g }, spare',
    ⟨by omega, hrecord⟩, fun htight => ?_, fun classes region hregion => ?_,
    fun classes region hinsert => ?_⟩
  · apply (hlaid.kept.tight_obtained htight hkept (hwhere.imp_right (And.imp_right And.left))).congr
    rw [HeaderTable.capacity_set, HeaderTable.capacity_set]
  · exact hlaid.split hkept hobtains hroom hget
      (show rest.Describes (excess c size g) from ⟨rfl, rfl, rfl⟩) rfl hleast haligned (by omega)
      rfl hregion rfl
  · have haddr : Word.add r.addr size = pure (c.addr + size) := by
      have hbound := (hlaid.places hc).bound
      have hmax := hlaid.size_le_max
      have hword : Word.max + 1 = Word.modulus := rfl
      unfold Chunk.acme at hbound
      rw [hdesc.addr, Word.add_eq (by omega)]
    have hgetg : t.get? g = some (a.headers.obtained false) := hobtains.get_self
    have hgetc : (t.set g rest).get? c.handle = some r :=
      (hobtains.get?_set_other rest hne).trans hget
    rw [Arena.split, Word.sub_eq hsize, pure_bind, if_neg hsmall]
    apply halloc.bind
    simp only [HeaderTable.get_eq hget, pure_bind, haddr, HeaderTable.update_eq hgetg]
    rw [← hrest, HeaderTable.update_eq hgetc, pure_bind, hinsert, pure_bind]
    exact Act.yields_pure _

theorem Served.split (hserved : a.Served (before ++ c :: after) spare c)
    (hsize : size ≤ c.size) (hleast : Trailer.bytes ≤ size) (haligned : size % Word.alignment = 0) :
    ((a.split c.handle c.size size).Yields a ∧ (c.size - size < Trailer.bytes ∨
        ¬a.OffersRecord ∨ a.headers.capacity = Handle.limit)) ∨
      ∃ g a' spare', (a.split c.handle c.size size).Yields a' ∧
        a'.Served (before ++ resized c size :: excess c size g :: after) spare' (resized c size) ∧
        (Trailer.bytes ≤ c.size - size ∧ a.OffersRecord) ∧
        a.region.Changed a'.region (Region.InTrailer c.acme) ∧
        a'.config = a.config ∧ a'.memoryHigh = a.memoryHigh ∧ a'.counters = a.counters := by
  rcases hserved.toLaid.exists_splitOff hsize hleast haligned with
    hwhole | ⟨g, headers, spare', hlarge, htight, hlaid', hsplit⟩
  · exact .inl hwhole
  right
  have hcused : c.isFree = false := by
    rw [Chunk.isFree, hserved.state]
    rfl
  have hfrees : (frees (before ++ resized c size :: excess c size g :: after)).Perm
      (excess c size g :: frees (before ++ c :: after)) := frees_split hcused g
  have hlaid := hlaid' a.classes a.region rfl
  have hfresh : excess c size g ∉ frees (before ++ c :: after) :=
    (List.nodup_cons.mp (hfrees.nodup_iff.mp (hlaid.nodup.filter _))).1
  have hfilable : SizeClasses.Filable headers a.region
      (excess c size g :: frees (before ++ c :: after)) :=
    hlaid.filable.subset fun d hd => (mem_frees.mp (hfrees.mem_iff.mpr hd)).1
  obtain ⟨classes', region', hinsert, hcovers', hchanged⟩ :=
    hserved.covers.insert hfilable hfresh rfl
  rw [excess_acme g hsize] at hchanged
  have hcount := hserved.count
  have hbytes := hserved.bytes
  simp only [used_append, used_cons, hcused, Bool.false_eq_true, if_false, List.length_append,
    List.length_cons, bytes_append, bytes_cons] at hcount hbytes
  refine ⟨g, a.splitOff c.handle g headers classes' region', spare', hsplit _ _ hinsert,
    ⟨⟨hlaid' _ _ hchanged.size, hserved.topped.split hserved.nodup_handles hsize rfl rfl,
      hcovers'.perm hfrees.symm, htight hserved.tight⟩, by simp, hserved.state, ?_, ?_⟩, hlarge,
    hchanged, rfl, rfl, rfl⟩
  · rw [used_split hcused, List.length_append, List.length_cons]
    exact hcount
  · rw [used_split hcused, bytes_append, bytes_cons]
    change a.counters.allocatedBytes + size = _ + (size + _)
    omega

theorem Sound.take {classes : SizeClasses} {region : Region} {r : Record}
    (hsound : a.Sound (before ++ c :: after) spare) (counters : Counters) (hc : c.isFree = true)
    (htakes : a.classes.Takes a.region (frees (before ++ c :: after)) c classes region)
    (hget : a.headers.get? c.handle = some r) (hdesc : r.Describes c)
    (hcount : counters.allocationCount = a.counters.allocationCount)
    (hbytes : counters.allocatedBytes = a.counters.allocatedBytes) :
    ({ a with
      headers := a.headers.set c.handle { r with state := .unlocked }
      classes, region, counters } : Arena).Served (before ++ c.inState .unlocked :: after) spare
        (c.inState .unlocked) := by
  obtain ⟨⟨free', hperm, hcovers⟩, hchanged⟩ := htakes
  have hunlocked : (c.inState .unlocked).isFree = false := rfl
  have hused : (used (before ++ c.inState .unlocked :: after)).Perm
      (c.inState .unlocked :: used (before ++ c :: after)) := by
    simp only [used_append, used_cons, hc, hunlocked, if_true, Bool.false_eq_true, if_false]
    exact List.perm_middle
  obtain ⟨hcount', hbytes'⟩ := hsound.accounts.serve hused
  refine ⟨⟨hsound.toLaid.replace hget rfl rfl rfl
      (show Record.Describes { r with state := .unlocked } (c.inState .unlocked) from
        ⟨hdesc.addr, hdesc.size, rfl⟩) rfl rfl hchanged.size rfl,
    hsound.topped.replace rfl rfl rfl rfl, hcovers.perm ?_,
    hsound.tight.congr (HeaderTable.capacity_set _ _ _)⟩, by simp, rfl, ?_, ?_⟩
  · simp only [frees_append, frees_cons, hc, hunlocked, if_true, Bool.false_eq_true,
      if_false] at hperm ⊢
    exact (List.perm_middle.symm.trans hperm).cons_inv.symm
  · rw [hcount]
    exact hcount'
  · rw [hbytes]
    exact hbytes'

/-- A search of the free lists of a sound arena takes a free chunk out that is large
enough, unless all are too small. -/
theorem Sound.find (hsound : a.Sound chunks spare) (hpos : 0 < size) :
    ((∀ d ∈ frees chunks, d.size < size) ∧
        a.classes.find a.headers a.region size = pure (.ok none, a.classes, a.region)) ∨
      ∃ d ∈ frees chunks, size ≤ d.size ∧ ∃ classes region,
        (a.classes.find a.headers a.region size).Yields (.ok (some d.handle), classes, region) ∧
          a.classes.Takes a.region (frees chunks) d classes region :=
  hsound.covers.find (hsound.filable.subset fun _ hd => (mem_frees.mp hd).1)
    (fun _ hd => (mem_frees.mp hd).2)
    (hsound.nodup_handles.sublist (List.filter_sublist.map _)) hpos

/-- A free chunk serves a request, unless all are too small. -/
theorem Sound.reuse (hsound : a.Sound chunks spare)
    (hleast : Trailer.bytes ≤ size) (haligned : size % Word.alignment = 0) :
    Act.Agrees (a.reuse size) (fun (_, a') => a.counters.Wraps a.region.size a'.counters) fun
      | (none, a') => a' = a ∧ ∀ c ∈ frees chunks, c.size < size
      | (some h, a') => ∃ chunks' spare' c, a'.Served chunks' spare' c ∧ c.handle = h ∧
          a.Serves chunks size c a' chunks' ∧ h ∈ handles chunks := by
  rw [Arena.reuse]
  rcases hsound.find (lt_of_lt_of_le (by decide) hleast : 0 < size) with
    ⟨hsmall, hfind⟩ | ⟨d, hd, hfit, classes, region, hfind, htakes⟩
  · rw [hfind, pure_bind]
    exact .of_pure ⟨rfl, hsmall⟩
  obtain ⟨hd, hfree⟩ := mem_frees.mp hd
  obtain ⟨before, after, rfl⟩ := List.append_of_mem hd
  obtain ⟨r, hget, hdesc⟩ := hsound.chained.get hd
  have hplaces := hsound.places hd
  have hsize : d.size ≤ a.region.size := (Nat.le_add_left _ _).trans hplaces.bound
  have hone : 1 ≤ a.region.size := by
    have hpos := (hsound.sized d hd).pos
    omega
  apply Act.Agrees.bind_yields hfind
  simp only [HeaderTable.get_eq hget, HeaderTable.update_eq hget, pure_bind, hdesc.size]
  apply (Counters.agrees_accountReuse hone hsize hsound.size_lt_modulus).bind
  rintro counters ⟨hits, bytes, rfl⟩
  have hserved := hsound.take { a.counters with freeListHits := hits, freeListBytes := bytes } hfree
    htakes hget hdesc rfl rfl
  rw [hdesc.size] at hserved
  have hchanged := htakes.changed.mono fun i ⟨e, he, hi⟩ =>
    show ∃ e ∈ frees (before ++ d :: after), e.Holds i from
      ⟨e, he, Chunk.holds_of_inTrailer (hsound.places (mem_frees.mp he).1).least hi⟩
  rcases hserved.split hfit hleast haligned with
    ⟨hsplit, hkept⟩ | ⟨g, a', spare', hsplit, hserved', hrest, hchanged', hconfig, hhigh, hcounters⟩
  · have hkept : d.size - size < Trailer.bytes ∨ ¬a.OffersRecord ∨
        a.headers.capacity = Handle.limit :=
      hkept.imp_right (Or.imp (mt (offersRecord_set _ _ _ _ _).mpr)
        (HeaderTable.capacity_set _ _ _).symm.trans)
    exact .bind_yields hsplit (.of_pure ⟨⟨_, _, _, hserved, rfl,
      ⟨.whole hfree hfit hkept rfl, hchanged, rfl, .of_le (le_refl _) rfl, ⟨rfl, rfl⟩⟩,
        handle_mem hd⟩, id⟩)
  · have hrecord : a.OffersRecord := (offersRecord_set _ _ _ _ _).mp hrest.2
    refine .bind_yields hsplit (.of_pure ⟨⟨_, _, _, hserved', rfl,
      ⟨.part g hfree hfit ⟨hrest.1, hrecord⟩ hhigh, ?_, hconfig, ?_, ?_⟩, handle_mem hd⟩, ?_⟩)
    · exact hchanged.trans (hchanged'.mono fun i hi => ⟨d, mem_frees.mpr ⟨hd, hfree⟩,
        Chunk.holds_of_inTrailer hplaces.least hi⟩)
    · rw [hcounters]
      exact .of_le (le_refl _) rfl
    · rw [hcounters]
      exact ⟨rfl, rfl⟩
    · rw [hcounters]
      exact id

/-! ## Serving a request -/

/-- Where a new chunk would come too near to the header table and every free chunk is
too small, an attempt finds no room. -/
theorem Sound.tryAllocate_none (hsound : a.Sound chunks spare) (hpos : 0 < size)
    (hsmall : ∀ d ∈ frees chunks, d.size < size)
    (hnear : a.headerLow < a.memoryHigh + size + a.clearance) :
    a.tryAllocate size = pure (none, a) := by
  have hbump : a.bump size = pure none := hsound.bump_none hnear
  have hreuse : a.reuse size = pure (none, a) := by
    rw [Arena.reuse]
    rcases hsound.find hpos with
      ⟨-, hfind⟩ | ⟨d, hd, hfit, -⟩
    · rw [hfind, pure_bind]
    · exact absurd (hsmall d hd) (Nat.not_lt.mpr hfit)
  rw [Arena.tryAllocate]
  cases a.config.placement with
  | reuseFirst =>
      simp only [hreuse, pure_bind, hbump]
  | bumpFirst =>
      simp only [hbump, pure_bind, hreuse]

/-- What the placement policy prefers could not serve the request, if it was served
otherwise. -/
structure Prefers (a : Arena) (chunks : List Chunk) (size : Nat) (h : Handle) : Prop where
  reuse : a.config.placement = .reuseFirst → h ∉ handles chunks → ∀ d ∈ frees chunks, d.size < size
  bump : a.config.placement = .bumpFirst → h ∈ handles chunks →
    a.headerLow < a.memoryHigh + size + a.clearance ∨ a.headers.capacity = Handle.limit

/-- One attempt to serve a request: the handle names a chunk that was not in
use, or there is no room and nothing has changed. -/
theorem Sound.tryAllocate (hsound : a.Sound chunks spare)
    (hleast : Trailer.bytes ≤ size) (haligned : size % Word.alignment = 0) :
    Act.Agrees (a.tryAllocate size) (fun (_, a') => a.counters.Wraps a.region.size a'.counters) fun
      | (none, a') => a' = a ∧ a.Packed chunks size
      | (some h, a') => ∃ chunks' spare' c, a'.Served chunks' spare' c ∧ c.handle = h ∧
          a.Serves chunks size c a' chunks' ∧ a.Prefers chunks size h := by
  have hbump := hsound.bump hleast haligned
  have hreuse := hsound.reuse hleast haligned
  rw [Arena.tryAllocate]
  cases hplacement : a.config.placement with
  | reuseFirst =>
      have hprefers {h : Handle} (hwhy : h ∉ handles chunks → ∀ d ∈ frees chunks, d.size < size) :
          a.Prefers chunks size h :=
        ⟨fun _ => hwhy, fun hother => by simp [hplacement] at hother⟩
      apply hreuse.bind
      rintro ⟨_ | h, a'⟩ hpost
      · obtain ⟨rfl, hsmall⟩ := hpost
        rcases hbump with ⟨hbump, hnear⟩ | ⟨h, a'', spare', hbump, hserved, hserves⟩
        · exact .bind_yields hbump (.of_pure ⟨⟨rfl, hsmall, hnear⟩, id⟩)
        · exact .bind_yields hbump (.of_pure
            ⟨⟨_, _, _, hserved, rfl, hserves, hprefers fun _ => hsmall⟩,
              fun hover => absurd hover Counters.not_wraps_self⟩)
      · obtain ⟨chunks', spare', c, hserved, hhandle, hserves, hmem⟩ := hpost
        exact .of_pure ⟨⟨_, _, _, hserved, hhandle, hserves, hprefers (absurd hmem)⟩, id⟩
  | bumpFirst =>
      have hprefers {h : Handle} (hwhy : h ∈ handles chunks →
          a.headerLow < a.memoryHigh + size + a.clearance ∨ a.headers.capacity = Handle.limit) :
          a.Prefers chunks size h :=
        ⟨fun hother => by simp [hplacement] at hother, fun _ => hwhy⟩
      rcases hbump with ⟨hbump, hnear⟩ | ⟨h, a'', spare', hbump, hserved, hserves⟩
      · refine .bind_yields hbump (hreuse.mono ?_)
        rintro ⟨_ | h, a'⟩ hpost
        · exact ⟨hpost.1, hpost.2, hnear⟩
        · obtain ⟨chunks', spare', c, hserved, hhandle, hserves, -⟩ := hpost
          exact ⟨_, _, _, hserved, hhandle, hserves, hprefers fun _ => hnear⟩
      · have hfresh := (List.nodup_cons.mp hserved.nodup_handles).1
        exact .bind_yields hbump (.of_pure
          ⟨_, _, _, hserved, rfl, hserves, hprefers fun hmem => absurd hmem hfresh⟩)

theorem Served.concludeAllocation {counters : Counters} (hserved : a.Served chunks spare c)
    (htotals : counters.SameAllocated a.counters) (requested : Nat) :
    Act.Agrees (a.concludeAllocation c.handle requested)
      (fun a' => counters.Wraps a.region.size a'.counters) fun a' => a'.Sound chunks spare ∧
        a' = { a with counters := a'.counters } ∧ a.counters.Backs a'.counters := by
  obtain ⟨r, hget, hdesc⟩ := hserved.chained.get hserved.mem
  have hplaces := hserved.places hserved.mem
  have hsize : c.size ≤ a.region.size := (Nat.le_add_left _ _).trans hplaces.bound
  have hpos := (hserved.sized c hserved.mem).pos
  have hmax := hserved.size_le_max
  have hword : Word.max + 1 = Word.modulus := rfl
  have hcount : a.counters.allocationCount + 1 < Word.modulus := by
    have hlength : (used chunks).length ≤ chunks.length := List.length_filter_le _ _
    have hcapacity := hserved.length_le.trans hserved.kept.capacity_le
    have hlimit : Handle.limit < Word.modulus := by decide
    have h := hserved.count
    omega
  have hbytes : a.counters.allocatedBytes + c.size < Word.modulus := by
    have hused := bytes_used_le chunks
    have hfills := hserved.fills.top_eq
    have hhigh := hserved.memoryHigh_le
    have h := hserved.bytes
    omega
  rw [Arena.concludeAllocation, HeaderTable.get_eq hget, pure_bind, hdesc.size]
  apply (Counters.agrees_accountAlloc htotals hcount hbytes (by omega) hsize
    hserved.size_lt_modulus).bind
  rintro counters ⟨⟨count, bytes, rfl⟩, hbacks⟩
  have hsound' : ({ a with counters := { a.counters with
      allocationCount := a.counters.allocationCount + 1
      totalAllocationCount := count
      allocatedBytes := a.counters.allocatedBytes + c.size
      totalAllocatedBytes := bytes } } : Arena).Sound chunks spare :=
    ⟨⟨hserved.toLaid.congr rfl rfl rfl, hserved.topped, hserved.covers, hserved.tight⟩,
      hserved.count, hserved.bytes⟩
  apply Act.Agrees.bind_yields (Act.yields_log _)
  exact .bind_yields hsound'.selfCheck (.of_pure ⟨⟨hsound', rfl, hbacks⟩, id⟩)

theorem Sound.refuseAllocation (hsound : a.Sound chunks spare) (requested : Nat) :
    Act.Agrees (a.refuseAllocation requested)
      (fun a' => a.counters.Wraps a.region.size a'.counters) fun a' => a'.Sound chunks spare ∧
        a' = { a with counters := a'.counters } ∧ a.counters.Backs a'.counters := by
  rw [Arena.refuseAllocation]
  apply (Counters.agrees_accountOom (le_trans (by decide) hsound.least)
    hsound.size_lt_modulus).bind
  rintro counters ⟨count, rfl⟩
  apply Act.Agrees.bind_yields (Act.yields_log _)
  refine .of_pure ⟨⟨?_, rfl, .of_le (le_refl _) rfl⟩, id⟩
  exact ⟨⟨hsound.toLaid.congr rfl rfl rfl, hsound.topped, hsound.covers, hsound.tight⟩,
    hsound.accounts.count, hsound.accounts.bytes⟩

end CompactingArena.Arena
