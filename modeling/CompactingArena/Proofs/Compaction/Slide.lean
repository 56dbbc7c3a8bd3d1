import CompactingArena.Compaction.Slide
import CompactingArena.Proofs.Compaction.Search
import CompactingArena.Proofs.HeaderTable.Sort
import CompactingArena.Proofs.Region
/-!
# The steps of a slide

A run is copied down chunk by chunk, which moves its bytes as a whole although
the ranges overlap.  The records of the hole are released, and the chain is
joined again around the moved run.
-/

namespace CompactingArena

open Layout

variable {t : HeaderTable} {region : Region} {l m : List Chunk} {c d : Chunk}
  {start stop : Option Handle} {held spare : List Handle} {distance base top limit : Nat}

/-! ## Moving a run -/

/-- The region after the bytes from `base` to `top` moved down. -/
structure Region.MovedDown (region region' : Region) (distance base top : Nat) : Prop where
  size : region'.size = region.size
  byte : ∀ i, region'.byte i =
    if base ≤ i + distance ∧ i + distance < top then region.byte (i + distance) else region.byte i

/-- A chunk can be copied although it overlaps its target. -/
theorem Region.movedDown_chunk (region : Region) (size : Nat) (hdistance : distance ≤ base) :
    region.MovedDown (region.overlay (base - distance) (region.view base size)) distance base
      (base + size) := by
  refine ⟨size_overlay _ _ _, fun i => ?_⟩
  rw [byte_copied]
  by_cases hi : base ≤ i + distance ∧ i + distance < base + size
  · have hsource : base + (i - (base - distance)) = i + distance := by omega
    rw [if_pos ⟨by omega, by omega⟩, if_pos hi, hsource]
  · rw [if_neg (by omega), if_neg hi]

/-- What is copied next has not been overwritten yet. -/
theorem Region.MovedDown.trans {region' region'' : Region} {mid : Nat}
    (h : region.MovedDown region' distance base mid)
    (h' : region'.MovedDown region'' distance mid top) (hmid : base ≤ mid) (htop : mid ≤ top) :
    region.MovedDown region'' distance base top where
  size := h'.size.trans h.size
  byte i := by
    rw [h'.byte, h.byte, h.byte]
    by_cases hupper : mid ≤ i + distance ∧ i + distance < top
    · rw [if_pos hupper, if_neg (by omega), if_pos (by omega)]
    · rw [if_neg hupper]
      by_cases hlower : base ≤ i + distance ∧ i + distance < mid
      · rw [if_pos hlower, if_pos (by omega)]
      · rw [if_neg hlower, if_neg (by omega)]

theorem moveRun_step {last : Handle} {r : Record} (hget : t.get? c.handle = some r)
    (hdesc : r.Describes c) (hdistance : distance ≤ c.addr) (hbound : c.acme ≤ region.size) :
    moveRun distance last (limit + 1) (some c.handle) t region =
      if c.handle = last then
        pure (t.set c.handle { r with addr := c.addr - distance },
          region.overlay (c.addr - distance) (region.view c.addr c.size))
      else
        moveRun distance last limit r.next (t.set c.handle { r with addr := c.addr - distance })
          (region.overlay (c.addr - distance) (region.view c.addr c.size)) := by
  have hsub : Word.sub r.addr distance = pure (c.addr - distance) := by
    rw [hdesc.addr, Word.sub_eq hdistance]
  unfold Chunk.acme at hbound
  have hcopy : region.copyWithin r.addr (c.addr - distance) r.size =
      pure (region.overlay (c.addr - distance) (region.view c.addr c.size)) := by
    rw [hdesc.addr, hdesc.size, Region.copyWithin_eq hbound (by omega)]
  rw [moveRun, HeaderTable.get_eq hget, pure_bind, hsub, pure_bind, HeaderTable.update_eq hget,
    pure_bind, hcopy, pure_bind]

theorem HeaderTable.Lists.moveRun (h : t.Lists start (c :: l) stop)
    (hnodup : (handles (c :: l)).Nodup) (htiles : Tiles base (c :: l) top)
    (hdistance : distance ≤ base) (htop : top ≤ region.size) (hlimit : l.length < limit) :
    ∃ t' region', moveRun distance (tip c.handle l) limit start t region = pure (t', region') ∧
      t'.Lists start ((c :: l).map (Chunk.lowered distance)) stop ∧
      t.Relinked t' (handles (c :: l)) ∧ t'.chain = t.chain ∧
      region.MovedDown region' distance base top := by
  induction l generalizing c start t region base limit with
  | nil =>
      obtain ⟨limit, rfl⟩ : ∃ n, limit = n + 1 := ⟨limit - 1, by omega⟩
      obtain ⟨rfl, r, hget, hdesc, rfl⟩ := h
      obtain ⟨rfl, htop'⟩ := htiles
      obtain rfl : c.addr + c.size = top := htop'
      set t' := t.set c.handle { r with addr := c.addr - distance } with ht'
      have hget' : t'.get? c.handle = some { r with addr := c.addr - distance } := by
        rw [ht', HeaderTable.get?_set, if_pos rfl, hget]
        rfl
      refine ⟨t', region.overlay (c.addr - distance) (region.view c.addr c.size), ?_,
        ⟨rfl, _, hget', ⟨rfl, hdesc.size, hdesc.state⟩, rfl⟩, relinked_set _ _ _, rfl,
        Region.movedDown_chunk region c.size hdistance⟩
      rw [moveRun_step hget hdesc hdistance htop]
      exact if_pos rfl
  | cons d l ih =>
      obtain ⟨limit, rfl⟩ : ∃ n, limit = n + 1 := ⟨limit - 1, by simp at hlimit; omega⟩
      obtain ⟨rfl, r, hget, hdesc, hrest⟩ := h
      obtain ⟨rfl, htiles⟩ := htiles
      obtain ⟨hfresh, hnodup⟩ := List.nodup_cons.mp hnodup
      have hmid : c.addr + c.size ≤ top := by
        have hsum := htiles.top_eq
        omega
      set t₁ := t.set c.handle { r with addr := c.addr - distance } with ht₁
      obtain ⟨region₁, hregion₁⟩ : ∃ region₁, region₁ =
          region.overlay (c.addr - distance) (region.view c.addr c.size) := ⟨_, rfl⟩
      have hchunk : region.MovedDown region₁ distance c.addr (c.addr + c.size) :=
        hregion₁ ▸ Region.movedDown_chunk region c.size hdistance
      obtain ⟨t', region', hmove, hlists, hrelinked, hchain, hmoved⟩ := ih (t := t₁)
        (hrest.set hfresh) hnodup htiles (by omega)
        (show top ≤ region₁.size from hchunk.size ▸ htop)
        (show l.length < limit by simpa using hlimit)
      have hne : c.handle ≠ tip c.handle (d :: l) := fun heq =>
        hfresh (heq ▸ tip_mem d l)
      have hget' : t'.get? c.handle = some { r with addr := c.addr - distance } := by
        rw [hrelinked.get_other _ hfresh, ht₁, HeaderTable.get?_set, if_pos rfl, hget]
        rfl
      refine ⟨t', region', ?_, ⟨rfl, _, hget', ⟨rfl, hdesc.size, hdesc.state⟩, hlists⟩,
        (relinked_set _ _ _).trans hrelinked, hchain, hchunk.trans hmoved (by omega) hmid⟩
      rw [moveRun_step hget hdesc hdistance (by unfold Chunk.acme; omega), if_neg hne, ← hregion₁]
      exact hmove

/-! ## Releasing the records of a hole -/

theorem releaseRun_step {t' : HeaderTable} {last : Handle} {r : Record}
    (hget : t.get? c.handle = some r) (hrelease : t.release c.handle = pure t') :
    releaseRun last (limit + 1) (some c.handle) t =
      if c.handle = last then pure t' else releaseRun last limit r.next t' := by
  rw [releaseRun, HeaderTable.next_eq hget, pure_bind, hrelease, pure_bind]

/-- The records of a run can be recycled. -/
theorem HeaderTable.Lists.releaseRun (h : t.Lists start (c :: l) stop)
    (hkept : t.Kept (handles (c :: l) ++ held) spare)
    (hlive : ∀ d ∈ c :: l, d.addr < Record.unset) (hlimit : l.length < limit) :
    ∃ t' spare', releaseRun (tip c.handle l) limit start t = pure t' ∧ t'.Kept held spare' ∧
      spare'.length = spare.length + (c :: l).length ∧
      (∀ g, g ∉ handles (c :: l) → t'.get? g = t.get? g) ∧
      t'.capacity = t.capacity ∧ t'.chain = t.chain ∧ t'.high = t.high := by
  induction l generalizing c start t spare limit with
  | nil =>
      obtain ⟨limit, rfl⟩ : ∃ n, limit = n + 1 := ⟨limit - 1, by omega⟩
      obtain ⟨rfl, r, hget, hdesc, -⟩ := h
      have hunused : r.isUnused = false := hdesc.isUnused (hlive c (by simp))
      obtain ⟨t', hrelease, hkept', -, hother, hcapacity, hchain, hhigh⟩ :=
        hkept.release hget hunused
      refine ⟨t', c.handle :: spare, ?_, hkept', rfl, fun g hg => hother g ?_, hcapacity, hchain,
        hhigh⟩
      · rw [releaseRun_step hget hrelease]
        exact if_pos rfl
      · simpa using hg
  | cons d l ih =>
      obtain ⟨limit, rfl⟩ : ∃ n, limit = n + 1 := ⟨limit - 1, by simp at hlimit; omega⟩
      obtain ⟨rfl, r, hget, hdesc, hrest⟩ := h
      have hunused : r.isUnused = false := hdesc.isUnused (hlive c (by simp))
      obtain ⟨t₁, hrelease, hkept₁, -, hother₁, hcapacity₁, hchain₁, hhigh₁⟩ :=
        hkept.release hget hunused
      have hfresh : c.handle ∉ handles (d :: l) := fun hmem =>
        Kept.fresh hkept (List.mem_append_left _ hmem)
      have hrest₁ : t₁.Lists r.next (d :: l) stop := hrest.frame_single hother₁ hfresh
      obtain ⟨t', spare', hreleases, hkept', hlength, hother, hcapacity, hchain, hhigh⟩ :=
        ih hrest₁ hkept₁ (fun e he => hlive e (by simp [he]))
          (show l.length < limit by simpa using hlimit)
      refine ⟨t', spare', ?_, hkept', ?_, fun g hg => ?_, hcapacity.trans hcapacity₁,
        hchain.trans hchain₁, hhigh.trans hhigh₁⟩
      · have hne : c.handle ≠ tip c.handle (d :: l) := fun heq =>
          hfresh (heq ▸ tip_mem d l)
        rw [releaseRun_step hget hrelease, if_neg hne]
        exact hreleases
      · simp only [List.length_cons] at hlength ⊢
        omega
      · obtain ⟨hne, hg⟩ := List.ne_and_not_mem_of_not_mem_cons hg
        rw [hother g hg, hother₁ g hne]

/-! ## Joining the chain -/

namespace HeaderTable

theorem Lists.setNext_tip (h : t.Lists start (c :: l) stop) (hnodup : (handles (c :: l)).Nodup)
    (next : Option Handle) : (t.setNext (tip c.handle l) next).Lists start (c :: l) next := by
  obtain ⟨front, last, hsplit, hlast⟩ := exists_concat c l
  rw [hsplit] at h hnodup ⊢
  rw [← hlast]
  refine h.setNext_last ?_ next
  rw [handles_append, List.nodup_append] at hnodup
  exact fun hmem => hnodup.2.2 _ hmem _ (by simp) rfl

/-- The part of the chain before a hole can be led past it. -/
theorem Lists.linkAfter (h : t.Lists t.chain l stop) (hnodup : (handles l).Nodup)
    (next : Option Handle) :
    (t.linkAfter (exit none l) next).Lists (t.linkAfter (exit none l) next).chain l next ∧
      t.Relinked (t.linkAfter (exit none l) next) (handles l) := by
  cases l with
  | nil => exact ⟨rfl, fun _ _ => rfl, rfl, rfl, rfl⟩
  | cons c l =>
      rw [exit_cons]
      refine ⟨h.setNext_tip hnodup next, (relinked_setNext t _ next).mono ?_⟩
      simpa using tip_mem c l

/-- A record that is not on the chain yet can be put between two parts of it. -/
theorem Lists.join {r : Record} (h : t.Lists start (c :: l) stop) {out : Option Handle}
    (hm : t.Lists (entry m out) m out) (hget : t.get? d.handle = some r) (hdesc : r.Describes d)
    (hnodup : (handles (c :: l ++ d :: m)).Nodup) :
    ((t.setNext (tip c.handle l) (some d.handle)).setNext d.handle (entry m out)).Lists start
      (c :: l ++ d :: m) out := by
  rw [handles_append, List.nodup_append, handles_cons d, List.nodup_cons] at hnodup
  obtain ⟨hnodup, ⟨hfresh, -⟩, hdisjoint⟩ := hnodup
  have htip := tip_mem c l
  refine lists_append.mpr ⟨?_, rfl, { r with next := entry m out }, ?_, ⟨hdesc.1, hdesc.2, hdesc.3⟩,
    ?_⟩
  · apply (h.setNext_tip hnodup _).setNext
    intro hmem
    exact hdisjoint _ hmem _ (by simp) rfl
  · rw [get?_setNext, if_pos rfl, get?_setNext, if_neg, hget]
    · rfl
    · exact hdisjoint _ htip _ (by simp)
  · refine (hm.setNext fun hmem => ?_).setNext hfresh
    exact hdisjoint _ htip _ (by simp [hmem]) rfl

end HeaderTable

end CompactingArena
