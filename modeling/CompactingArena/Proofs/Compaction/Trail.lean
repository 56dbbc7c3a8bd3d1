import CompactingArena.Arena.Compaction
import CompactingArena.Proofs.Compaction.Pass
/-!
# The trail of a compaction

A trail is what the passes of a compaction have done so far, one after the other
and counted: those that skipped a hole, those that slid a run, and the bytes that
were moved.  Two things are read off it.  A chunk grows by as much as a free
chunk needs only when the records have run out, and that takes many slides that
split a hole.  And nothing is moved before all holes have been skipped that nothing
fits into, which takes one reading of the clock for each of them.
-/

namespace CompactingArena

open Layout

namespace Layout

/-! ## Holes that nothing fits into -/

/-- What lies behind a scan of a layout. -/
inductive Lookout
  /-- No free chunk yet. -/
  | outside
  /-- Free chunks of so many bytes. -/
  | hole (room : Nat)
  /-- A hole of so many bytes and a barrier. -/
  | barred (room : Nat)

/-- The number of holes that a search skips until it finds one to fill, or `none`
if it finds none. -/
def obstructionsFrom : Lookout → List Chunk → Option Nat
  | _, [] => none
  | .outside, c :: l =>
      if c.isFree then obstructionsFrom (.hole c.size) l else obstructionsFrom .outside l
  | .hole room, c :: l =>
      if c.isFree then obstructionsFrom (.hole (room + c.size)) l
      else if c.state.isPinned then obstructionsFrom (.barred room) l
      else some 0
  | .barred room, c :: l =>
      if c.isFree then (obstructionsFrom (.hole c.size) l).map (· + 1)
      else if c.state = .unlocked ∧ c.size ≤ room then some 0
      else obstructionsFrom (.barred room) l

def obstructions (l : List Chunk) : Option Nat := obstructionsFrom .outside l

variable {l m hole barrier todo settled todo' : List Chunk} {c : Chunk} {room : Nat}
  {prospect : Prospect}

@[simp] theorem obstructionsFrom_nil (lookout : Lookout) : obstructionsFrom lookout [] = none := by
  cases lookout <;> rfl

@[simp] theorem obstructions_nil : obstructions [] = none := rfl

theorem Busy.obstructions_append (h : Busy l) (m : List Chunk) :
    obstructions (l ++ m) = obstructions m := by
  induction l with
  | nil => rfl
  | cons c l ih =>
      rw [List.cons_append, obstructions, obstructionsFrom, h c (by simp),
        if_neg Bool.false_ne_true]
      exact ih fun d hd => h d (by simp [hd])

theorem obstructionsFrom_hole (h : ∀ c ∈ hole, c.isFree = true) (room : Nat) (m : List Chunk) :
    obstructionsFrom (.hole room) (hole ++ m) = obstructionsFrom (.hole (room + bytes hole)) m := by
  induction hole generalizing room with
  | nil => rfl
  | cons c hole ih =>
      rw [List.cons_append, obstructionsFrom, if_pos (h c (by simp)),
        ih (fun d hd => h d (by simp [hd])), bytes_cons, Nat.add_assoc]

theorem Hole.obstructions_append (h : Hole hole) (m : List Chunk) :
    obstructions (hole ++ m) = obstructionsFrom (.hole (bytes hole)) m := by
  obtain ⟨f, hole, rfl⟩ := List.exists_cons_of_ne_nil h.nonempty
  rw [List.cons_append, obstructions, obstructionsFrom, if_pos (h.free f (by simp)),
    obstructionsFrom_hole fun c hc => h.free c (by simp [hc]), bytes_cons]

theorem obstructionsFrom_barred (hbusy : Busy l)
    (hlarge : ∀ c ∈ l, c.state = .unlocked → room < c.size) (m : List Chunk) :
    obstructionsFrom (.barred room) (l ++ m) = obstructionsFrom (.barred room) m := by
  induction l with
  | nil => rfl
  | cons c l ih =>
      have hstays : ¬(c.state = .unlocked ∧ c.size ≤ room) := fun h =>
        Nat.not_lt.mpr h.2 (hlarge c (by simp) h.1)
      rw [List.cons_append, obstructionsFrom, hbusy c (by simp), if_neg Bool.false_ne_true,
        if_neg hstays]
      exact ih (fun d hd => hbusy d (by simp [hd])) fun d hd => hlarge d (by simp [hd])

theorem Barrier.obstructionsFrom_append (h : Barrier room barrier) (m : List Chunk) :
    obstructionsFrom (.hole room) (barrier ++ m) = obstructionsFrom (.barred room) m := by
  obtain ⟨p, l, rfl, hpinned⟩ := h.pinned
  rw [List.cons_append, obstructionsFrom, h.busy p (by simp), if_neg Bool.false_ne_true,
    if_pos hpinned, obstructionsFrom_barred (fun c hc => h.busy c (by simp [hc]))
      fun c hc => h.large c (by simp [hc])]

theorem Skips.obstructions (h : Skips todo settled todo') :
    obstructions todo = (obstructions todo').map (· + 1) := by
  obtain ⟨busy, hhole, hbarrier, hf⟩ := h
  rw [busy.obstructions_append, hhole.obstructions_append, hbarrier.obstructionsFrom_append,
    obstructionsFrom, if_pos hf, Layout.obstructions, obstructionsFrom, if_pos hf]

theorem Sees.obstructions_eq_none (h : Sees todo .nothing) : obstructions todo = none := by
  cases h with
  | solid hbusy => simpa using hbusy.obstructions_append []
  | @top before hole hbusy hhole =>
      rw [hbusy.obstructions_append]
      simpa using hhole.obstructions_append []
  | @walled before hole barrier hbusy hhole hbarrier =>
      rw [hbusy.obstructions_append, hhole.obstructions_append]
      simpa using hbarrier.obstructionsFrom_append []

end Layout

namespace Arena

variable {a a' a'' : Arena} {chunks moved done todo settled todo' : List Chunk}
  {spare spare' : List Handle} {next : Handle} {fat : List Handle}
  {skips passes splits n budget : Nat} {clock : Readings} {prospect : Prospect}

/-- A slide begins with the first hole that can be filled. -/
theorem obstructions_of_slidable (h : Sees todo prospect) (hslidable : Slidable prospect) :
    obstructions todo = some 0 := by
  cases h with
  | solid => exact hslidable.elim
  | top => exact hslidable.elim
  | walled => exact hslidable.elim
  | obstructed => exact hslidable.elim
  | @adjacent before hole run rest hbusy hhole hmoved hrest =>
      obtain ⟨m, run, rfl⟩ := List.exists_cons_of_ne_nil hmoved.nonempty
      have hunlocked := hmoved.unlocked m (by simp)
      rw [hbusy.obstructions_append, hhole.obstructions_append, List.cons_append, obstructionsFrom,
        hmoved.busy m (by simp), if_neg Bool.false_ne_true, hunlocked]
      rfl
  | @past before hole barrier run rest hbusy hhole hbarrier hmoved hfits hrest =>
      obtain ⟨m, run, rfl⟩ := List.exists_cons_of_ne_nil hmoved.nonempty
      have hfit : m.size ≤ bytes hole := (size_le_bytes (by simp)).trans hfits
      rw [hbusy.obstructions_append, hhole.obstructions_append, hbarrier.obstructionsFrom_append,
        List.cons_append, obstructionsFrom, hmoved.busy m (by simp), if_neg Bool.false_ne_true,
        if_pos ⟨hmoved.unlocked m (by simp), hfit⟩]

/-- The passes that have led from `a` to `a'`: so many skipped a hole, so many slid a
run, so many of these split their hole, and the chunks of `moved` were moved one after the
other.  The chunks of `done` lie behind the cursor, and those of `todo` after it. -/
inductive Trail (a : Arena) (chunks : List Chunk) :
    Nat → Nat → Nat → List Chunk → Arena → List Chunk → List Chunk → Prop
  | start : Trail a chunks 0 0 0 [] a [] chunks
  | skip {skips passes splits : Nat} {a' : Arena} {moved done todo settled todo' : List Chunk}
      (h : Trail a chunks skips passes splits moved a' done todo)
      (hskips : Skips todo settled todo') :
      Trail a chunks (skips + 1) passes splits moved a' (done ++ settled) todo'
  | slide {skips passes splits n : Nat} {a' a'' : Arena}
      {moved done todo settled todo' : List Chunk} {spare' : List Handle} {next : Handle}
      {prospect : Prospect} (h : Trail a chunks skips passes splits moved a' done todo)
      (hslides : Slides a' a'' done todo next prospect n settled todo' spare') :
      Trail a chunks skips (passes + 1) (splits + prospect.splits.toNat)
        (moved ++ prospect.run) a'' (done ++ settled) todo'

/-! ## Progress -/

/-- Every slide moves a chunk. -/
theorem Trail.passes_le (h : Trail a chunks skips passes splits moved a' done todo) :
    passes ≤ moved.length := by
  induction h with
  | start => exact le_refl _
  | skip _ _ ih => exact ih
  | slide _ hslides ih =>
      have hmoves := List.length_pos_of_ne_nil hslides.moves
      rw [List.length_append]
      omega

theorem Trail.passes_pos (h : Trail a chunks skips passes splits moved a' done todo)
    (hmoved : moved ≠ []) : 1 ≤ passes := by
  induction h with
  | start => exact absurd rfl hmoved
  | skip _ _ ih => exact ih hmoved
  | slide => exact Nat.le_add_left _ _

/-- What was moved may move no more: it was unlocked, and it is not left to do. -/
theorem Trail.subperm (h : Trail a chunks skips passes splits moved a' done todo) :
    (moved ++ unlocked todo).Subperm (unlocked chunks) := by
  induction h with
  | start => exact .refl _
  | @skip _ _ _ _ moved _ _ settled _ _ hskips ih =>
      rw [← hskips.append_eq, unlocked_append] at ih
      exact ((List.subperm_append_left moved).mpr
        (List.sublist_append_right _ _).subperm).trans ih
  | @slide _ _ _ _ _ _ moved _ _ _ _ _ _ _ _ hslides ih =>
      rw [List.append_assoc]
      exact ((List.subperm_append_left moved).mpr hslides.advances.unlocked_subperm).trans ih

/-- What was moved was among the chunks that could. -/
theorem Trail.moved_subperm (h : Trail a chunks skips passes splits moved a' done todo) :
    moved.Subperm (unlocked chunks) :=
  (List.sublist_append_left _ _).subperm.trans h.subperm

/-- A compaction slides at most once for each chunk that may move, and moves no bytes but
those of such chunks. -/
theorem Trail.bounds (h : Trail a chunks skips passes splits moved a' done todo) :
    passes ≤ (unlocked chunks).length ∧ bytes moved ≤ bytes (unlocked chunks) :=
  ⟨h.passes_le.trans h.moved_subperm.length_le, bytes_subperm h.moved_subperm⟩

/-- A compaction moves bytes exactly if it slides. -/
theorem Trail.moved_pos_iff (h : Trail a chunks skips passes splits moved a' done todo)
    (hpos : ∀ c ∈ chunks, 0 < c.size) : 1 ≤ bytes moved ↔ 1 ≤ passes := by
  constructor
  · intro hbytes
    apply h.passes_pos
    rintro rfl
    exact absurd hbytes (by simp)
  · intro hpasses
    have hcount := h.passes_le
    have hbytes : moved.length ≤ bytes moved := length_le_bytes fun c hc =>
      hpos c (List.mem_filter.mp (h.moved_subperm.subset hc)).1
    omega

/-- Before the first slide all holes are skipped that nothing fits into. -/
theorem Trail.obstructions (h : Trail a chunks skips passes splits moved a' done todo) :
    passes = 0 ∧ obstructions chunks = (obstructions todo).map (· + skips) ∨
      1 ≤ passes ∧ ∃ n < skips + passes, obstructions chunks = some n := by
  induction h with
  | start => exact .inl ⟨rfl, by simp⟩
  | @skip skips passes _ _ _ _ todo _ todo' _ hskips ih =>
      rcases ih with ⟨hzero, heq⟩ | ⟨hone, n, hn, heq⟩
      · refine .inl ⟨hzero, ?_⟩
        rw [heq, hskips.obstructions, Option.map_map]
        congr 1
        funext n
        simp only [Function.comp_apply]
        omega
      · exact .inr ⟨hone, n, by omega, heq⟩
  | slide _ hslides ih =>
      refine .inr ⟨Nat.le_add_left _ _, ?_⟩
      rcases ih with ⟨rfl, heq⟩ | ⟨-, n, hn, heq⟩
      · rw [obstructions_of_slidable hslides.sees hslides.slidable, Option.map_some] at heq
        exact ⟨_, by omega, heq⟩
      · exact ⟨n, by omega, heq⟩

/-- The first `n` passes of a compaction begin in time. -/
def InTime (budget : Nat) (clock : Readings) (n : Nat) : Prop :=
  ∀ i < n, timeIsUp budget (clock 0) (clock (i + 1)) = false

/-- A compaction slides exactly if there is time for all holes that nothing fits into
and for the first hole that can be filled. -/
theorem Trail.passes_pos_iff (h : Trail a chunks skips passes splits moved a' done todo)
    (htime : InTime budget clock (skips + passes))
    (hend : Sees todo .nothing ∨
      timeIsUp budget (clock 0) (clock (skips + passes + 1)) = true) :
    1 ≤ passes ↔ ∃ n, Layout.obstructions chunks = some n ∧ InTime budget clock (n + 1) := by
  rcases h.obstructions with ⟨rfl, heq⟩ | ⟨hone, n, hn, heq⟩
  · constructor
    · intro hone
      exact absurd hone (by simp)
    · rintro ⟨n, hn, hin⟩
      rw [hn] at heq
      rcases hend with hsees | hup
      · rw [hsees.obstructions_eq_none] at heq
        exact absurd heq (by simp)
      · obtain ⟨k, -, rfl⟩ := Option.map_eq_some_iff.mp heq.symm
        rw [hin (skips + 0) (by omega)] at hup
        exact absurd hup (by simp)
  · exact ⟨fun _ => ⟨n, heq, fun i hi => htime i (by omega)⟩, fun _ => hone⟩

/-- The free chunks never all disappear in passes. -/
theorem Trail.frees_ne_nil (h : Trail a chunks skips passes splits moved a' done todo)
    (hfree : frees chunks ≠ []) : frees (done ++ todo) ≠ [] := by
  induction h with
  | start => exact hfree
  | skip _ hskips ih =>
      rw [List.append_assoc, hskips.append_eq]
      exact ih
  | slide _ hslides ih =>
      obtain ⟨f, hf, hfree⟩ := hslides.advances.exists_free
      exact List.ne_nil_of_mem (mem_frees.mpr ⟨List.mem_append_right _ hf, hfree⟩)

/-! ## Growth -/

theorem Trail.frame (h : Trail a chunks skips passes splits moved a' done todo) :
    a'.memoryHigh = a.memoryHigh ∧ a'.region.size = a.region.size := by
  induction h with
  | start => exact ⟨rfl, rfl⟩
  | skip _ _ ih => exact ih
  | slide _ hslides ih =>
      refine ⟨?_, hslides.advances.size.trans ih.2⟩
      rw [hslides.frame]
      exact ih.1

/-- The number of records for which there is room, used or not, as long as the
high-water mark stays where it is. -/
def recordLimit (a : Arena) : Nat :=
  min ((a.region.size - a.memoryHigh) / Record.bytes) Handle.limit

/-- A table that is spent describes as many chunks as there is room for. -/
theorem Laid.recordLimit_le (hlaid : a.Laid chunks spare)
    (hspent : a.headers.Spent a.memoryHigh) : a.recordLimit ≤ chunks.length := by
  obtain ⟨hfree, hroom⟩ := hspent
  have hrecycled := hlaid.kept.recycled
  rw [hfree] at hrecycled
  obtain rfl : spare = [] := by
    cases spare with
    | nil => rfl
    | cons s spare => exact absurd hrecycled.1 (by simp)
  have hcapacity := hlaid.kept.length_eq
  rw [length_handles, List.length_nil, Nat.add_zero] at hcapacity
  have hlow := hlaid.low_eq
  have hfits := hlaid.room
  have hbytes : Record.bytes = 32 := rfl
  unfold headerLow at hlow
  unfold HeaderTable.footprint at hlow hfits
  rw [hbytes] at hroom hlow hfits
  rw [recordLimit, hbytes]
  omega

/-- How a pass lets chunks grow: by less than a free chunk needs, unless it splits a hole and
there is no record for what is left of it. -/
def Thrifty (a' : Arena) (prospect : Prospect) (l l' : List Chunk) : Prop :=
  (∀ c' ∈ used l', ∃ c ∈ used l, c.handle = c'.handle ∧ c'.size < c.size + Trailer.bytes) ∨
    prospect.splits = true ∧ a'.headers.Spent a'.memoryHigh

theorem Thrifty.refl (a' : Arena) (prospect : Prospect) (l : List Chunk) :
    Thrifty a' prospect l l :=
  .inl fun c hc => ⟨c, hc, rfl, Nat.lt_add_of_pos_right (by decide)⟩

theorem Slides.thrifty (h : Slides a' a'' done todo next prospect n settled todo' spare') :
    Thrifty a'' prospect (done ++ todo) (done ++ settled ++ todo') := by
  refine h.spent.imp_left fun hsmall c hc => ?_
  obtain ⟨hleft, hsettled⟩ := h.advances.origin none
  have hleast : 0 < Trailer.bytes := by decide
  simp only [used_append, List.mem_append] at hc ⊢
  rcases hc with (hc | hc) | hc
  · exact ⟨c, .inl hc, rfl, by omega⟩
  · obtain ⟨d, hd, hhandle, hsize⟩ := hsettled c hc
    exact ⟨d, .inr hd, hhandle, by omega⟩
  · exact ⟨c, .inr (hleft c hc), rfl, by omega⟩

/-- How chunks have grown in so many slides, of which so many have split a hole: those of
`fat` by as much as a free chunk needs, and all others by less. -/
structure Swells (a : Arena) (chunks : List Chunk) (passes splits : Nat)
    (done todo : List Chunk) (fat : List Handle) : Prop where
  few : fat = [] ∨ a.recordLimit + fat.length ≤ chunks.length + splits
  count : (done ++ todo).length + fat.length ≤ chunks.length + splits
  left : ∀ c ∈ used todo, c ∈ used chunks
  sizes : ∀ c ∈ used done, ∃ d ∈ used chunks, d.handle = c.handle ∧
    (c.size < d.size + Trailer.bytes ∨ c.handle ∈ fat)
  grown : ∀ h ∈ fat, ∃ c ∈ used done, ∃ d ∈ used chunks, c.handle = h ∧ d.handle = h ∧
    d.size + Trailer.bytes ≤ c.size
  bytes : fat = [] →
    bytes (used (done ++ todo)) ≤ bytes (used chunks) + (Trailer.bytes - 1) * passes

theorem Swells.start : Swells a chunks 0 0 [] chunks [] where
  few := .inl rfl
  count := by simp
  left _ hc := hc
  sizes _ hc := absurd hc (by simp [used])
  grown _ hh := absurd hh (by simp)
  bytes _ := by simp

/-- What is behind the cursor stays there. -/
theorem Swells.grown_append (h : Swells a chunks passes splits done todo fat)
    (settled : List Chunk) :
    ∀ g ∈ fat, ∃ c ∈ used (done ++ settled), ∃ d ∈ used chunks, c.handle = g ∧ d.handle = g ∧
      d.size + Trailer.bytes ≤ c.size := by
  intro g hg
  obtain ⟨c, hc, hgrown⟩ := h.grown g hg
  rw [used_append]
  exact ⟨c, List.mem_append_left _ hc, hgrown⟩

theorem Swells.skip (h : Swells a chunks passes splits done todo fat)
    (hskips : Skips todo settled todo') :
    Swells a chunks passes splits (done ++ settled) todo' fat where
  few := h.few
  count := by
    rw [List.append_assoc, hskips.append_eq]
    exact h.count
  left c hc := h.left c (by
    rw [← hskips.append_eq, used_append]
    exact List.mem_append_right _ hc)
  sizes c hc := by
    rw [used_append] at hc
    rcases List.mem_append.mp hc with hc | hc
    · exact h.sizes c hc
    · have hleast : 0 < Trailer.bytes := by decide
      have hmem : c ∈ used todo := by
        rw [← hskips.append_eq, used_append]
        exact List.mem_append_left _ hc
      exact ⟨c, h.left c hmem, rfl, .inl (by omega)⟩
  grown := h.grown_append settled
  bytes hfat := by
    rw [List.append_assoc, hskips.append_eq]
    exact h.bytes hfat

section Slide

variable (hswells : Swells a chunks passes splits done todo fat)
  (hslides : Slides a' a'' done todo next prospect n settled todo' spare')
include hswells hslides

theorem Swells.left_slide : ∀ c ∈ used todo', c ∈ used chunks := fun c hc =>
  hswells.left c ((hslides.advances.origin none).1 c hc)

/-- The chunks in use behind the cursor are those that were there, and those that the
slide has settled. -/
theorem Swells.sizes_slide :
    ∀ c ∈ used (done ++ settled), ∃ d ∈ used chunks, d.handle = c.handle ∧
      (c.size < d.size + Trailer.bytes ∨ c.handle ∈ fat ∨
        c.size = d.size + n ∧ c.handle = next) := by
  obtain ⟨-, hsettled⟩ := hslides.advances.origin (exit none done)
  have hexit := hslides.cursor
  rw [exit_append] at hexit
  intro c hc
  rw [used_append] at hc
  rcases List.mem_append.mp hc with hc | hc
  · obtain ⟨d, hd, hhandle, hsize⟩ := hswells.sizes c hc
    exact ⟨d, hd, hhandle, hsize.imp_right .inl⟩
  · have hleast : 0 < Trailer.bytes := by decide
    obtain ⟨d, hd, hhandle, hsize⟩ := hsettled c hc
    refine ⟨d, hswells.left d hd, hhandle, ?_⟩
    rcases hsize with hsame | ⟨hgrown, hlast⟩
    · exact .inl (by omega)
    · exact .inr (.inr ⟨hgrown, (Option.some.inj (hexit.symm.trans hlast)).symm⟩)

/-- A slide that folds less than a free chunk needs. -/
theorem Swells.slide (hsmall : n < Trailer.bytes) :
    Swells a chunks (passes + 1) (splits + prospect.splits.toNat) (done ++ settled) todo' fat where
  few := hswells.few.imp_right (by omega)
  count := by
    have hcount := hswells.count
    have hfew := hslides.few
    rw [if_pos hsmall] at hfew
    rw [List.length_append] at hcount
    rw [List.append_assoc, List.length_append]
    omega
  left := hswells.left_slide hslides
  sizes c hc := by
    obtain ⟨d, hd, hhandle, hsize⟩ := hswells.sizes_slide hslides c hc
    refine ⟨d, hd, hhandle, ?_⟩
    rcases hsize with hless | hmem | ⟨hgrown, -⟩
    · exact .inl hless
    · exact .inr hmem
    · exact .inl (by omega)
  grown := hswells.grown_append settled
  bytes hfat := by
    have hafter := hslides.advances.used_perm.2
    have hbefore := hswells.bytes hfat
    rw [used_append, bytes_append] at hbefore
    rw [used_append, used_append, bytes_append, bytes_append, Nat.mul_succ]
    omega

/-- A slide that folds what could be a free chunk grows the chunk at its cursor, and finds
that there are as many chunks as there is room for records. -/
theorem Swells.slide_fat (hlarge : ¬n < Trailer.bytes)
    (hlimit : a.recordLimit ≤ (done ++ settled ++ todo').length) :
    Swells a chunks (passes + 1) (splits + prospect.splits.toNat) (done ++ settled) todo'
      (next :: fat) := by
  have hcount : (done ++ settled ++ todo').length + (next :: fat).length ≤
      chunks.length + (splits + prospect.splits.toNat) := by
    have hcount := hswells.count
    have hfew := hslides.few
    rw [if_neg hlarge] at hfew
    rw [List.length_append] at hcount
    rw [List.append_assoc, List.length_append, List.length_cons]
    omega
  refine ⟨.inr ((Nat.add_le_add_right hlimit _).trans hcount), hcount,
    hswells.left_slide hslides, fun c hc => ?_, fun h hh => ?_, fun hfat => absurd hfat (by simp)⟩
  · obtain ⟨d, hd, hhandle, hsize⟩ := hswells.sizes_slide hslides c hc
    refine ⟨d, hd, hhandle, hsize.imp_right ?_⟩
    rintro (hmem | ⟨-, rfl⟩)
    · exact List.mem_cons_of_mem _ hmem
    · exact List.mem_cons_self
  · rcases List.mem_cons.mp hh with rfl | hh
    · obtain ⟨c, hc, d, hd, hhandle, hsize, hlast⟩ :=
        hslides.advances.exists_grown hslides.moves (exit none done)
      rw [← exit_append, hslides.cursor, Option.some.injEq] at hlast
      rw [used_append]
      exact ⟨c, List.mem_append_right _ hc, d, hswells.left d hd, hlast.symm,
        hhandle.trans hlast.symm, by omega⟩
    · exact hswells.grown_append settled h hh

end Slide

/-- Only a slide that splits a hole leaves a record more in use, and one that folds what
could be a free chunk leaves none more: it finds all of them in use. -/
theorem Trail.swells (h : Trail a chunks skips passes splits moved a' done todo) :
    ∃ fat, Swells a chunks passes splits done todo fat := by
  induction h with
  | start => exact ⟨[], .start⟩
  | skip _ hskips ih =>
      obtain ⟨fat, hswells⟩ := ih
      exact ⟨fat, hswells.skip hskips⟩
  | @slide _ _ _ n a' a'' _ done todo settled todo' _ next _ h hslides ih =>
      obtain ⟨fat, hswells⟩ := ih
      by_cases hsmall : n < Trailer.bytes
      · exact ⟨fat, hswells.slide hslides hsmall⟩
      · obtain ⟨hhigh, hsize⟩ := (h.slide hslides).frame
        have hlimit := hslides.laid.recordLimit_le (hslides.spent.resolve_left hsmall).2
        rw [recordLimit, hhigh, hsize, ← recordLimit, ← List.append_assoc] at hlimit
        exact ⟨next :: fat, hswells.slide_fat hslides hsmall hlimit⟩

/-- A slide splits one hole at most. -/
theorem Trail.splits_le (h : Trail a chunks skips passes splits moved a' done todo) :
    splits ≤ passes := by
  induction h with
  | start => exact le_refl _
  | skip _ _ ih => exact ih
  | @slide _ _ _ _ _ _ _ _ _ _ _ _ _ prospect _ _ ih =>
      exact Nat.add_le_add ih (Bool.toNat_le prospect.splits)

end Arena

end CompactingArena
