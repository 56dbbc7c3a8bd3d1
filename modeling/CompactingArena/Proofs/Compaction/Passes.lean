import CompactingArena.Proofs.Compaction.Merge
import CompactingArena.Proofs.Compaction.Trail
/-!
# The passes of a compaction

Every pass keeps what `Compacts` says of the arena, leaves fewer chunks in use
after its cursor and settles those behind it.  When there is nothing left to do,
every free chunk but those at the top is followed by a pinned one.
-/

namespace CompactingArena

open Layout

namespace Layout

/-- The chunks in use up to the first free chunk. -/
def reach (l : List Chunk) : List Chunk := l.takeWhile fun c => !c.isFree

/-- No chunk that may move fits into a free chunk below it, unless another free
chunk lies between the two. -/
def Stuck : List Chunk → Prop
  | [] => True
  | c :: l => (c.isFree = true → ∀ d ∈ reach l, d.state = .unlocked → c.size < d.size) ∧ Stuck l

variable {l m hole barrier todo settled todo' : List Chunk} {c : Chunk}

theorem reach_of_free (h : ∀ f ∈ l.head?, f.isFree = true) : reach l = [] := by
  cases l with
  | nil => rfl
  | cons c l =>
      have hc := h c rfl
      rw [reach, List.takeWhile_cons_of_neg (by simp [hc])]

/-- A free chunk ends the reach of those below it. -/
theorem reach_append (h : ∀ f ∈ m.head?, f.isFree = true) : reach (l ++ m) = reach l := by
  induction l with
  | nil => exact reach_of_free h
  | cons c l ih =>
      unfold reach at ih ⊢
      rw [List.cons_append, List.takeWhile_cons, List.takeWhile_cons, ih]

theorem Stuck.append (hl : Stuck l) (hm : Stuck m)
    (hfree : l = [] ∨ ∀ f ∈ m.head?, f.isFree = true) :
    Stuck (l ++ m) := by
  rcases hfree with rfl | hfree
  · exact hm
  · induction l with
    | nil => exact hm
    | cons c l ih =>
        refine ⟨fun hc => ?_, ih hl.2⟩
        change ∀ d ∈ reach (l ++ m), _
        rw [reach_append hfree]
        exact hl.1 hc

theorem Stuck.of_append (h : Stuck (l ++ m)) : Stuck m := by
  induction l with
  | nil => exact h
  | cons c l ih => exact ih h.2

theorem Busy.stuck_append (h : Busy l) (hm : Stuck m) : Stuck (l ++ m) := by
  induction l with
  | nil => exact hm
  | cons c l ih =>
      refine ⟨fun hc => ?_, ih fun d hd => h d (by simp [hd])⟩
      rw [h c (by simp)] at hc
      exact absurd hc (by simp)

theorem Busy.stuck (h : Busy l) : Stuck l := by
  simpa using h.stuck_append (m := []) trivial

/-- Nothing moves into a hole that is too small for all that may move. -/
theorem stuck_of_large (hhole : ∀ f ∈ hole, f.isFree = true) (hbusy : Busy barrier)
    (hlarge : ∀ c ∈ barrier, c.state = .unlocked → bytes hole < c.size) :
    Stuck (hole ++ barrier) := by
  induction hole with
  | nil => exact hbusy.stuck
  | cons f hole ih =>
      refine ⟨fun _ d hd hunlocked => ?_,
        ih (fun g hg => hhole g (by simp [hg])) fun c hc hstate => ?_⟩
      · have hdfree : d.isFree = false := by
          rw [Chunk.isFree, hunlocked]
          rfl
        rcases List.mem_append.mp (List.takeWhile_subset _ hd) with hd | hd
        · rw [hhole d (by simp [hd])] at hdfree
          exact absurd hdfree (by simp)
        · have hsize := hlarge d hd hunlocked
          rw [bytes_cons] at hsize
          omega
      · have hsize := hlarge c hc hstate
        rw [bytes_cons] at hsize
        omega

theorem Skips.stuck (h : Skips todo settled todo') : Stuck settled := by
  obtain ⟨busy, hhole, hbarrier, -⟩ := h
  exact busy.stuck_append (stuck_of_large hhole.free hbarrier.busy hbarrier.large)

/-- A hole that is skipped is one that a search finds nothing for. -/
theorem Skips.sees (h : Skips todo settled todo') :
    ∃ prospect, Sees todo prospect ∧ prospect.run = [] ∧ prospect.splits = false := by
  obtain ⟨busy, hhole, hbarrier, hf⟩ := h
  exact ⟨_, .obstructed busy hhole hbarrier hf, rfl, rfl⟩

theorem Skips.head (h : Skips todo settled todo') : ∀ f ∈ todo'.head?, f.isFree = true := by
  obtain ⟨-, -, -, hf⟩ := h
  simpa using hf

/-- When there is nothing left to slide, nothing fits. -/
theorem Sees.stuck (h : Sees todo .nothing) : Stuck todo := by
  cases h with
  | solid hbusy => exact hbusy.stuck
  | top hbusy hhole =>
      apply hbusy.stuck_append
      simpa using stuck_of_large hhole.free (show Busy [] by simp [Busy]) (by simp)
  | walled hbusy hhole hbarrier =>
      exact hbusy.stuck_append (stuck_of_large hhole.free hbarrier.busy hbarrier.large)

/-- When there is nothing left to slide, the free chunks that no pinned one follows
are at the top. -/
theorem Sees.capped (h : Sees todo .nothing) :
    ∃ low tail, todo = low ++ tail ∧ Capped low ∧ ∀ c ∈ tail, c.isFree = true := by
  cases h with
  | solid hbusy => exact ⟨todo, [], by simp, hbusy.capped, by simp⟩
  | @top before hole hbusy hhole => exact ⟨before, hole, rfl, hbusy.capped, hhole.free⟩
  | @walled before hole barrier hbusy hhole hbarrier =>
      exact ⟨before ++ (hole ++ barrier), [], by simp,
        hbusy.capped.append (hbarrier.capped hhole.free), by simp⟩

theorem mem_reach_append (h : Busy l) (hc : c.isFree = false) (m : List Chunk) :
    c ∈ reach (l ++ c :: m) := by
  induction l with
  | nil =>
      rw [reach, List.nil_append, List.takeWhile_cons_of_pos (by simp [hc])]
      simp
  | cons d l ih =>
      have hd := h d (by simp)
      rw [reach, List.cons_append, List.takeWhile_cons_of_pos (by simp [hd])]
      exact List.mem_cons_of_mem _ (ih fun e he => h e (by simp [he]))

/-- In a settled layout a hole is a single free chunk. -/
theorem Settled.eq_singleton (h : Settled (hole ++ l)) (hhole : Hole hole) : ∃ f, hole = [f] := by
  obtain ⟨f, rest, rfl⟩ := List.exists_cons_of_ne_nil hhole.nonempty
  obtain ⟨d, hd, hpinned⟩ := h [] f (rest ++ l) rfl (hhole.free f (by simp))
  cases rest with
  | nil => exact ⟨f, rfl⟩
  | cons e rest =>
      obtain rfl : e = d := by simpa using hd
      have hbusy := isFree_of_isPinned hpinned
      rw [hhole.free e (by simp)] at hbusy
      exact absurd hbusy (by simp)

end Layout

namespace Arena

/-- In a settled layout where nothing fits there is nothing to slide. -/
theorem not_slidable {todo : List Chunk} {prospect : Prospect} (h : Sees todo prospect)
    (hsettled : Settled todo) (hstuck : Stuck todo) : ¬Slidable prospect := by
  cases h with
  | solid => exact id
  | top => exact id
  | walled => exact id
  | obstructed => exact id
  | @adjacent before hole moved rest hbusy hhole hmoved hrest =>
      obtain ⟨f, rfl⟩ := hsettled.of_append.eq_singleton hhole
      obtain ⟨m, moved, rfl⟩ := List.exists_cons_of_ne_nil hmoved.nonempty
      obtain ⟨d, hd, hpinned⟩ := hsettled before f _ rfl (hhole.free f (by simp))
      obtain rfl : m = d := by simpa using hd
      rw [hmoved.unlocked m (by simp)] at hpinned
      exact absurd hpinned (by decide)
  | @past before hole barrier moved rest hbusy hhole hbarrier hmoved hfits hrest =>
      obtain ⟨f, rfl⟩ := hsettled.of_append.eq_singleton hhole
      obtain ⟨m, moved, rfl⟩ := List.exists_cons_of_ne_nil hmoved.nonempty
      have hfar := hstuck.of_append.1 (hhole.free f (by simp)) m
        (mem_reach_append hbarrier.busy (hmoved.busy m (by simp)) _) (hmoved.unlocked m (by simp))
      rw [bytes_cons, bytes_cons, bytes_nil] at hfits
      omega

/-- How far an arena has come in a compaction that began with `a`, whose chunks
were `chunks`. -/
structure Compacts (a : Arena) (chunks : List Chunk) (a' : Arena)
    (chunks' : List Chunk) (spare : List Handle) : Prop where
  laid : a'.Laid chunks' spare
  tiles : Tiles 0 chunks' a'.memoryHigh
  accounts : Accounts a'.counters chunks'
  carries : Carries a.region chunks a'.region chunks'
  size : a'.region.size = a.region.size
  frame : a' = { a with headers := a'.headers, region := a'.region, counters := a'.counters }
  grown : ∃ n, a.counters.Grown n a'.counters

variable {a a' a'' : Arena} {chunks moved done todo : List Chunk} {spare : List Handle}
  {settled todo' : List Chunk} {spare' : List Handle} {next : Handle} {n splits : Nat}
  {prospect : Prospect}

/-- A slide is one step further. -/
theorem Compacts.slide (h : Compacts a chunks a' (done ++ todo) spare)
    (hslides : Slides a' a'' done todo next prospect n settled todo' spare') :
    Compacts a chunks a'' (done ++ (settled ++ todo')) spare' ∧ Capped settled ∧
      (used todo').length < (used todo).length := by
  obtain ⟨-, -, hadvances, -, hlaid, hgrown, -, -, -, hframe⟩ := hslides
  obtain ⟨-, hbytes⟩ := hadvances.used_perm
  obtain ⟨hlength, hfewer⟩ := hadvances.length_used
  have htiles := h.tiles
  rw [tiles_append, Nat.zero_add] at htiles
  have hcount := h.accounts.count
  have hallocated := h.accounts.bytes
  have hhigh : a''.memoryHigh = a'.memoryHigh := by rw [hframe]
  rw [used_append, List.length_append] at hcount
  rw [used_append, bytes_append] at hallocated
  obtain ⟨m, hbefore⟩ := h.grown
  refine ⟨⟨hlaid, ?_, ⟨?_, ?_⟩, ?_, hadvances.size.trans h.size, ?_, _, hbefore.trans hgrown⟩,
    hadvances.capped, hfewer⟩
  · rw [hhigh, tiles_append, Nat.zero_add]
    exact ⟨htiles.1, hadvances.tiles htiles.2⟩
  · rw [hgrown.count, hcount, used_append, used_append, List.length_append, List.length_append]
    omega
  · rw [hgrown.allocated, hallocated, used_append, used_append, bytes_append, bytes_append]
    omega
  · exact h.carries.trans (hadvances.carries htiles.1 htiles.2)
  · rw [hframe, h.frame]

/-! ## The loop -/

/-- What holds between two passes: so many holes were split, the chunks of `moved` were
moved, those of `done` lie behind the cursor, and those of `todo` after it. -/
structure Pending (a : Arena) (chunks : List Chunk) (budget : Nat)
    (clock : Readings) (p : Progress) (splits : Nat) (moved done todo : List Chunk)
    (spare : List Handle) : Prop where
  trail : ∃ skips, Trail a chunks skips p.report.passes splits moved p.arena done todo ∧
    p.readings = skips + p.report.passes + 1 ∧ InTime budget clock (skips + p.report.passes)
  bytesMoved : p.report.bytesMoved = bytes moved
  compacts : Compacts a chunks p.arena (done ++ todo) spare
  cursor : p.cursor = exit none done
  capped : Capped done
  running : p.report.completed = false
  idle : p.report.passes = 0 → p.arena = a ∧ p.report.bytesMoved = 0 ∧ done ++ todo = chunks ∧
    Stuck done ∧ (done = [] ∨ ∀ f ∈ todo.head?, f.isFree = true)
  still : Settled chunks → Stuck chunks → p.report.passes = 0

/-- What the passes lead to, of which so many have split a hole. -/
structure Compacted (a : Arena) (chunks : List Chunk) (budget : Nat)
    (clock : Readings) (report : CompactionReport) (splits : Nat) (a' : Arena)
    (chunks' : List Chunk) (spare : List Handle) : Prop where
  trail : ∃ skips moved done todo, chunks' = done ++ todo ∧ report.bytesMoved = bytes moved ∧
    Trail a chunks skips report.passes splits moved a' done todo ∧
    InTime budget clock (skips + report.passes) ∧ (Sees todo .nothing ∨
      timeIsUp budget (clock 0) (clock (skips + report.passes + 1)) = true)
  compacts : Compacts a chunks a' chunks' spare
  capped : report.completed = true →
    ∃ low tail, chunks' = low ++ tail ∧ Capped low ∧ ∀ c ∈ tail, c.isFree = true
  idle : report.passes = 0 → a' = a ∧ report.bytesMoved = 0 ∧ chunks' = chunks ∧
    (report.completed = true → Stuck chunks)
  still : Settled chunks → Stuck chunks → report.passes = 0
  untimed : budget = 0 → report.completed = true

/-- A round that goes on has carried out what there was to see after the cursor. -/
structure Onward (a : Arena) (chunks : List Chunk) (budget : Nat) (clock : Readings)
    (p p' : Progress) (splits : Nat) (moved done todo : List Chunk) (prospect : Prospect)
    (done' todo' : List Chunk) (spare' : List Handle) : Prop where
  inTime : timeIsUp budget (clock 0) (clock p.readings) = false
  sees : Sees todo prospect
  pending : Pending a chunks budget clock p' (splits + prospect.splits.toNat)
    (moved ++ prospect.run) done' todo' spare'
  fewer : (used todo').length < (used todo).length
  thrifty : Thrifty p'.arena prospect (done ++ todo) (done' ++ todo')

variable {budget : Nat} {clock : Readings} {p : Progress}

/-- A pass that stops in the middle leaves a layout that is as good as any. -/
theorem Pending.compacted (h : Pending a chunks budget clock p splits moved done todo spare)
    (hup : timeIsUp budget (clock 0) (clock p.readings) = true) :
    Compacted a chunks budget clock p.report splits p.arena (done ++ todo) spare where
  trail := by
    obtain ⟨skips, htrail, hreadings, htime⟩ := h.trail
    exact ⟨skips, moved, done, todo, rfl, h.bytesMoved, htrail, htime, .inr (hreadings ▸ hup)⟩
  compacts := h.compacts
  capped hcompleted := by
    rw [h.running] at hcompleted
    exact absurd hcompleted (by simp)
  idle hzero := by
    obtain ⟨harena, hmoved, hchunks, -⟩ := h.idle hzero
    refine ⟨harena, hmoved, hchunks, fun hcompleted => ?_⟩
    rw [h.running] at hcompleted
    exact absurd hcompleted (by simp)
  still := h.still
  untimed := by
    rintro rfl
    exact absurd hup (by simp [timeIsUp])

/-- A compaction that has found nothing more to slide is complete. -/
theorem Pending.completed (h : Pending a chunks budget clock p splits moved done todo spare)
    (hsees : Sees todo .nothing) :
    Compacted a chunks budget clock { p.report with completed := true } splits p.arena
      (done ++ todo) spare where
  trail := by
    obtain ⟨skips, htrail, -, htime⟩ := h.trail
    exact ⟨skips, moved, done, todo, rfl, h.bytesMoved, htrail, htime, .inl hsees⟩
  compacts := h.compacts
  capped _ := by
    obtain ⟨low, tail, rfl, hlow, htail⟩ := hsees.capped
    exact ⟨done ++ low, tail, by simp, h.capped.append hlow, htail⟩
  idle hzero := by
    obtain ⟨harena, hmoved, hchunks, hstuck, hhead⟩ := h.idle hzero
    exact ⟨harena, hmoved, hchunks, fun _ => hchunks ▸ hstuck.append hsees.stuck hhead⟩
  still := h.still
  untimed _ := rfl

/-- One more pass has begun in time. -/
theorem InTime.succ {count : Nat} (h : InTime budget clock count)
    (htime : timeIsUp budget (clock 0) (clock (count + 1)) = false) :
    InTime budget clock (count + 1) := by
  intro i hi
  rcases Nat.lt_or_eq_of_le (Nat.lt_succ_iff.mp hi) with hlt | rfl
  · exact h i hlt
  · exact htime

theorem Pending.skip (h : Pending a chunks budget clock p splits moved done todo spare)
    (htime : timeIsUp budget (clock 0) (clock p.readings) = false)
    (hskips : Skips todo settled todo') (hexit : exit none (done ++ settled) = some next) :
    ∃ prospect, Onward a chunks budget clock p
      { p with readings := p.readings + 1, cursor := some next } splits moved done todo prospect
      (done ++ settled) todo' spare := by
  have hadvances : Advances (bytes done) p.arena.region _ _ _ _ _ _ := .skips hskips
  have hne : settled ≠ [] := by
    rintro rfl
    exact absurd hadvances.used_settled (by simp [used])
  have hsame : done ++ settled ++ todo' = done ++ todo := by
    rw [List.append_assoc, hskips.append_eq]
  obtain ⟨prospect, hsees, hrun, hwhole⟩ := hskips.sees
  refine ⟨prospect, htime, hsees, ?_, hadvances.length_used.2, by rw [hsame]; exact .refl _ _ _⟩
  rw [hrun, hwhole, List.append_nil, Bool.toNat_false, Nat.add_zero]
  obtain ⟨skips, htrail, hreadings, hearlier⟩ := h.trail
  rw [hreadings] at htime
  refine ⟨⟨skips + 1, .skip htrail hskips, ?_, ?_⟩, h.bytesMoved, hsame ▸ h.compacts, hexit.symm,
    h.capped.append hskips.capped, h.running, fun hzero => ?_, h.still⟩
  · simp only [hreadings]
    omega
  · rw [Nat.add_right_comm]
    exact hearlier.succ htime
  · obtain ⟨harena, hidle, hchunks, hstuck, hhead⟩ := h.idle hzero
    refine ⟨harena, hidle, hsame.trans hchunks, hstuck.append hskips.stuck ?_, .inr hskips.head⟩
    rw [← hskips.append_eq, List.head?_append_of_ne_nil _ hne] at hhead
    exact hhead

theorem Pending.slide (h : Pending a chunks budget clock p splits moved done todo spare)
    (htime : timeIsUp budget (clock 0) (clock p.readings) = false)
    (hslides : Slides p.arena a' done todo next prospect n settled todo' spare') :
    Onward a chunks budget clock p
      ⟨p.readings + 1, some next, { p.report with
        passes := p.report.passes + 1
        bytesMoved := p.report.bytesMoved + bytes prospect.run }, a'⟩
      splits moved done todo prospect (done ++ settled) todo' spare' := by
  obtain ⟨hcompacts, hcapped, hlength⟩ := h.compacts.slide hslides
  refine ⟨htime, hslides.sees, ?_, hlength, hslides.thrifty⟩
  obtain ⟨skips, htrail, hreadings, hearlier⟩ := h.trail
  rw [hreadings] at htime
  refine ⟨⟨skips, .slide htrail hslides, ?_, hearlier.succ htime⟩, ?_, ?_, hslides.cursor.symm,
    h.capped.append hcapped, h.running, ?_, fun hsettled hstuck => ?_⟩
  · simp only [hreadings]
    omega
  · rw [h.bytesMoved, bytes_append]
  · rw [List.append_assoc]
    exact hcompacts
  · intro hzero
    exact absurd hzero (Nat.succ_ne_zero _)
  · obtain ⟨-, -, rfl, -⟩ := h.idle (h.still hsettled hstuck)
    exact absurd hslides.slidable
      (not_slidable hslides.sees hsettled.of_append hstuck.of_append)

/-- A round of the loop keeps the invariant, or ends the compaction.  What it moves is what
there is to see after the cursor, as long as there is time. -/
theorem Pending.passInTime (h : Pending a chunks budget clock p splits moved done todo spare)
    (hcount : (used chunks).length < Word.modulus) (hbytes : bytes (used chunks) < Word.modulus) :
    Act.Agrees (passInTime budget clock p)
      (fun
        | .next p' => a.counters.Overdrawn p'.arena.counters
        | .done (_, a') => a.counters.Overdrawn a'.counters) fun
      | .next p' => (∃ prospect done' todo' spare',
          Onward a chunks budget clock p p' splits moved done todo prospect done' todo' spare') ∧
          (a.counters.Overdrawn p.arena.counters → a.counters.Overdrawn p'.arena.counters)
      | .done (report, a') => (∃ chunks' spare',
          (timeIsUp budget (clock 0) (clock p.readings) = true ∨ Sees todo .nothing) ∧
          Compacted a chunks budget clock report splits a' chunks' spare') ∧
          (a.counters.Overdrawn p.arena.counters → a.counters.Overdrawn a'.counters) := by
  rw [Arena.passInTime]
  split
  · rename_i hup
    exact .of_pure ⟨⟨_, _, .inl hup, h.compacted hup⟩, id⟩
  · rename_i hup
    have htime := Bool.eq_false_iff.mpr hup
    obtain ⟨m, hgrown⟩ := h.compacts.grown
    rw [h.cursor]
    apply (h.compacts.laid.compactionPass h.compacts.tiles h.compacts.accounts).bind
    rintro ⟨(violation | (⟨next, shift⟩ | next | -)), a'⟩ hpassed
    · exact absurd hpassed id
    · obtain ⟨prospect, ⟨n, settled, todo', spare', hslides⟩, rfl⟩ := hpassed
      have honward := h.slide htime hslides
      obtain ⟨skips, htrail, -⟩ := honward.pending.trail
      obtain ⟨hpasses, hmoved⟩ := htrail.bounds
      rw [← honward.pending.bytesMoved] at hmoved
      simp only at hpasses hmoved
      have hcount' := (unlocked_sublist_used chunks).length_le
      have hbytes' := bytes_subperm (unlocked_sublist_used chunks).subperm
      have haddPasses : Word.add p.report.passes 1 = pure (p.report.passes + 1) :=
        Word.add_eq (by omega)
      have haddMoved : Word.add p.report.bytesMoved (bytes prospect.run) =
          pure (p.report.bytesMoved + bytes prospect.run) := Word.add_eq (by omega)
      simp only [haddPasses, haddMoved, pure_bind]
      exact .of_pure ⟨⟨⟨prospect, _, _, _, honward⟩, fun hover => hover.trans_grown hslides.grown⟩,
        hgrown.trans_overdrawn⟩
    · obtain ⟨rfl, settled, todo', hskips, hexit⟩ := hpassed
      obtain ⟨prospect, honward⟩ := h.skip htime hskips hexit
      exact .of_pure ⟨⟨⟨prospect, _, _, _, honward⟩, id⟩, hgrown.trans_overdrawn⟩
    · obtain ⟨rfl, hsees⟩ := hpassed
      exact .of_pure ⟨⟨⟨_, _, .inr hsees, h.completed hsees⟩, id⟩, hgrown.trans_overdrawn⟩

/-- What holds before the first pass. -/
theorem Laid.pending (hlaid : a.Laid chunks spare) (htiles : Tiles 0 chunks a.memoryHigh)
    (haccounts : Accounts a.counters chunks) (budget : Nat) (clock : Readings) :
    Pending a chunks budget clock { arena := a } 0 [] [] chunks spare := by
  refine ⟨⟨0, .start, rfl, fun i hi => absurd hi (Nat.not_lt_zero i)⟩, rfl,
    ⟨hlaid, htiles, haccounts, .refl _ _, rfl, rfl, 0, .inl ⟨rfl, rfl⟩⟩, rfl, ?_, rfl, ?_,
    fun _ _ => rfl⟩
  · exact Busy.capped (by simp [Busy])
  · exact fun _ => ⟨rfl, rfl, rfl, trivial, .inl rfl⟩

/-- There are so many chunks in use after the cursor. -/
def Remaining (a : Arena) (chunks : List Chunk) (budget : Nat) (clock : Readings)
    (p : Progress) (count : Nat) : Prop :=
  ∃ splits moved done todo spare,
    Pending a chunks budget clock p splits moved done todo spare ∧ count = (used todo).length

section Run

variable (hlaid : a.Laid chunks spare) (htiles : Tiles 0 chunks a.memoryHigh)
include hlaid htiles

/-- The bytes in use are a word, and so is the number of the chunks. -/
theorem Laid.bytes_used_lt :
    bytes (used chunks) < Word.modulus ∧ (used chunks).length ≤ bytes (used chunks) := by
  have hbound := hlaid.memoryHigh_le
  have hlimit := hlaid.size_lt_modulus
  have htop := htiles.top_eq
  have hused := bytes_used_le chunks
  exact ⟨by omega, length_le_bytes fun c hc => (hlaid.sized c (mem_used.mp hc).1).pos⟩

variable (haccounts : Accounts a.counters chunks) (budget : Nat) (clock : Readings)
include haccounts

/-- The passes of a compaction come to an end, whatever its time and the clock
are. -/
theorem Laid.runPasses :
    Act.Agrees (runPasses budget clock passLimit a)
      (fun (_, a') => a.counters.Overdrawn a'.counters)
      fun (report, a') => ∃ splits chunks' spare',
        Compacted a chunks budget clock report splits a' chunks' spare' := by
  obtain ⟨hbytes, hcount⟩ := hlaid.bytes_used_lt htiles
  apply (Act.agrees_loop (Remaining a chunks budget clock)
    (fun p => a.counters.Overdrawn p.arena.counters) ?_ passLimit _ (used chunks).length
    ⟨0, [], [], chunks, spare, hlaid.pending htiles haccounts budget clock, rfl⟩ ?_).mono
  · exact fun _ h => h.1
  · rintro p rank ⟨splits, moved, done, todo, spare, hpending, rfl⟩
    apply (hpending.passInTime (by omega) (by omega)).imp
    · rintro (p' | ⟨report, a'⟩) ⟨hround, hspent⟩
      · obtain ⟨prospect, done', todo', spare', honward⟩ := hround
        exact ⟨⟨_, honward.fewer, _, _, done', todo', spare', honward.pending, rfl⟩, hspent⟩
      · obtain ⟨chunks', spare', -, hcompacted⟩ := hround
        exact ⟨⟨splits, chunks', spare', hcompacted⟩, hspent⟩
    · rintro (p' | ⟨report, a'⟩) - hover
      · exact hover
      · exact hover
  · unfold passLimit
    omega

/-- Beyond the first, there are no more rounds than chunks in use. -/
theorem Laid.runPasses_eq {limit : Nat} (hlimit : (used chunks).length < limit) :
    Arena.runPasses budget clock limit a = Arena.runPasses budget clock passLimit a := by
  obtain ⟨hbytes, hcount⟩ := hlaid.bytes_used_lt htiles
  apply Act.loop_eq_of_rank (Remaining a chunks budget clock) ?_ limit passLimit _
    (used chunks).length
    ⟨0, [], [], chunks, spare, hlaid.pending htiles haccounts budget clock, rfl⟩ hlimit
  · unfold passLimit
    omega
  · rintro p rank ⟨splits, moved, done, todo, spare, hpending, rfl⟩ build p' hround
    obtain ⟨⟨prospect, done', todo', spare', honward⟩, -⟩ :=
      (hpending.passInTime (by omega) (by omega)).of_ok hround
    exact ⟨_, honward.fewer, _, _, done', todo', spare', honward.pending, rfl⟩

end Run

end Arena

end CompactingArena
