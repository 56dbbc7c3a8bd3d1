import CompactingArena.Proofs.Layout
/-!
# What a search finds in a layout

`Prospect` names the outcomes of a search for a slide, and `Sees` says of which
layout each of them is the outcome.  A slide either moves the chunks next to a
hole or chunks behind a barrier, which is a run of chunks that stay because they
are pinned or too large.
-/

namespace CompactingArena.Layout

/-- No chunk is free. -/
def Busy (l : List Chunk) : Prop := ∀ c ∈ l, c.isFree = false

/-- A run of free chunks. -/
structure Hole (l : List Chunk) : Prop where
  nonempty : l ≠ []
  free : ∀ c ∈ l, c.isFree = true

/-- A run of chunks that may move. -/
structure Movable (l : List Chunk) : Prop where
  nonempty : l ≠ []
  unlocked : ∀ c ∈ l, c.state = .unlocked

/-- Chunks in use from a pinned one on, none of which may move into `room`
bytes. -/
structure Barrier (room : Nat) (l : List Chunk) : Prop where
  pinned : ∃ p m, l = p :: m ∧ p.state.isPinned = true
  busy : Busy l
  large : ∀ c ∈ l, c.state = .unlocked → room < c.size

/-- The outcome of a search. -/
inductive Prospect
  /-- There is nothing left to slide. -/
  | nothing
  /-- Nothing fits into the hole before another hole comes. -/
  | obstructed (before hole barrier rest : List Chunk)
  /-- The chunks next to the hole move. -/
  | adjacent (before hole moved rest : List Chunk)
  /-- Chunks behind a barrier move. -/
  | past (before hole barrier moved rest : List Chunk)

/-- The chunks that a prospect lets move. -/
def Prospect.run : Prospect → List Chunk
  | .nothing | .obstructed .. => []
  | .adjacent _ _ moved _ | .past _ _ _ moved _ => moved

/-- Whether what a prospect leaves of its hole, below chunks that stay, is enough for a
free chunk. -/
def Prospect.splits : Prospect → Bool
  | .past _ hole _ moved _ => Trailer.bytes ≤ bytes hole - bytes moved
  | .nothing | .obstructed .. | .adjacent .. => false

/-- The outcome of a search through a layout. -/
inductive Sees : List Chunk → Prospect → Prop
  | solid {l : List Chunk} (busy : Busy l) : Sees l .nothing
  | top {before hole : List Chunk} (busy : Busy before) (hhole : Hole hole) :
      Sees (before ++ hole) .nothing
  | walled {before hole barrier : List Chunk} (busy : Busy before) (hhole : Hole hole)
      (hbarrier : Barrier (bytes hole) barrier) : Sees (before ++ (hole ++ barrier)) .nothing
  | obstructed {before hole barrier rest : List Chunk} {f : Chunk} (busy : Busy before)
      (hhole : Hole hole) (hbarrier : Barrier (bytes hole) barrier) (hf : f.isFree = true) :
      Sees (before ++ (hole ++ (barrier ++ f :: rest)))
        (.obstructed before hole barrier (f :: rest))
  | adjacent {before hole moved rest : List Chunk} (busy : Busy before) (hhole : Hole hole)
      (hmoved : Movable moved) (hrest : ∀ c ∈ rest.head?, c.state ≠ .unlocked) :
      Sees (before ++ (hole ++ (moved ++ rest))) (.adjacent before hole moved rest)
  | past {before hole barrier moved rest : List Chunk} (busy : Busy before) (hhole : Hole hole)
      (hbarrier : Barrier (bytes hole) barrier) (hmoved : Movable moved)
      (hfits : bytes moved ≤ bytes hole)
      (hrest : ∀ c ∈ rest.head?, c.state = .unlocked → bytes hole < bytes moved + c.size) :
      Sees (before ++ (hole ++ (barrier ++ (moved ++ rest))))
        (.past before hole barrier moved rest)

theorem Movable.busy {l : List Chunk} (h : Movable l) : Busy l := by
  intro c hc
  rw [Chunk.isFree, h.unlocked c hc]
  rfl

/-! ## Every layout has a prospect -/

/-- The longest run at the front whose chunks satisfy a condition. -/
theorem exists_run (p : Chunk → Bool) (l : List Chunk) :
    ∃ run rest, l = run ++ rest ∧ (∀ c ∈ run, p c = true) ∧ ∀ c ∈ rest.head?, p c = false := by
  induction l with
  | nil => exact ⟨[], [], rfl, by simp, by simp⟩
  | cons c l ih =>
      by_cases hc : p c = true
      · obtain ⟨run, rest, rfl, hrun, hrest⟩ := ih
        exact ⟨c :: run, rest, rfl, by simpa [hc] using hrun, hrest⟩
      · exact ⟨[], c :: l, rfl, by simp, by simpa using hc⟩

/-- The longest run of unlocked chunks at the front that fits into `room`
bytes. -/
theorem exists_fitting_run (room : Nat) (l : List Chunk) :
    ∃ run rest, l = run ++ rest ∧ (∀ c ∈ run, c.state = .unlocked) ∧ bytes run ≤ room ∧
      ∀ c ∈ rest.head?, c.state = .unlocked → room < bytes run + c.size := by
  induction l generalizing room with
  | nil => exact ⟨[], [], rfl, by simp, Nat.zero_le _, by simp⟩
  | cons c l ih =>
      by_cases hc : c.state = .unlocked ∧ c.size ≤ room
      · obtain ⟨run, rest, rfl, hrun, hbytes, hrest⟩ := ih (room - c.size)
        refine ⟨c :: run, rest, rfl, by simpa [hc.1] using hrun, ?_, fun d hd hunlocked => ?_⟩
        · rw [bytes_cons]
          omega
        · have hd := hrest d hd hunlocked
          rw [bytes_cons]
          omega
      · refine ⟨[], c :: l, rfl, by simp, Nat.zero_le _, fun d hd hunlocked => ?_⟩
        obtain rfl : c = d := by simpa using hd
        rw [bytes_nil]
        have hlarge : ¬c.size ≤ room := fun hle => hc ⟨hunlocked, hle⟩
        omega

theorem unlocked_or_pinned {c : Chunk} (hc : c.isFree = false) :
    c.state = .unlocked ∨ c.state.isPinned = true := by
  rw [Chunk.isFree] at hc
  cases hstate : c.state with
  | free => rw [hstate] at hc; exact absurd hc (by decide)
  | unlocked => exact .inl rfl
  | locked => exact .inr rfl
  | weakLocked => exact .inr rfl

/-- A chunk that may move begins a run of such chunks. -/
theorem exists_movable {c : Chunk} (hc : c.state = .unlocked) (l : List Chunk) :
    ∃ moved rest, c :: l = moved ++ rest ∧ Movable moved ∧
      ∀ d ∈ rest.head?, d.state ≠ .unlocked := by
  obtain ⟨moved, rest, rfl, hmoved, hrest⟩ := exists_run (fun d => decide (d.state = .unlocked)) l
  refine ⟨c :: moved, rest, rfl, ⟨by simp, fun d hd => ?_⟩, fun d hd => ?_⟩
  · rcases List.mem_cons.mp hd with rfl | hd
    · exact hc
    · simpa using hmoved d hd
  · simpa using hrest d hd

/-- One that fits into `room` bytes begins a run that does. -/
theorem exists_fitting {c : Chunk} {room : Nat} (hc : c.state = .unlocked) (hsize : c.size ≤ room)
    (l : List Chunk) :
    ∃ moved rest, c :: l = moved ++ rest ∧ Movable moved ∧ bytes moved ≤ room ∧
      ∀ d ∈ rest.head?, d.state = .unlocked → room < bytes moved + d.size := by
  obtain ⟨moved, rest, hsplit, hmoved, hbytes, hrest⟩ := exists_fitting_run room (c :: l)
  refine ⟨moved, rest, hsplit, ⟨?_, hmoved⟩, hbytes, hrest⟩
  rintro rfl
  rw [List.nil_append] at hsplit
  have hlarge := hrest c (by rw [← hsplit]; rfl) hc
  rw [bytes_nil] at hlarge
  omega

/-- A pinned chunk begins a barrier. -/
theorem exists_barrier {c : Chunk} (room : Nat) (hc : c.isFree = false)
    (hpinned : c.state.isPinned = true) (l : List Chunk) :
    ∃ barrier rest, l = barrier ++ rest ∧ Barrier room (c :: barrier) ∧
      ∀ d ∈ rest.head?, d.isFree = true ∨ d.state = .unlocked ∧ d.size ≤ room := by
  obtain ⟨barrier, rest, rfl, hbarrier, hrest⟩ := exists_run
    (fun d => !d.isFree && !(decide (d.state = .unlocked) && decide (d.size ≤ room))) l
  have hlocked : c.state ≠ .unlocked := by
    intro hstate
    rw [hstate] at hpinned
    exact absurd hpinned (by decide)
  refine ⟨barrier, rest, rfl, ⟨⟨c, barrier, rfl, hpinned⟩, fun d hd => ?_,
    fun d hd hunlocked => ?_⟩, fun d hd => ?_⟩
  · rcases List.mem_cons.mp hd with rfl | hd
    · exact hc
    · have h := hbarrier d hd
      simp only [Bool.and_eq_true, Bool.not_eq_true'] at h
      exact h.1
  · rcases List.mem_cons.mp hd with rfl | hd
    · exact absurd hunlocked hlocked
    · have h := hbarrier d hd
      simp only [Bool.and_eq_true, Bool.not_eq_true', hunlocked, decide_true, Bool.true_and,
        decide_eq_false_iff_not] at h
      exact Nat.lt_of_not_le h.2
  · by_cases hfree : d.isFree = true
    · exact .inl hfree
    · have h := hrest d hd
      exact .inr (by simpa [hfree] using h)

/-- What follows the chunks in use at the front begins with a hole, if there is
anything. -/
theorem exists_hole {l : List Chunk} (hl : ∀ c ∈ l.head?, c.isFree = true) :
    l = [] ∨ ∃ hole rest, l = hole ++ rest ∧ Hole hole ∧ ∀ c ∈ rest.head?, c.isFree = false := by
  cases l with
  | nil => exact .inl rfl
  | cons f l =>
      obtain ⟨hole, rest, rfl, hfree, hrest⟩ := exists_run Chunk.isFree l
      refine .inr ⟨f :: hole, rest, rfl, ⟨by simp, fun c hc => ?_⟩, hrest⟩
      rcases List.mem_cons.mp hc with rfl | hc
      · exact hl c rfl
      · exact hfree c hc

theorem exists_sees (l : List Chunk) : ∃ prospect, Sees l prospect := by
  obtain ⟨before, rest, rfl, hbefore, hrest⟩ := exists_run (fun c => !c.isFree) l
  have hbusy : Busy before := fun c hc => by simpa using hbefore c hc
  rcases exists_hole fun c hc => by simpa using hrest c hc with
    rfl | ⟨hole, rest, rfl, hhole, hafter⟩
  · exact ⟨_, .solid (by rwa [List.append_nil])⟩
  cases rest with
  | nil =>
      rw [List.append_nil]
      exact ⟨_, .top hbusy hhole⟩
  | cons c rest =>
      have hc : c.isFree = false := hafter c rfl
      rcases unlocked_or_pinned hc with hunlocked | hpinned
      · obtain ⟨moved, rest', hsplit, hmoved, hrest'⟩ := exists_movable hunlocked rest
        rw [hsplit]
        exact ⟨_, .adjacent hbusy hhole hmoved hrest'⟩
      · obtain ⟨barrier, rest', rfl, hbarrier, hrest'⟩ :=
          exists_barrier (bytes hole) hc hpinned rest
        rw [← List.cons_append]
        cases rest' with
        | nil =>
            rw [List.append_nil]
            exact ⟨_, .walled hbusy hhole hbarrier⟩
        | cons d rest' =>
            rcases hrest' d rfl with hfree | ⟨hunlocked, hsize⟩
            · exact ⟨_, .obstructed hbusy hhole hbarrier hfree⟩
            · obtain ⟨moved, rest'', hsplit, hmoved, hfits, hrest''⟩ :=
                exists_fitting hunlocked hsize rest'
              rw [hsplit]
              exact ⟨_, .past hbusy hhole hbarrier hmoved hfits hrest''⟩

end CompactingArena.Layout
