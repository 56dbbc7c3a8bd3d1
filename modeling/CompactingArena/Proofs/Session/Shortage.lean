import CompactingArena.Proofs.Session.Calls
import CompactingArena.Proofs.Session.Completion
/-!
# Requests that a handler compacts for

A handler that compacts has a request tried again only if the compaction lowered the
high-water mark, which none raises, or gave a larger free chunk.  Each attempt after
the first therefore finds the arena at a lower rank, and there are as many ranks as
the rounds that the handler is given.  A request that is given up was last tried before
a compaction that made no such progress.
-/

namespace CompactingArena

open Layout

namespace Arena

variable {build : Build} {a b c d : Arena} {chunks chunks' chunks₁ : List Chunk}
  {spare spare' spare₁ : List Handle} {size requested rounds : Nat} {deeds : List Deed}
  {report : CompactionReport} {clock : Readings} {budget : Nat}

/-! ## Rounds -/

/-- How often a request may still be tried again. -/
def rank (a : Arena) (chunks : List Chunk) : Nat :=
  a.memoryHigh * (a.region.size + 1) + (a.region.size - largest (frees chunks))

/-- What a handler takes for progress, looking at the arenas before and after a
compaction: a lower high-water mark, or a larger free chunk. -/
def Gains (a b : Arena) : Prop :=
  b.memoryHigh < a.memoryHigh ∨
    ∃ n n', a.largestFreeChunk = pure n ∧ b.largestFreeChunk = pure n' ∧ n < n'

theorem gains_iff (hsound : a.Sound chunks spare) (hsound' : b.Sound chunks' spare') :
    a.Gains b ↔ b.memoryHigh < a.memoryHigh ∨ largest (frees chunks) < largest (frees chunks') := by
  rw [Gains, hsound.largestFreeChunk, hsound'.largestFreeChunk]
  simp only [Act.pure_inj, exists_and_left, exists_eq_left']

theorem Compaction.rank_lt (h : Compaction a chunks budget clock report b chunks' spare')
    (hsound : a.Sound chunks spare) (hgains : a.Gains b) : b.rank chunks' < a.rank chunks := by
  have hhigh := h.high
  have hlargest := h.sound.toLaid.largest_le
  have hbound := h.sound.memoryHigh_le
  unfold rank
  rw [h.size] at hbound ⊢
  rcases Nat.lt_or_eq_of_le hhigh with hlower | hsame
  · have hrow := Nat.mul_le_mul_right (a.region.size + 1) (Nat.succ_le_of_lt hlower)
    rw [Nat.succ_mul] at hrow
    omega
  · rcases (gains_iff hsound h.sound).mp hgains with hlower | hlarger
    · omega
    · rw [hsame]
      omega

theorem Laid.rank_lt (hlaid : a.Laid chunks spare) :
    a.rank chunks < (a.region.size + 1) * (a.region.size + 1) := by
  have hrow := Nat.mul_le_mul_right (a.region.size + 1) hlaid.memoryHigh_le
  unfold rank
  rw [Nat.succ_mul]
  omega

/-- What an attempt to serve a request for `size` bytes may find that was tried on `a` at
first: after each attempt that found no room, a compaction has made progress. -/
inductive Retries (build : Build) (size : Nat) : Arena → Arena → Prop
  | refl (a : Arena) : Retries build size a a
  | again {a b c : Arena} {report : CompactionReport}
      (hattempt : (a.tryAllocate size).result build = .ok (none, a))
      (hcompact : (a.compact 0 .still).result build = .ok (report, b)) (hgains : a.Gains b)
      (hretries : Retries build size b c) : Retries build size a c

theorem Does.compact {budget : Nat} {clock : Readings}
    (hcompact : (a.compact budget clock).result build = .ok (report, b)) :
    Does build a (.call (.compact budget clock) report) b := by
  have hcall : (Session.perform (Session.allocate .refusing) (.compact budget clock)
      ⟨a, []⟩).result build = .ok (report, ⟨b, []⟩) := by
    change (Session.changing ⟨a, []⟩ fun a => a.compact budget clock).result build = _
    rw [Session.changing, Act.result_bind_ok hcompact]
    rfl
  exact .call (fun _ => Op.noConfusion) hcall

/-- Trying again is a history like any other. -/
theorem Retries.runs (h : Retries build size a b) (hsize : chunkSize? requested = some size) :
    ∃ deeds, Runs build a deeds b := by
  induction h with
  | refl a => exact ⟨[], .nil a⟩
  | again hattempt hcompact _ _ ih =>
      obtain ⟨deeds, hdeeds⟩ := ih
      exact ⟨_, .cons (.shortage hsize hattempt) (.cons (.compact hcompact) hdeeds)⟩

/-- Some total is about to leave the range of words while a request for `size` bytes is
tried on `a` and again after each compaction that makes progress: in an attempt or the
compaction after it, in accounting for the chunk that an attempt has found, or in
accounting for the refusal. -/
inductive Brims (build : Build) (size : Nat) (a : Arena) : Prop
  | tried {b : Arena} (hretries : Retries build size a b)
      (hcrowded : b.counters.Crowded b.region.size)
  | served {b c : Arena} {h : Handle} (hretries : Retries build size a b)
      (hserved : (b.tryAllocate size).result build = .ok (some h, c))
      (hcrowded : c.counters.Crowded c.region.size)
  | refused {b c : Arena} {report : CompactionReport} (hretries : Retries build size a b)
      (hattempt : (b.tryAllocate size).result build = .ok (none, b))
      (hcompact : (b.compact 0 .still).result build = .ok (report, c)) (hvain : ¬b.Gains c)
      (hcrowded : c.counters.Crowded c.region.size)

theorem Brims.again (hattempt : (a.tryAllocate size).result build = .ok (none, a))
    (hcompact : (a.compact 0 .still).result build = .ok (report, b)) (hgains : a.Gains b)
    (hbrims : b.Brims build size) : a.Brims build size := by
  have hagain {c : Arena} (h : Retries build size b c) : Retries build size a c :=
    .again hattempt hcompact hgains h
  cases hbrims with
  | tried hretries hcrowded => exact .tried (hagain hretries) hcrowded
  | served hretries hserved hcrowded => exact .served (hagain hretries) hserved hcrowded
  | refused hretries hattempt hcompact hvain hcrowded =>
      exact .refused (hagain hretries) hattempt hcompact hvain hcrowded

/-- The last attempt to serve a request for `size` bytes finds no room in `a`, and the
compaction of `a` makes no progress. -/
structure Futile (build : Build) (size : Nat) (a : Arena) (chunks : List Chunk)
    (spare : List Handle) (report : CompactionReport) (b : Arena) (chunks' : List Chunk)
    (spare' : List Handle) : Prop where
  sound : a.Sound chunks spare
  packed : a.Packed chunks size
  attempt : (a.tryAllocate size).result build = .ok (none, a)
  compact : (a.compact 0 .still).result build = .ok (report, b)
  compaction : Compaction a chunks 0 .still report b chunks' spare'
  vain : ¬a.Gains b

/-- How a request for `size` bytes, of an arena `a` with `chunks`, comes to be given up:
it is tried on `last` in vain, and all that refusing it changes of what the compaction of
`last` has left are the counters. -/
structure GivesUp (build : Build) (size : Nat) (a : Arena) (chunks : List Chunk) (b : Arena) where
  last : Arena
  lastChunks : List Chunk
  lastSpare : List Handle
  report : CompactionReport
  left : Arena
  leftChunks : List Chunk
  leftSpare : List Handle
  retries : Retries build size a last
  carries : Carries a.region chunks last.region lastChunks
  futile : Futile build size last lastChunks lastSpare report left leftChunks leftSpare
  sound : b.Sound leftChunks leftSpare
  same : b = { left with counters := b.counters }

/-- A request that is given up after it was tried again was given up. -/
def GivesUp.again (h : GivesUp build size b chunks' c)
    (hattempt : (a.tryAllocate size).result build = .ok (none, a))
    (hcompact : (a.compact 0 .still).result build = .ok (report, b)) (hgains : a.Gains b)
    (hcarries : Carries a.region chunks b.region chunks') : GivesUp build size a chunks c :=
  { h with
    retries := .again hattempt hcompact hgains h.retries
    carries := hcarries.trans h.carries }

end Arena

namespace Session

open Arena

variable {build : Build} {s s' : Session} {chunks : List Chunk} {spare : List Handle}
  {size requested rounds : Nat}

theorem delivers_changing {α : Type} {full : Prop} {change : Arena → Act (α × Arena)}
    {post : α × Arena → Prop} (h : Act.Delivers build full (change s.arena) post) :
    Act.Delivers build full (s.changing change) fun (reply, s') =>
      (change s.arena).result build = .ok (reply, s'.arena) ∧ s'.shortages = s.shortages ∧
        post (reply, s'.arena) :=
  h.bind fun _ hresult hpost => .of_pure ⟨hresult, rfl, hpost⟩

/-- What a handler that compacts does about a shortage. -/
theorem delivers_follow_compacting (hsound : s.arena.Sound chunks spare) (serve : Server)
    (earlier : List Nat) (size : Nat) :
    Act.Delivers build (s.arena.counters.Crowded s.arena.region.size)
      (follow serve (Handler.compacting.plan earlier size s.arena) s) fun (again, s') =>
        s'.shortages = s.shortages ∧ ∃ chunks' spare' report,
          (s.arena.compact 0 .still).result build = .ok (report, s'.arena) ∧
          Compaction s.arena chunks 0 .still report s'.arena chunks' spare' ∧
          (again = true ↔ s.arena.Gains s'.arena) := by
  simp only [Handler.compacting, follow, perform]
  apply Act.Delivers.bind_yields (yields_asking hsound.highestUsed)
  apply Act.Delivers.bind_yields (yields_asking hsound.largestFreeChunk)
  apply Act.Delivers.bind (delivers_changing (hsound.compact 0 .still))
  rintro ⟨report, s'⟩ - ⟨hcompact, hshortages, chunks', spare', hcompaction⟩
  have hsound' := hcompaction.sound
  have hgains := gains_iff hsound hsound'
  apply Act.Delivers.bind_yields (Act.yields_log _)
  apply Act.Delivers.bind_yields (yields_asking hsound'.highestUsed)
  by_cases hlower : s'.arena.memoryHigh < s.arena.memoryHigh
  · simp only [if_pos hlower, follow]
    exact .of_pure ⟨hshortages, chunks', spare', report, hcompact, hcompaction,
      fun _ => hgains.mpr (.inl hlower), fun _ => rfl⟩
  · simp only [if_neg hlower, follow, perform]
    apply Act.Delivers.bind_yields (yields_asking hsound'.largestFreeChunk)
    by_cases hlarger : largest (frees chunks) < largest (frees chunks')
    · simp only [if_pos hlarger, follow]
      exact .of_pure ⟨hshortages, chunks', spare', report, hcompact, hcompaction,
        fun _ => hgains.mpr (.inr hlarger), fun _ => rfl⟩
    · simp only [if_neg hlarger, follow]
      refine .of_pure ⟨hshortages, chunks', spare', report, hcompact, hcompaction, fun h => ?_,
        fun h => ?_⟩
      · exact absurd h (by simp)
      · exact absurd (hgains.mp h) (not_or.mpr ⟨hlower, hlarger⟩)

/-- A request comes to an end.  By induction on the rounds: an attempt that finds no
room is followed by a compaction, and the next attempt by one at a lower rank. -/
theorem delivers_serveChunk_compacting (hsize : chunkSize? requested = some size)
    (hsound : s.arena.Sound chunks spare) (hrounds : s.arena.rank chunks < rounds) :
    Act.Delivers build (s.arena.Brims build size) (serveChunk .compacting rounds size s)
      fun (answer, s') =>
        (∃ n ≤ s.arena.rank chunks + 1, s'.shortages = s.shortages ++ List.replicate n size) ∧
          (answer = .error .outOfMemory →
            Nonempty (GivesUp build size s.arena chunks s'.arena)) := by
  induction rounds generalizing s chunks spare with
  | zero => exact absurd hrounds (by simp)
  | succ rounds ih =>
      obtain ⟨-, hleast, haligned⟩ := chunkSize?_eq_some hsize
      have hattempt : Act.Delivers build (s.arena.Brims build size) (s.arena.tryAllocate size) _ :=
        (hsound.tryAllocate hleast haligned).delivers fun _ _ hover => .tried (.refl _) hover.1
      rw [serveChunk]
      apply hattempt.bind
      rintro ⟨got, a⟩ hresult hgot
      cases got with
      | some h =>
          obtain ⟨chunks', spare', c, hserved, rfl, -⟩ := hgot
          apply Act.Delivers.bind ((hserved.concludeAllocation ⟨rfl, rfl⟩ size).delivers
            fun _ _ hover => .served (.refl _) hresult hover.1)
          rintro b - -
          exact .of_pure ⟨⟨0, Nat.zero_le _, by simp⟩, fun h => absurd h (by simp)⟩
      | none =>
          obtain ⟨rfl, hpacked⟩ := hgot
          set t : Session := ⟨s.arena, s.shortages ++ [size]⟩ with ht
          apply Act.Delivers.bind ((delivers_follow_compacting (s := t) hsound _ s.shortages
            size).weaken (.tried (.refl _)))
          rintro ⟨again, r⟩ - ⟨hshortages, chunks', spare', report, hcompact, hcompaction, hagain⟩
          cases again with
          | true =>
              have hgains : s.arena.Gains r.arena := hagain.mp rfl
              have hrank : r.arena.rank chunks' < s.arena.rank chunks :=
                hcompaction.rank_lt hsound hgains
              apply ((ih hcompaction.sound (by omega)).weaken
                (Brims.again hresult hcompact hgains)).mono
              rintro ⟨answer, s'⟩ ⟨⟨n, hn, hlist⟩, hgiven⟩
              refine ⟨⟨n + 1, by omega, ?_⟩, fun herror => (hgiven herror).map fun hgives =>
                hgives.again hresult hcompact hgains hcompaction.carries⟩
              rw [hlist, hshortages, ht, List.append_assoc]
              rfl
          | false =>
              have hvain : ¬s.arena.Gains r.arena := fun h => absurd (hagain.mpr h) (by simp)
              apply Act.Delivers.bind ((hcompaction.sound.refuseAllocation size).delivers
                fun _ _ hover => .refused (.refl _) hresult hcompact hvain hover.1)
              rintro b - ⟨hsound', hsame, -⟩
              refine .of_pure ⟨⟨1, Nat.le_add_left _ _, hshortages⟩, fun _ => ⟨?_⟩⟩
              exact {
                retries := .refl _
                carries := .refl _ _
                futile := ⟨hsound, hpacked, hresult, hcompact, hcompaction, hvain⟩
                sound := hsound'
                same := hsame, .. }

theorem delivers_allocate_compacting (hsound : s.arena.Sound chunks spare) (requested : Nat) :
    Act.Delivers build
      (∃ size, chunkSize? requested = some size ∧ s.arena.Brims build size)
      (allocate .compacting requested s) fun (answer, s') =>
        (∃ size, ∃ n ≤ (s.arena.region.size + 1) * (s.arena.region.size + 1),
          s'.shortages = s.shortages ++ List.replicate n size) ∧
        (answer = .error .outOfMemory → chunkSize? requested = none ∨ ∃ size,
          chunkSize? requested = some size ∧
            Nonempty (GivesUp build size s.arena chunks s'.arena)) := by
  rw [allocate, request]
  cases hsize : chunkSize? requested with
  | none =>
      exact .bind_yields (Act.yields_log _)
        (.of_pure ⟨⟨0, 0, Nat.zero_le _, by simp⟩, fun _ => .inl rfl⟩)
  | some size =>
      have hrank := hsound.toLaid.rank_lt
      apply ((delivers_serveChunk_compacting hsize hsound (Nat.lt_succ_of_lt hrank)).weaken
        fun hbrims => ⟨size, rfl, hbrims⟩).mono
      rintro ⟨answer, s'⟩ ⟨⟨n, hn, hlist⟩, hgiven⟩
      exact ⟨⟨size, n, by omega, hlist⟩, fun herror => .inr ⟨size, rfl, hgiven herror⟩⟩

end Session

end CompactingArena
