import CompactingArena.Proofs.Arena.Allocation
import CompactingArena.Proofs.Arena.Compaction
import CompactingArena.Proofs.Arena.Freeing
import CompactingArena.Proofs.Arena.Statistics
import CompactingArena.Proofs.Session.Care
/-!
# Calls that both builds carry out alike

A permitted operation on a sound arena meets none of the checks of a debug build, so
that both builds reply the same and leave the same sound arena.  Only compactions add
to running totals on the way, and only for them the two builds may differ.
-/

namespace CompactingArena

open Layout

namespace Arena

variable {a b : Arena} {chunks : List Chunk} {spare : List Handle} {h : Handle} {r : Record}

/-- An operation on `a` may leave `b`: a sound arena whose bytes in use were allocated,
if those of `a` were and no total goes down. -/
def Keeps (a b : Arena) : Prop :=
  (∃ chunks spare, b.Sound chunks spare) ∧ a.counters.Backs b.counters

theorem Sound.keeps_of_eq (hsound : b.Sound chunks spare) (hcounters : b.counters = a.counters) :
    a.Keeps b :=
  ⟨⟨chunks, spare, hsound⟩, .of_le (by rw [hcounters]) (by rw [hcounters])⟩

theorem Sound.keeps_self (hsound : a.Sound chunks spare) : a.Keeps a :=
  hsound.keeps_of_eq rfl

section Operations

variable (hsound : a.Sound chunks spare)
include hsound

theorem Sound.yields_reclaim (hr : a.inUse? h = some r) :
    ∃ b, (a.reclaim h r).Yields b ∧ a.Keeps b := by
  obtain ⟨before, c, after, rfl, rfl, hbusy, hget, hdesc⟩ := hsound.toLaid.exists_split hr
  obtain ⟨b, hreclaim, hsound', -, -, hbacks⟩ := hsound.reclaim hbusy hget hdesc
  exact ⟨b, hreclaim, ⟨_, _, hsound'⟩, hbacks⟩

theorem Sound.yields_setState (hr : a.inUse? h = some r) {state : ChunkState}
    (hstate : state.isFree = false) :
    ∃ b, a.setState h state = pure b ∧ a.Keeps b := by
  obtain ⟨before, c, after, rfl, rfl, hbusy, -⟩ := hsound.toLaid.exists_split hr
  obtain ⟨b, hset, hsound', -, -, hcounters⟩ := hsound.setState hbusy hstate
  exact ⟨b, hset, hsound'.keeps_of_eq hcounters⟩

theorem Sound.yields_pinRecord (hr : a.inUse? h = some r) {state : ChunkState}
    (hstate : state.isFree = false) :
    ∃ addr b, (a.pinRecord h r state).Yields (addr, b) ∧ a.Keeps b := by
  obtain ⟨before, c, after, rfl, rfl, hbusy, -, hdesc⟩ := hsound.toLaid.exists_split hr
  obtain ⟨b, hpin, hsound', -, -, hcounters⟩ := hsound.pinRecord hbusy hdesc hstate
  exact ⟨c.addr, b, hpin, hsound'.keeps_of_eq hcounters⟩

theorem Sound.yields_free (hlive : (a.headers.live? h).isSome = true) :
    ∃ b, (a.free h).Yields b ∧ a.Keeps b := by
  obtain ⟨r, hr⟩ := Option.isSome_iff_exists.mp hlive
  rw [Arena.free, hr]
  by_cases hfree : r.state.isFree = true
  · simp only [if_pos hfree]
    exact ⟨a, Act.yields_pure a, hsound.keeps_self⟩
  · simp only [if_neg hfree]
    exact hsound.yields_reclaim (inUse?_of_live hr (Bool.eq_false_iff.mpr hfree))

theorem Sound.yields_tryFree (h : Handle) :
    ∃ reply b, (a.tryFree h).Yields (reply, b) ∧ a.Keeps b := by
  rw [Arena.tryFree]
  cases hr : a.permit h with
  | error misuse => exact ⟨_, a, Act.yields_pure _, hsound.keeps_self⟩
  | ok r =>
      obtain ⟨b, hreclaim, hkeeps⟩ := hsound.yields_reclaim (Laid.permit_ok_iff.mp hr)
      exact ⟨_, b, hreclaim.bind (Act.yields_pure _), hkeeps⟩

theorem Sound.yields_pin (huse : (a.inUse? h).isSome = true) (state : ChunkState)
    (hstate : state.isFree = false) :
    ∃ reply b, (a.pin h state).Yields (reply, b) ∧ a.Keeps b := by
  obtain ⟨r, hr⟩ := Option.isSome_iff_exists.mp huse
  obtain ⟨hlive, hbusy⟩ := live?_of_inUse hr
  obtain ⟨addr, b, hpin, hkeeps⟩ := hsound.yields_pinRecord hr hstate
  rw [Arena.pin, hlive]
  simp only [hbusy, Bool.false_eq_true, if_false]
  exact ⟨_, b, hpin.bind (Act.yields_pure _), hkeeps⟩

theorem Sound.yields_unlock (huse : (a.inUse? h).isSome = true) :
    ∃ b, (a.unlock h).Yields b ∧ a.Keeps b := by
  obtain ⟨r, hr⟩ := Option.isSome_iff_exists.mp huse
  obtain ⟨hlive, hbusy⟩ := live?_of_inUse hr
  obtain ⟨b, hset, hkeeps⟩ := hsound.yields_setState hr (rfl : ChunkState.unlocked.isFree = false)
  rw [Arena.unlock, hlive]
  simp only [hbusy, Bool.false_eq_true, if_false, hset]
  exact ⟨b, Act.yields_pure b, hkeeps⟩

theorem Sound.yields_tryPin (h : Handle) (state : ChunkState) (hstate : state.isFree = false) :
    ∃ reply b, (a.tryPin h state).Yields (reply, b) ∧ a.Keeps b := by
  rw [Arena.tryPin]
  cases hr : a.permit h with
  | error misuse => exact ⟨_, a, Act.yields_pure _, hsound.keeps_self⟩
  | ok r =>
      obtain ⟨addr, b, hpin, hkeeps⟩ := hsound.yields_pinRecord (Laid.permit_ok_iff.mp hr) hstate
      exact ⟨_, b, hpin.bind (Act.yields_pure _), hkeeps⟩

theorem Sound.yields_tryUnlock (h : Handle) :
    ∃ reply b, (a.tryUnlock h).Yields (reply, b) ∧ a.Keeps b := by
  rw [Arena.tryUnlock]
  cases hr : a.permit h with
  | error misuse => exact ⟨_, a, Act.yields_pure _, hsound.keeps_self⟩
  | ok r =>
      obtain ⟨b, hset, hkeeps⟩ := hsound.yields_setState (Laid.permit_ok_iff.mp hr)
        (rfl : ChunkState.unlocked.isFree = false)
      simp only [hset, pure_bind]
      exact ⟨_, b, Act.yields_pure _, hkeeps⟩

/-- A write that is not refused changes only bytes of a chunk in use. -/
theorem Sound.yields_write (h : Handle) (start : Nat) (bytes : ByteArray) :
    (∃ refusal, (a.write h start bytes).Yields (.error refusal)) ∨
      ∃ b, (a.write h start bytes).Yields (.ok b) ∧ a.Keeps b := by
  rw [Arena.write]
  cases hr : a.inUse? h with
  | none => exact .inl ⟨_, Act.yields_pure _⟩
  | some r =>
      obtain ⟨c, hc, rfl, -, hdesc⟩ := hsound.toLaid.inUse?_eq_some_iff.mp hr
      obtain ⟨hmem, hbusy⟩ := mem_used.mp hc
      have hbound := (hsound.acme_le hmem).trans hsound.memoryHigh_le
      unfold Chunk.acme at hbound
      simp only [hdesc.addr, hdesc.size, Region.check_eq hbound, pure_bind]
      by_cases hfits : start + bytes.size ≤ c.size
      · rw [if_pos hfits]
        have hchanged : a.region.Changed (a.region.overlay (c.addr + start) bytes) c.Holds := by
          apply (Region.changed_overlay _ _ _).mono
          intro i hi
          unfold Chunk.Holds Chunk.acme
          omega
        exact .inr ⟨_, Act.yields_pure _, (hsound.write hmem hbusy hchanged).keeps_of_eq rfl⟩
      · rw [if_neg hfits]
        exact .inl ⟨_, Act.yields_pure _⟩

end Operations

end Arena

namespace Session

variable {α : Type} {s : Session} {reply : α} {b : Arena}

theorem yields_updating {change : Arena → Act Arena} (h : (change s.arena).Yields b) :
    (s.updating change).Yields ((), { s with arena := b }) :=
  h.bind (Act.yields_pure _)

theorem yields_changing {change : Arena → Act (α × Arena)}
    (h : (change s.arena).Yields (reply, b)) :
    (s.changing change).Yields (reply, { s with arena := b }) :=
  h.bind (Act.yields_pure _)

theorem yields_asking {query : Arena → Act α} (h : query s.arena = pure reply) :
    (s.asking query).Yields (reply, s) := by
  rw [asking, h, pure_bind]
  exact Act.yields_pure _

/-- A permitted call, unless a total overflows, which only a compaction can make it do. -/
theorem agrees_perform {chunks : List Chunk} {spare : List Handle} {op : Op}
    (hsound : s.arena.Sound chunks spare) (hbacked : s.arena.counters.Backed) (serve : Server)
    (hop : ∀ n, op ≠ .allocate n) (hpermitted : op.permitted s.arena = true) :
    Act.Agrees (s.perform serve op)
      (fun (_, s') => s.arena.counters.Wraps s.arena.region.size s'.arena.counters)
      (fun (_, s') => s.arena.Keeps s'.arena) := by
  have hanswers := hsound.answers hbacked
  cases op with
  | allocate n => exact absurd rfl (hop n)
  | free h =>
      obtain ⟨b, hfree, hkeeps⟩ := hsound.yields_free hpermitted
      exact .of_yields (yields_updating hfree) hkeeps
  | tryFree h =>
      obtain ⟨reply, b, hfree, hkeeps⟩ := hsound.yields_tryFree h
      exact .of_yields (yields_changing hfree) hkeeps
  | lock h =>
      obtain ⟨reply, b, hpin, hkeeps⟩ := hsound.yields_pin hpermitted .locked rfl
      exact .of_yields (yields_changing hpin) hkeeps
  | weakLock h =>
      obtain ⟨reply, b, hpin, hkeeps⟩ := hsound.yields_pin hpermitted .weakLocked rfl
      exact .of_yields (yields_changing hpin) hkeeps
  | unlock h =>
      obtain ⟨b, hunlock, hkeeps⟩ := hsound.yields_unlock hpermitted
      exact .of_yields (yields_updating hunlock) hkeeps
  | tryLock h =>
      obtain ⟨reply, b, hpin, hkeeps⟩ := hsound.yields_tryPin h .locked rfl
      exact .of_yields (yields_changing hpin) hkeeps
  | tryWeakLock h =>
      obtain ⟨reply, b, hpin, hkeeps⟩ := hsound.yields_tryPin h .weakLocked rfl
      exact .of_yields (yields_changing hpin) hkeeps
  | tryUnlock h =>
      obtain ⟨reply, b, hunlock, hkeeps⟩ := hsound.yields_tryUnlock h
      exact .of_yields (yields_changing hunlock) hkeeps
  | write h start bytes =>
      rcases hsound.yields_write h start bytes with ⟨refusal, hwrite⟩ | ⟨b, hwrite, hkeeps⟩
      · exact .of_yields (hwrite.bind (Act.yields_pure _)) hsound.keeps_self
      · exact .of_yields (hwrite.bind (Act.yields_pure _)) hkeeps
  | compact budget clock =>
      apply (hsound.agrees_compact budget clock).bind
      rintro ⟨report, b⟩ ⟨chunks', spare', hcompaction⟩
      exact .of_pure ⟨⟨⟨chunks', spare', hcompaction.sound⟩, hcompaction.backs⟩, id⟩
  | totalFreeBytes =>
      obtain ⟨n, hquery⟩ := hanswers.totalFreeBytes
      exact .of_yields (yields_asking hquery) hsound.keeps_self
  | largestFreeChunk =>
      obtain ⟨n, hquery⟩ := hanswers.largestFreeChunk
      exact .of_yields (yields_asking hquery) hsound.keeps_self
  | highestUsed exact =>
      obtain ⟨n, hquery⟩ := hanswers.highestUsed exact
      exact .of_yields (yields_asking hquery) hsound.keeps_self

end Session

end CompactingArena
