import CompactingArena.Proofs.Arena.Healing
import CompactingArena.Proofs.Arena.Statistics
import CompactingArena.Proofs.Session.Operations
import CompactingArena.Proofs.Session.Shape
/-!
# Trespassing clients

A client that keeps an address after the chunk has moved or was freed writes where it
should not.  `Stroke` puts such writes between the calls of a session.  In a release
build the arena stays `Steady`: what the header table says remains in order, every call
that does not count on the free lists comes to an end, and a compaction puts the free
lists in order again.
-/

namespace CompactingArena

open Act Layout

/-- Whether an operation answers from the free lists alone. -/
def Op.readsLists : Op → Bool
  | .totalFreeBytes | .largestFreeChunk => true
  | _ => false

/-- What a client with a stale address does. -/
inductive Stroke
  /-- It calls an operation. -/
  | call (op : Op)
  /-- It overwrites bytes of the region, which may belong to any chunk. -/
  | stray (offset : Nat) (bytes : ByteArray)

def Stroke.readsLists : Stroke → Bool
  | .call op => op.readsLists
  | .stray .. => false

namespace Session

/-- Overwrites bytes of the region behind the back of the arena. -/
def stray (s : Session) (offset : Nat) (bytes : ByteArray) : Session :=
  { s with arena := { s.arena with region := s.arena.region.overlay offset bytes } }

/-- Carries strokes out, one after the other. -/
def suffer (handler : Handler) : List Stroke → Session → Act Session
  | [], s => return s
  | .call op :: rest, s => do
      let (_, s) ← s.call handler op
      suffer handler rest s
  | .stray offset bytes :: rest, s => suffer handler rest (s.stray offset bytes)

variable {s : Session} {α : Type}

theorem ends_updating {change : Arena → Act Arena} (h : Ends (change s.arena) Arena.Steady) :
    Ends (s.updating change) fun (_, s') => s'.arena.Steady :=
  h.bind fun _ _ hb => .of_pure hb

theorem ends_changing {change : Arena → Act (α × Arena)}
    (h : Ends (change s.arena) fun (_, b) => b.Steady) :
    Ends (s.changing change) fun (_, s') => s'.arena.Steady :=
  h.bind fun _ _ hb => .of_pure hb

end Session

namespace Arena

variable {a b : Arena} {s : Session} {deed : Deed}

theorem Steady.ends_highestUsed (hsteady : a.Steady) (exact : Bool) :
    Ends (a.highestUsed exact) fun _ => True := by
  obtain ⟨chunks, spare, hframed⟩ := hsteady
  cases exact with
  | true =>
      rw [hframed.toLaid.highestUsed_exact]
      exact .of_pure trivial
  | false =>
      rw [hframed.toLaid.highestUsed hframed.topped]
      exact .of_pure trivial

/-- Calls that are no requests end, unless they count on the free lists. -/
theorem Steady.ends_perform (hsteady : s.arena.Steady) (serve : Session.Server) {op : Op}
    (hop : ∀ n, op ≠ .allocate n) (hlists : op.readsLists = false) :
    Ends (s.perform serve op) fun (_, s') => s'.arena.Steady := by
  cases op with
  | allocate n => exact absurd rfl (hop n)
  | free h => exact Session.ends_updating (hsteady.ends_free h)
  | tryFree h => exact Session.ends_changing (hsteady.ends_tryFree h)
  | lock h => exact Session.ends_changing (hsteady.ends_pin h .locked)
  | weakLock h => exact Session.ends_changing (hsteady.ends_pin h .weakLocked)
  | unlock h => exact Session.ends_updating (hsteady.ends_unlock h)
  | tryLock h => exact Session.ends_changing (hsteady.ends_tryPin h .locked)
  | tryWeakLock h => exact Session.ends_changing (hsteady.ends_tryPin h .weakLocked)
  | tryUnlock h => exact Session.ends_changing (hsteady.ends_tryUnlock h)
  | write h start bytes =>
      apply (hsteady.ends_write h start bytes).bind
      rintro (refusal | b) - hb
      · exact .of_pure hsteady
      · exact .of_pure (hb b rfl)
  | compact budget clock =>
      refine Session.ends_changing ((hsteady.ends_compact budget clock).mono ?_)
      rintro ⟨report, b⟩ ⟨chunks, spare, horderly⟩
      exact ⟨chunks, spare, horderly.framed⟩
  | totalFreeBytes => exact absurd hlists (by decide)
  | largestFreeChunk => exact absurd hlists (by decide)
  | highestUsed exact =>
      exact (hsteady.ends_highestUsed exact).bind fun _ _ _ => .of_pure hsteady

/-! ## Whatever the handler does -/

theorem Steady.of_perform {s' : Session} (hsteady : s.arena.Steady) {serve : Session.Server} {op : Op}
    {reply : op.Reply} (hop : ∀ n, op ≠ .allocate n)
    (hcall : (s.perform serve op).result .release = .ok (reply, s')) : s'.arena.Steady := by
  cases hlists : op.readsLists with
  | false => exact (hsteady.ends_perform serve hop hlists).of_ok hcall
  | true =>
      have hsame : s'.arena = s.arena := by
        cases op with
        | totalFreeBytes => exact Session.of_asking hcall
        | largestFreeChunk => exact Session.of_asking hcall
        | _ => exact absurd hlists (by simp [Op.readsLists])
      exact hsame ▸ hsteady

/-- No deed of a release build takes the header table out of order. -/
theorem Steady.does (hsteady : a.Steady) (hdoes : Does .release a deed b) : b.Steady := by
  obtain ⟨chunks, spare, hframed⟩ := id hsteady
  cases hdoes with
  | grant hsize hserved hconcluded =>
      obtain ⟨-, hleast, haligned⟩ := chunkSize?_eq_some hsize
      have hprovides := (hframed.ends_tryAllocate hleast haligned).of_ok hserved
      exact (Provides.ends_concludeAllocation hprovides _).of_ok hconcluded
  | shortage hsize hserved =>
      obtain ⟨-, hleast, haligned⟩ := chunkSize?_eq_some hsize
      exact (hframed.ends_tryAllocate hleast haligned).of_ok hserved
  | refusal hsize hrefused => exact (hsteady.ends_refuseAllocation _).of_ok hrefused
  | call hop hcall => exact hsteady.of_perform (s := ⟨a, _⟩) hop hcall

theorem Steady.runs {deeds : List Deed} (hsteady : a.Steady) (hruns : Runs .release a deeds b) :
    b.Steady := by
  induction hruns with
  | nil => exact hsteady
  | cons hdeed _ ih => exact ih (hsteady.does hdeed)

end Arena

namespace Session

open Arena

variable {handler : Handler} {s s' : Session} {strokes : List Stroke}

/-- What trespassing leaves is steady, whatever the handler of shortages does meanwhile. -/
theorem steady_of_suffer (hsteady : s.arena.Steady)
    (h : (suffer handler strokes s).result .release = .ok s') : s'.arena.Steady := by
  induction strokes generalizing s with
  | nil =>
      rw [suffer, Act.result_pure, Except.ok.injEq] at h
      exact h ▸ hsteady
  | cons stroke strokes ih =>
      cases stroke with
      | call op =>
          obtain ⟨⟨reply, r⟩, hcall, hrest⟩ := Act.of_result_bind_ok h
          obtain ⟨deeds, hdeeds⟩ := runs_of_perform (serves_allocate handler) hcall
          exact ih (hsteady.runs hdeeds) hrest
      | stray offset bytes => exact ih (hsteady.overlay offset bytes) h

/-! ## Where shortages are refused -/

theorem ends_allocate_refusing (hsteady : s.arena.Steady) (requested : Nat) :
    Ends (allocate .refusing requested s) fun (_, s') => s'.arena.Steady := by
  obtain ⟨chunks, spare, hframed⟩ := id hsteady
  rw [allocate, request]
  cases hsize : Arena.chunkSize? requested with
  | none => exact .bind_ok (result_log _ _) (.of_pure hsteady)
  | some size =>
      obtain ⟨-, hleast, haligned⟩ := chunkSize?_eq_some hsize
      change Ends (serveChunk .refusing 1 size s) _
      rw [serveChunk]
      apply (hframed.ends_tryAllocate hleast haligned).bind
      rintro ⟨_ | h, b⟩ - hb
      · refine .bind_ok (a := (false, _)) rfl ?_
        exact (hb.ends_refuseAllocation size).bind fun _ _ hc => .of_pure hc
      · exact (Provides.ends_concludeAllocation hb size).bind fun _ _ hc => .of_pure hc

theorem ends_call_refusing (hsteady : s.arena.Steady) {op : Op} (hlists : op.readsLists = false) :
    Ends (s.call .refusing op) fun (_, s') => s'.arena.Steady := by
  by_cases hop : ∃ n, op = .allocate n
  · obtain ⟨n, rfl⟩ := hop
    exact ends_allocate_refusing hsteady n
  · exact hsteady.ends_perform _ (not_exists.mp hop) hlists

theorem ends_suffer_refusing (hsteady : s.arena.Steady)
    (hstrokes : ∀ stroke ∈ strokes, stroke.readsLists = false) :
    Ends (suffer .refusing strokes s) fun s' => s'.arena.Steady := by
  induction strokes generalizing s with
  | nil => exact .of_pure hsteady
  | cons stroke strokes ih =>
      have hrest := fun t ht => hstrokes t (List.mem_cons_of_mem _ ht)
      cases stroke with
      | call op =>
          exact (ends_call_refusing hsteady (hstrokes _ List.mem_cons_self)).bind
            fun _ _ hsteady' => ih hsteady' hrest
      | stray offset bytes => exact ih (hsteady.overlay offset bytes) hrest

end Session

end CompactingArena
