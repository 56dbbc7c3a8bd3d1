import CompactingArena.Proofs.Session.Deed
/-!
# Operations lead from sound arenas to sound arenas

An operation that has nothing to do leaves the arena as it is; otherwise it does
one of the deeds to a chunk in use.
-/

namespace CompactingArena

/-- What a release build does after a check that fails only debug builds. -/
theorem Act.of_warned {α : Type} {build : Build} {fault : Fault} {event : Event} {x : Act α} {y : α}
    (h : (do Act.expect false fault; Act.log event; x : Act α).result build = .ok y) :
    x.result build = .ok y := by
  obtain ⟨-, -, h⟩ := Act.of_result_bind_ok h
  rwa [Act.result_bind_ok (Act.result_log _ _)] at h

namespace Arena

variable {build : Build} {a b : Arena} {chunks : List Chunk} {spare : List Handle} {h : Handle}
  {deed : Deed}

section Operations

variable {r : Record} (hsound : a.Sound chunks spare) (hwritten : ∀ h i, deed.written h i = none)
include hsound hwritten

theorem Sound.leads_free (hfrees : deed.Frees h) (hfree : (a.free h).result build = .ok b) :
    a.Leads chunks deed b := by
  rw [Arena.free] at hfree
  cases hlive : a.headers.live? h with
  | none =>
      rw [hlive] at hfree
      have hfree := Act.of_warned hfree
      rw [Act.result_pure, Except.ok.injEq] at hfree
      exact hfree ▸ hsound.leads_refl hwritten
  | some r =>
      simp only [hlive] at hfree
      split at hfree
      · rw [Act.result_pure, Except.ok.injEq] at hfree
        exact hfree ▸ hsound.leads_refl hwritten
      · rename_i hbusy
        have hr := inUse?_of_live hlive (Bool.eq_false_iff.mpr hbusy)
        exact hsound.leads_reclaim hr hfree hfrees hwritten

theorem Sound.leads_tryFree (hfrees : deed.Frees h) {reply : Except Misuse Unit}
    (hfree : (a.tryFree h).result build = .ok (reply, b)) : a.Leads chunks deed b := by
  rw [Arena.tryFree] at hfree
  cases hr : a.permit h with
  | error misuse =>
      simp only [hr, Act.result_pure, Except.ok.injEq, Prod.mk.injEq] at hfree
      exact hfree.2 ▸ hsound.leads_refl hwritten
  | ok r =>
      simp only [hr] at hfree
      obtain ⟨b', hreclaim, hfree⟩ := Act.of_result_bind_ok hfree
      rw [Act.result_pure, Except.ok.injEq, Prod.mk.injEq] at hfree
      exact hfree.2 ▸ hsound.leads_reclaim (Laid.permit_ok_iff.mp hr) hreclaim hfrees hwritten

theorem Sound.leads_pin {state : ChunkState} (hstate : state.isFree = false) {reply : Option Nat}
    (hpin : (a.pin h state).result build = .ok (reply, b)) : a.Leads chunks deed b := by
  rw [Arena.pin] at hpin
  cases hlive : a.headers.live? h with
  | none =>
      rw [hlive] at hpin
      have hpin := Act.of_warned hpin
      rw [Act.result_pure, Except.ok.injEq, Prod.mk.injEq] at hpin
      exact hpin.2 ▸ hsound.leads_refl hwritten
  | some r =>
      simp only [hlive] at hpin
      split at hpin
      · obtain ⟨addr, -, hpin⟩ := Act.of_result_bind_ok (Act.of_warned hpin)
        rw [Act.result_pure, Except.ok.injEq, Prod.mk.injEq] at hpin
        exact hpin.2 ▸ hsound.leads_refl hwritten
      · rename_i hbusy
        have hr := inUse?_of_live hlive (Bool.eq_false_iff.mpr hbusy)
        obtain ⟨⟨addr, b'⟩, hrecord, hpin⟩ := Act.of_result_bind_ok hpin
        rw [Act.result_pure, Except.ok.injEq, Prod.mk.injEq] at hpin
        exact hpin.2 ▸ hsound.leads_pinRecord hr hstate hrecord hwritten

theorem Sound.leads_tryPin {state : ChunkState} (hstate : state.isFree = false)
    {reply : Except Misuse Nat} (hpin : (a.tryPin h state).result build = .ok (reply, b)) :
    a.Leads chunks deed b := by
  rw [Arena.tryPin] at hpin
  cases hr : a.permit h with
  | error misuse =>
      simp only [hr, Act.result_pure, Except.ok.injEq, Prod.mk.injEq] at hpin
      exact hpin.2 ▸ hsound.leads_refl hwritten
  | ok r =>
      simp only [hr] at hpin
      obtain ⟨⟨addr, b'⟩, hrecord, hpin⟩ := Act.of_result_bind_ok hpin
      rw [Act.result_pure, Except.ok.injEq, Prod.mk.injEq] at hpin
      exact hpin.2 ▸ hsound.leads_pinRecord (Laid.permit_ok_iff.mp hr) hstate hrecord hwritten

theorem Sound.leads_unlock (hunlock : (a.unlock h).result build = .ok b) :
    a.Leads chunks deed b := by
  rw [Arena.unlock] at hunlock
  cases hlive : a.headers.live? h with
  | none =>
      rw [hlive] at hunlock
      have hunlock := Act.of_warned hunlock
      rw [Act.result_pure, Except.ok.injEq] at hunlock
      exact hunlock ▸ hsound.leads_refl hwritten
  | some r =>
      simp only [hlive] at hunlock
      split at hunlock
      · have hunlock := Act.of_warned hunlock
        rw [Act.result_pure, Except.ok.injEq] at hunlock
        exact hunlock ▸ hsound.leads_refl hwritten
      · rename_i hbusy
        have hr := inUse?_of_live hlive (Bool.eq_false_iff.mpr hbusy)
        exact hsound.leads_setState hr rfl hunlock hwritten

theorem Sound.leads_tryUnlock {reply : Except Misuse Unit}
    (hunlock : (a.tryUnlock h).result build = .ok (reply, b)) : a.Leads chunks deed b := by
  rw [Arena.tryUnlock] at hunlock
  cases hr : a.permit h with
  | error misuse =>
      simp only [hr, Act.result_pure, Except.ok.injEq, Prod.mk.injEq] at hunlock
      exact hunlock.2 ▸ hsound.leads_refl hwritten
  | ok r =>
      simp only [hr] at hunlock
      obtain ⟨b', hset, hunlock⟩ := Act.of_result_bind_ok hunlock
      rw [Act.result_pure, Except.ok.injEq, Prod.mk.injEq] at hunlock
      exact hunlock.2 ▸ hsound.leads_setState (Laid.permit_ok_iff.mp hr) rfl hset hwritten

theorem Sound.leads_compact {budget : Nat} {clock : Readings} {report : CompactionReport}
    (hcompact : (a.compact budget clock).result build = .ok (report, b)) :
    a.Leads chunks deed b := by
  obtain ⟨chunks', spare', hcompaction⟩ := (hsound.compact budget clock).of_ok hcompact
  exact ⟨chunks', spare', hcompaction.sound, hcompaction.carries.evolves hwritten⟩

end Operations

end Arena

namespace Session

variable {α : Type} {build : Build} {s s' : Session} {answer : α}

theorem of_changing {change : Arena → Act (α × Arena)}
    (h : (s.changing change).result build = .ok (answer, s')) :
    (change s.arena).result build = .ok (answer, s'.arena) := by
  obtain ⟨⟨answer', arena⟩, hchange, h⟩ := Act.of_result_bind_ok h
  rw [Act.result_pure, Except.ok.injEq, Prod.mk.injEq] at h
  obtain ⟨rfl, rfl⟩ := h
  exact hchange

theorem of_updating {change : Arena → Act Arena} {answer : Unit}
    (h : (s.updating change).result build = .ok (answer, s')) :
    (change s.arena).result build = .ok s'.arena := by
  obtain ⟨arena, hchange, h⟩ := Act.of_result_bind_ok h
  rw [Act.result_pure, Except.ok.injEq, Prod.mk.injEq] at h
  obtain ⟨-, rfl⟩ := h
  exact hchange

theorem of_asking {query : Arena → Act α}
    (h : (s.asking query).result build = .ok (answer, s')) : s'.arena = s.arena := by
  obtain ⟨answer', -, h⟩ := Act.of_result_bind_ok h
  rw [Act.result_pure, Except.ok.injEq, Prod.mk.injEq] at h
  rw [h.2]

end Session

namespace Arena

variable {build : Build} {a b : Arena} {chunks : List Chunk} {spare : List Handle} {deed : Deed}

theorem Sound.leads_call {s s' : Session} (hsound : s.arena.Sound chunks spare)
    {serve : Session.Server} {op : Op} {reply : op.Reply} (hop : ∀ n, op ≠ .allocate n)
    (hcall : (s.perform serve op).result build = .ok (reply, s')) :
    s.arena.Leads chunks (.call op reply) s'.arena := by
  cases op with
  | allocate n => exact absurd rfl (hop n)
  | free h => exact hsound.leads_free (fun _ _ => rfl) rfl (Session.of_updating hcall)
  | tryFree h => exact hsound.leads_tryFree (fun _ _ => rfl) rfl (Session.of_changing hcall)
  | lock h => exact hsound.leads_pin (fun _ _ => rfl) rfl (Session.of_changing hcall)
  | weakLock h => exact hsound.leads_pin (fun _ _ => rfl) rfl (Session.of_changing hcall)
  | unlock h => exact hsound.leads_unlock (fun _ _ => rfl) (Session.of_updating hcall)
  | tryLock h => exact hsound.leads_tryPin (fun _ _ => rfl) rfl (Session.of_changing hcall)
  | tryWeakLock h => exact hsound.leads_tryPin (fun _ _ => rfl) rfl (Session.of_changing hcall)
  | tryUnlock h => exact hsound.leads_tryUnlock (fun _ _ => rfl) (Session.of_changing hcall)
  | write h start bytes =>
      obtain ⟨outcome, hwrite, hcall⟩ := Act.of_result_bind_ok hcall
      cases outcome with
      | error refusal =>
          cases hcall
          exact hsound.leads_refl fun _ _ => rfl
      | ok arena =>
          cases hcall
          exact hsound.leads_write hwrite
  | compact budget clock =>
      exact hsound.leads_compact (fun _ _ => rfl) (Session.of_changing hcall)
  | totalFreeBytes =>
      rw [Session.of_asking hcall]
      exact hsound.leads_refl fun _ _ => rfl
  | largestFreeChunk =>
      rw [Session.of_asking hcall]
      exact hsound.leads_refl fun _ _ => rfl
  | highestUsed exact =>
      rw [Session.of_asking hcall]
      exact hsound.leads_refl fun _ _ => rfl

theorem Sound.leads (hsound : a.Sound chunks spare) (hdoes : Does build a deed b) :
    a.Leads chunks deed b := by
  cases deed with
  | grant requested h =>
      obtain ⟨-, chunks', spare', hsound', hevolves, -⟩ := hsound.grant hdoes
      exact ⟨chunks', spare', hsound', hevolves⟩
  | shortage requested =>
      rw [hsound.shortage hdoes]
      exact hsound.leads_refl fun _ _ => rfl
  | refusal requested => exact hsound.refusal hdoes
  | call op reply =>
      cases hdoes with
      | call hop hcall => exact hsound.leads_call (s := ⟨a, _⟩) hop hcall

end Arena

end CompactingArena
