import CompactingArena.Proofs.Arena.Books
import CompactingArena.Proofs.Arena.Statistics
import CompactingArena.Proofs.Session.Care
import CompactingArena.Proofs.Session.Shape
/-!
# The ledger of an arena

`Arena.Frees` adds up, along a history, the sizes that chunks had when they were freed.
The counters follow it: what was ever handed out is what is in use and what was freed.  The
counters that follow the state never pass below zero, and the total, as long as it is a
word, is never less than what is in use.
-/

namespace CompactingArena

open Act Layout

variable {build : Build} {a b c : Arena} {chunks : List Chunk} {spare : List Handle} {h : Handle}
  {deed : Deed} {deeds : List Deed} {n : Nat} {config : Config} {available size : Nat}

/-- The size that a chunk in use had, if it is in use no longer. -/
def Arena.lost (a b : Arena) (h : Handle) : Nat :=
  match a.inUse? h, b.inUse? h with
  | some r, none => r.size
  | _, _ => 0

/-- The bytes that a deed frees, if it is to free any. -/
def Deed.freed (a b : Arena) : Deed → Nat
  | .call (.free h) _ => a.lost b h
  | .call (.tryFree h) _ => a.lost b h
  | _ => 0

namespace Arena

/-- Deeds lead from one arena to another, and free so many bytes on the way. -/
inductive Frees (build : Build) : Arena → List Deed → Nat → Arena → Prop
  | nil (a : Arena) : Frees build a [] 0 a
  | cons {a b c : Arena} {deed : Deed} {deeds : List Deed} {n : Nat} (hdeed : Does build a deed b)
      (hrest : Frees build b deeds n c) : Frees build a (deed :: deeds) (deed.freed a b + n) c

theorem Frees.runs (h : Frees build a deeds n b) : Runs build a deeds b := by
  induction h with
  | nil a => exact .nil a
  | cons hdeed _ ih => exact .cons hdeed ih

/-- Every history frees some number of bytes. -/
theorem Runs.exists_frees (h : Runs build a deeds b) : ∃ n, Frees build a deeds n b := by
  induction h with
  | nil a => exact ⟨0, .nil a⟩
  | cons hdeed _ ih =>
      obtain ⟨n, hn⟩ := ih
      exact ⟨_, .cons hdeed hn⟩

/-! ## Deed by deed -/

theorem Laid.inUse?_eq_none (hlaid : a.Laid chunks spare) {c : Chunk} (hc : c ∈ chunks)
    (hfree : c.isFree = true) : a.inUse? c.handle = none := by
  rw [Option.eq_none_iff_forall_not_mem]
  intro r hr
  obtain ⟨d, hd, hhandle, -⟩ := hlaid.inUse?_eq_some_iff.mp hr
  obtain ⟨hd, hbusy⟩ := mem_used.mp hd
  obtain rfl := hlaid.eq_of_handle_eq hd hc hhandle
  rw [hfree] at hbusy
  exact absurd hbusy (by simp)

/-- A free of a chunk in use takes effect. -/
theorem Sound.balances_reclaim (hsound : a.Sound chunks spare) {r : Record}
    (hr : a.inUse? h = some r) (hreclaim : (a.reclaim h r).result build = .ok b) :
    a.counters.Balances (a.lost b h) b.counters := by
  obtain ⟨before, c, after, rfl, rfl, hbusy, hget, hdesc⟩ := hsound.toLaid.exists_split hr
  obtain ⟨b', hreclaim', hsound', -⟩ := hsound.reclaim hbusy hget hdesc
  obtain rfl : b' = b := Except.ok.inj ((hreclaim' build).symm.trans hreclaim)
  have hgone : b'.inUse? c.handle = none :=
    hsound'.toLaid.inUse?_eq_none (c := c.inState .free) (by simp) rfl
  have hsize : r.size ≤ Word.modulus := by
    have hacme := hsound.acme_le (c := c) (by simp)
    have hhigh := hsound.memoryHigh_le
    have hmodulus := hsound.size_lt_modulus
    rw [hdesc.size]
    unfold Chunk.acme at hacme
    omega
  rcases ensures_reclaim b' hreclaim with rfl | hcounters
  · rw [hr] at hgone
    exact absurd hgone (by simp)
  · rw [lost, hr, hgone]
    exact Counters.ensures_accountFree hsize _ hcounters

/-- Nothing is lost where a chunk is as much in use as before. -/
theorem lost_self (a : Arena) (h : Handle) : a.lost a h = 0 := by
  unfold lost
  cases a.inUse? h <;> rfl

theorem Sound.balances_free (hsound : a.Sound chunks spare)
    (hfree : (a.free h).result build = .ok b) : a.counters.Balances (a.lost b h) b.counters := by
  rw [Arena.free] at hfree
  cases hlive : a.headers.live? h with
  | none =>
      rw [hlive] at hfree
      obtain rfl := Except.ok.inj (Act.of_warned hfree)
      rw [lost_self]
      exact .refl _
  | some r =>
      simp only [hlive] at hfree
      split at hfree
      · obtain rfl := Except.ok.inj hfree
        rw [lost_self]
        exact .refl _
      · rename_i hbusy
        exact hsound.balances_reclaim (inUse?_of_live hlive (Bool.eq_false_iff.mpr hbusy)) hfree

theorem Sound.balances_tryFree (hsound : a.Sound chunks spare) {reply : Except Misuse Unit}
    (hfree : (a.tryFree h).result build = .ok (reply, b)) :
    a.counters.Balances (a.lost b h) b.counters := by
  rw [Arena.tryFree] at hfree
  cases hr : a.permit h with
  | error misuse =>
      rw [hr] at hfree
      obtain ⟨-, rfl⟩ := Prod.mk.inj (Except.ok.inj hfree)
      rw [lost_self]
      exact .refl _
  | ok r =>
      rw [hr] at hfree
      obtain ⟨b', hreclaim, hfree⟩ := Act.of_result_bind_ok hfree
      obtain ⟨-, rfl⟩ := Prod.mk.inj (Except.ok.inj hfree)
      exact hsound.balances_reclaim (Laid.permit_ok_iff.mp hr) hreclaim

theorem balances_of_eq (h : b.counters = a.counters) : a.counters.Balances 0 b.counters :=
  h ▸ .refl _

theorem Sound.balances_call {s s' : Session} (hsound : s.arena.Sound chunks spare)
    {serve : Session.Server} {op : Op} {reply : op.Reply} (hop : ∀ n, op ≠ .allocate n)
    (hcall : (s.perform serve op).result build = .ok (reply, s')) :
    s.arena.counters.Balances ((Deed.call op reply).freed s.arena s'.arena) s'.arena.counters := by
  cases op with
  | allocate n => exact absurd rfl (hop n)
  | free h => exact hsound.balances_free (Session.of_updating hcall)
  | tryFree h => exact hsound.balances_tryFree (Session.of_changing hcall)
  | lock h => exact balances_of_eq (ensures_pin _ (Session.of_changing hcall))
  | weakLock h => exact balances_of_eq (ensures_pin _ (Session.of_changing hcall))
  | unlock h => exact balances_of_eq (ensures_unlock _ (Session.of_updating hcall))
  | tryLock h => exact balances_of_eq (ensures_tryPin _ (Session.of_changing hcall))
  | tryWeakLock h => exact balances_of_eq (ensures_tryPin _ (Session.of_changing hcall))
  | tryUnlock h => exact balances_of_eq (ensures_tryUnlock _ (Session.of_changing hcall))
  | write h start bytes =>
      obtain ⟨outcome, hwrite, hcall⟩ := Act.of_result_bind_ok hcall
      cases outcome with
      | error refusal =>
          cases hcall
          exact balances_of_eq rfl
      | ok arena =>
          cases hcall
          exact balances_of_eq (ensures_write _ hwrite)
  | compact budget clock => exact ensures_balances_compact _ (Session.of_changing hcall)
  | totalFreeBytes => exact balances_of_eq (congrArg _ (Session.of_asking hcall))
  | largestFreeChunk => exact balances_of_eq (congrArg _ (Session.of_asking hcall))
  | highestUsed exact => exact balances_of_eq (congrArg _ (Session.of_asking hcall))

theorem Sound.balances (hsound : a.Sound chunks spare) (hdoes : Does build a deed b) :
    a.counters.Balances (deed.freed a b) b.counters := by
  cases hdoes with
  | grant _ htry hconclude =>
      have ⟨_, hcounters⟩ := ensures_concludeAllocation _ hconclude
      exact (ensures_tryAllocate _ htry).balances.trans
        (Counters.ensures_accountAlloc _ hcounters)
  | shortage _ htry => exact (ensures_tryAllocate _ htry).balances
  | refusal _ hrefuse =>
      exact Counters.ensures_accountOom _ (ensures_refuseAllocation _ hrefuse)
  | call hop hcall => exact hsound.balances_call (s := ⟨a, _⟩) hop hcall

/-- Along a history the counters lose what it frees. -/
theorem Frees.balances (h : Frees build a deeds n b) (hsound : a.Sound chunks spare) :
    a.counters.Balances n b.counters := by
  induction h generalizing chunks spare with
  | nil a => exact .refl _
  | cons hdeed _ ih =>
      obtain ⟨chunks', spare', hsound', -⟩ := hsound.leads hdeed
      exact (hsound.balances hdeed).trans (ih hsound')

/-! ## The ledger -/

/-- What the counters tell of an arena where chunks of `freed` bytes were freed. -/
structure Ledger (a : Arena) (chunks : List Chunk) (freed : Nat) : Prop where
  chain : a.headers.Lists a.headers.chain chunks none
  count : a.liveChunkCount = pure a.counters.allocationCount
  bytes : a.counters.allocatedBytes = bytes (used chunks)
  /-- All that was ever handed out is in use or was freed. -/
  total : a.counters.totalAllocatedBytes = (a.counters.allocatedBytes + freed) % Word.modulus
  freed : a.counters.allocatedBytes + freed < Word.modulus →
    a.counters.totalFreedBytes = pure freed
  /-- Another free passes below zero nowhere. -/
  free : ∀ h r, a.inUse? h = some r →
    1 ≤ a.counters.allocationCount ∧ r.size ≤ a.counters.allocatedBytes ∧
      a.counters.accountFree r.size = pure { a.counters with
        allocationCount := a.counters.allocationCount - 1
        allocatedBytes := a.counters.allocatedBytes - r.size }

theorem Sound.ledger (hsound : a.Sound chunks spare)
    (htotal : a.counters.totalAllocatedBytes = (a.counters.allocatedBytes + n) % Word.modulus) :
    a.Ledger chunks n where
  chain := hsound.chained
  count := by rw [hsound.liveChunkCount, hsound.accounts.count]
  bytes := hsound.accounts.bytes
  total := htotal
  freed hfit := by
    rw [Nat.mod_eq_of_lt hfit] at htotal
    rw [Counters.totalFreedBytes, Word.sub_eq (by omega), htotal, Nat.add_sub_cancel_left]
  free h r hr := by
    obtain ⟨c, hc, rfl, -, hdesc⟩ := hsound.toLaid.inUse?_eq_some_iff.mp hr
    have hcount : 1 ≤ a.counters.allocationCount := by
      rw [hsound.accounts.count]
      exact List.length_pos_of_mem hc
    have hbytes : r.size ≤ a.counters.allocatedBytes := by
      rw [hdesc.size, hsound.accounts.bytes]
      exact size_le_bytes hc
    refine ⟨hcount, hbytes, ?_⟩
    rw [Counters.accountFree, Word.sub_eq hcount, Word.sub_eq hbytes, pure_bind, pure_bind]

theorem Frees.ledger (hfrees : Frees build a deeds n b)
    (hestablish : (establish config available size).result build = .ok (.ok a)) :
    ∃ chunks, b.Ledger chunks n := by
  obtain ⟨-, hsound, hcounters⟩ := of_establish hestablish
  obtain ⟨chunks, spare, hsound'⟩ := hfrees.runs.sound hsound
  obtain ⟨hbytes, hword⟩ := hfrees.balances hsound
  rw [hcounters] at hbytes hword
  have htotal : b.counters.totalAllocatedBytes ≡ b.counters.allocatedBytes + n [MOD Word.modulus] := by
    simpa using hbytes
  refine ⟨chunks, hsound'.ledger ?_⟩
  rw [← Nat.mod_eq_of_lt (hword (by decide))]
  exact htotal

/-- At every moment of every history the counters tell how many chunks and bytes are in use,
and how many bytes were freed until then. -/
theorem ledger_of_frees
    (hestablish : (establish config available size).result build = .ok (.ok a)) :
    (∀ deeds n b, Frees build a deeds n b → ∃ chunks, b.Ledger chunks n) ∧
      (∀ deeds b, Runs build a deeds b → ∃ n, Frees build a deeds n b) ∧
      ∀ handler ops s, (Session.run handler ops ⟨a, []⟩).result build = .ok s →
        ∃ deeds n, Frees build a deeds n s.arena := by
  refine ⟨fun deeds n b hfrees => hfrees.ledger hestablish, fun deeds b hruns => hruns.exists_frees,
    fun handler ops s hrun => ?_⟩
  obtain ⟨deeds, hruns⟩ := Session.runs_of_run hrun
  exact ⟨deeds, hruns.exists_frees⟩

/-- A chunk is handed out and freed again. -/
def loan : Act (Option Handle × Arena × Arena) := do
  let (h, a) ← small.tryAllocate 16
  let b ← a.concludeAllocation (nth 0) 16
  let c ← b.free (nth 0)
  return (h, b, c)

theorem ledger_of_loan :
    ∃ c, Frees .release small [.grant 16 (nth 0), .call (.free (nth 0)) ()] 16 c ∧
      ∃ chunks, c.Ledger chunks 16 ∧ c.counters.totalFreedBytes = pure 16 := by
  have hok : (loan.result .release).isOk = true := by decide +kernel
  have hkept : loan.afterwards (fun (h, b, c) => decide (h = some (nth 0) ∧
      b.lost c (nth 0) = 16 ∧ c.counters.allocatedBytes = 0)) = true := by
    decide +kernel
  obtain ⟨⟨h, b, c⟩, hloan⟩ := exists_of_isOk hok
  have hfacts := of_afterwards hkept hloan
  obtain ⟨rfl, hlost, hbytes⟩ := of_decide_eq_true hfacts
  obtain ⟨⟨h, a⟩, htry, hloan⟩ := of_result_bind_ok hloan
  obtain ⟨b, hconclude, hloan⟩ := of_result_bind_ok hloan
  obtain ⟨c, hfree, hloan⟩ := of_result_bind_ok hloan
  cases Except.ok.inj hloan
  have hcall : (Session.perform (Session.allocate .refusing) (.free (nth 0)) ⟨b, []⟩).result .release =
      .ok ((), ⟨c, []⟩) := result_bind_ok hfree
  have hgrant : Does .release small (.grant 16 (nth 0)) b := .grant (by decide) htry hconclude
  have hfrees : Frees .release small [.grant 16 (nth 0), .call (.free (nth 0)) ()]
      (0 + (b.lost c (nth 0) + 0)) c :=
    .cons hgrant (.cons (.call (by simp) hcall) (.nil c))
  rw [hlost] at hfrees
  obtain ⟨chunks, hledger⟩ := (ledger_of_frees (establish_small .release)).1 _ _ _ hfrees
  exact ⟨c, hfrees, chunks, hledger, hledger.freed (by rw [hbytes]; decide)⟩

end Arena

end CompactingArena
