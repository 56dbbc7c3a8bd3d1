import CompactingArena.Session
import CompactingArena.Proofs.Act
import Mathlib.Data.Nat.ModEq
/-!
# What operations account for

What becomes of the counters can be read off the operations alone, whatever state the rest
of an arena is in.  For each operation one lemma tells what it accounts for.  Hence the
bytes in use and their total balance: bytes that are handed out are added to both, and bytes
that are freed are taken away from the former only.  A release build lets either of the two
wrap around, so that they balance as words do.
-/

namespace CompactingArena

open Act

/-- A difference that a build ends with is the difference of words. -/
theorem Word.ensures_sub {x y : Nat} {build : Build} (hy : y ≤ modulus) :
    Ensures build (sub x y) fun difference => difference + y ≡ x [MOD modulus] := by
  intro difference h
  by_cases hle : y ≤ x
  · rw [sub_eq hle] at h
    obtain rfl := Except.ok.inj h
    rw [Nat.sub_add_cancel hle]
  · rw [sub, if_neg hle, overflow] at h
    cases build with
    | debug => exact absurd h (by simp [failInDebug, result])
    | release =>
        obtain rfl := Except.ok.inj h
        calc (x + modulus - y) % modulus + y
          _ ≡ x + modulus - y + y [MOD modulus] := (Nat.mod_modEq _ _).add_right y
          _ = x + modulus := by omega
          _ ≡ x [MOD modulus] := Nat.add_mod_right x modulus

namespace Counters

variable {c c' c'' : Counters} {build : Build} {m n size : Nat}

/-- From `c` to `c'`, the bytes in use and their total grew alike, but for `n` bytes that
are no longer in use. -/
structure Balances (c : Counters) (n : Nat) (c' : Counters) : Prop where
  bytes : c'.totalAllocatedBytes + c.allocatedBytes ≡
    c.totalAllocatedBytes + c'.allocatedBytes + n [MOD Word.modulus]
  word : c.totalAllocatedBytes < Word.modulus → c'.totalAllocatedBytes < Word.modulus

theorem Balances.of_eq (hbytes : c'.allocatedBytes = c.allocatedBytes)
    (htotal : c'.totalAllocatedBytes = c.totalAllocatedBytes) : c.Balances 0 c' where
  bytes := by rw [hbytes, htotal, Nat.add_zero]
  word h := htotal ▸ h

theorem Balances.refl (c : Counters) : c.Balances 0 c := .of_eq rfl rfl

theorem Balances.trans (h : c.Balances m c') (h' : c'.Balances n c'') : c.Balances (m + n) c'' where
  bytes := by
    have hsum := h.bytes.add h'.bytes
    refine Nat.ModEq.add_right_cancel' (c'.totalAllocatedBytes + c'.allocatedBytes) ?_
    convert hsum using 1 <;> omega
  word hword := h'.word (h.word hword)

/-- Bytes that both counters grow by. -/
theorem Balances.of_add (hbytes : c'.allocatedBytes = (c.allocatedBytes + size) % Word.modulus)
    (htotal : c'.totalAllocatedBytes = (c.totalAllocatedBytes + size) % Word.modulus) :
    c.Balances 0 c' where
  bytes := by
    rw [hbytes, htotal, Nat.add_zero]
    calc (c.totalAllocatedBytes + size) % Word.modulus + c.allocatedBytes
      _ ≡ c.totalAllocatedBytes + size + c.allocatedBytes [MOD Word.modulus] :=
        (Nat.mod_modEq _ _).add_right _
      _ = c.totalAllocatedBytes + (c.allocatedBytes + size) := by omega
      _ ≡ c.totalAllocatedBytes + (c.allocatedBytes + size) % Word.modulus [MOD Word.modulus] :=
        (Nat.mod_modEq _ _).symm.add_left _
  word _ := htotal ▸ Nat.mod_lt _ (by decide)

theorem ensures_accountAlloc : Ensures build (c.accountAlloc size) (c.Balances 0) := by
  rw [accountAlloc]
  exact .after fun _ => Word.ensures_add.bind fun _ hbytes => .after fun _ =>
    Word.ensures_add.bind fun _ htotal => .of_pure (.of_add hbytes htotal)

theorem ensures_accountFold : Ensures build (c.accountFold size) (c.Balances 0) := by
  rw [accountFold]
  exact Word.ensures_add.bind fun _ hbytes => Word.ensures_add.bind fun _ htotal =>
    .of_pure (.of_add hbytes htotal)

/-- `c'` is `c` after chunks in use grew. -/
inductive Folds (build : Build) (c : Counters) : Counters → Prop
  | refl : Folds build c c
  | fold {c' c'' : Counters} {size : Nat} (h : Folds build c c')
      (hfold : (c'.accountFold size).result build = .ok c'') : Folds build c c''

theorem Folds.trans (h : c.Folds build c') (h' : c'.Folds build c'') : c.Folds build c'' := by
  induction h' with
  | refl => exact h
  | fold _ hfold ih => exact .fold ih hfold

theorem Folds.balances (h : c.Folds build c') : c.Balances 0 c' := by
  induction h with
  | refl => exact .refl c
  | fold _ hfold ih => exact ih.trans (ensures_accountFold _ hfold)

theorem ensures_accountFree (hsize : size ≤ Word.modulus) :
    Ensures build (c.accountFree size) (c.Balances size) := by
  rw [accountFree]
  refine .after fun _ => (Word.ensures_sub hsize).bind fun bytes hbytes => .of_pure ⟨?_, id⟩
  simpa only [Nat.add_assoc] using (hbytes.add_left c.totalAllocatedBytes).symm

theorem ensures_accountReuse : Ensures build (c.accountReuse size) (c.Balances 0) := by
  rw [accountReuse]
  exact .after fun _ => .after fun _ => .of_pure (.of_eq rfl rfl)

theorem ensures_accountCompaction {passes moved : Nat} :
    Ensures build (c.accountCompaction passes moved) (c.Balances 0) := by
  rw [accountCompaction]
  exact .after fun _ => .after fun _ => .after fun _ => .of_pure (.of_eq rfl rfl)

theorem ensures_accountOom : Ensures build c.accountOom (c.Balances 0) := by
  rw [accountOom]
  exact .after fun _ => .of_pure (.of_eq rfl rfl)

end Counters

namespace Arena

variable {a : Arena} {build : Build} {h : Handle} {size : Nat}

/-! ## Requests -/

/-- What an attempt to serve a request for `size` bytes accounts for: nothing, unless it
takes a chunk from the free lists. -/
inductive Attempts (build : Build) (a : Arena) (size : Nat) : Option Handle → Arena → Prop
  | shortage {b : Arena} (hcounters : b.counters = a.counters) : Attempts build a size none b
  | fresh {b : Arena} {h : Handle} (hhigh : b.memoryHigh = a.memoryHigh + size)
      (hcounters : b.counters = a.counters) : Attempts build a size (some h) b
  | reused {b : Arena} {h : Handle} {whole : Nat} (hhigh : b.memoryHigh = a.memoryHigh)
      (hcounters : (a.counters.accountReuse whole).result build = .ok b.counters) :
      Attempts build a size (some h) b

theorem Attempts.balances {b : Arena} {got : Option Handle} (h : a.Attempts build size got b) :
    a.counters.Balances 0 b.counters := by
  cases h with
  | shortage hcounters => exact hcounters ▸ .refl _
  | fresh _ hcounters => exact hcounters ▸ .refl _
  | reused _ hcounters => exact Counters.ensures_accountReuse _ hcounters

theorem ensures_bump :
    Ensures build (a.bump size) fun served => ∀ p ∈ served,
      p.2.memoryHigh = a.memoryHigh + size ∧ p.2.counters = a.counters := by
  rw [bump]
  dsimp only
  split
  · exact .of_pure (by simp)
  · refine .after fun low => ?_
    split
    · exact .of_pure (by simp)
    · refine .after ?_
      rintro (_ | ⟨g, headers⟩)
      · exact .of_pure (by simp)
      · exact .after fun _ => .of_pure (by simp)

theorem ensures_split {whole : Nat} :
    Ensures build (a.split h whole size) fun a' =>
      a'.memoryHigh = a.memoryHigh ∧ a'.counters = a.counters := by
  rw [split]
  refine .after fun leftover => ?_
  split
  · exact .of_pure ⟨rfl, rfl⟩
  · refine .after ?_
    rintro (_ | ⟨rest, headers⟩)
    · exact .of_pure ⟨rfl, rfl⟩
    · exact .after fun _ => .after fun _ => .after fun _ => .after fun _ => .after fun _ =>
        .of_pure ⟨rfl, rfl⟩

theorem ensures_reuse :
    Ensures build (a.reuse size) fun p =>
      a.Attempts build size p.1 p.2 ∧ p.2.memoryHigh = a.memoryHigh := by
  rw [reuse]
  refine .after ?_
  rintro ⟨violation | _ | h, classes, region⟩
  · exact .after fun _ => .of_pure ⟨.shortage rfl, rfl⟩
  · exact .of_pure ⟨.shortage rfl, rfl⟩
  · refine .after fun whole => .after fun headers => .bind .self fun counters hcounters =>
      ensures_split.bind ?_
    rintro b ⟨hhigh, hb⟩
    exact .of_pure ⟨.reused hhigh (hcounters.trans (congrArg _ hb.symm)), hhigh⟩

theorem ensures_tryAllocate :
    Ensures build (a.tryAllocate size) fun p => a.Attempts build size p.1 p.2 := by
  rw [tryAllocate]
  cases a.config.placement with
  | reuseFirst =>
      refine ensures_reuse.bind ?_
      rintro ⟨_ | h, b⟩ ⟨hb, hhigh⟩
      · obtain ⟨hb⟩ := hb
        refine ensures_bump.bind ?_
        rintro (_ | ⟨g, c⟩) hc
        · exact .of_pure (.shortage hb)
        · have ⟨hhigh', hcounters⟩ := hc _ rfl
          exact .of_pure (.fresh (hhigh ▸ hhigh') (hcounters.trans hb))
      · exact .of_pure hb
  | bumpFirst =>
      refine ensures_bump.bind ?_
      rintro (_ | ⟨g, b⟩) hb
      · exact ensures_reuse.mono fun _ h => h.1
      · have ⟨hhigh, hcounters⟩ := hb _ rfl
        exact .of_pure (.fresh hhigh hcounters)

theorem ensures_concludeAllocation :
    Ensures build (a.concludeAllocation h size) fun a' =>
      ∃ n, (a.counters.accountAlloc n).result build = .ok a'.counters := by
  rw [concludeAllocation]
  exact .after fun record => .bind .self fun _ hcounters => .after fun _ => .after fun _ =>
    .of_pure ⟨record.size, hcounters⟩

theorem ensures_refuseAllocation :
    Ensures build (a.refuseAllocation size) fun a' =>
      a.counters.accountOom.result build = .ok a'.counters := by
  rw [refuseAllocation]
  exact .bind .self fun _ hcounters => .after fun _ => .of_pure hcounters

/-! ## Frees -/

/-- Unless it comes to nothing, a free gives back the bytes of the chunk. -/
theorem ensures_reclaim {r : Record} :
    Ensures build (a.reclaim h r) fun a' =>
      a' = a ∨ (a.counters.accountFree r.size).result build = .ok a'.counters := by
  rw [reclaim]
  refine .after fun acme => .after fun outside => ?_
  split
  · exact .after fun _ => .of_pure (.inl rfl)
  · cases a.config.poison with
    | none =>
        exact .after fun _ => .after fun _ => .after fun _ => .bind .self fun _ hcounters =>
          .after fun _ => .after fun _ => .of_pure (.inr hcounters)
    | some byte =>
        exact .after fun _ => .after fun _ => .after fun _ => .after fun _ =>
          .bind .self fun _ hcounters => .after fun _ => .after fun _ => .of_pure (.inr hcounters)

/-- Either nothing was freed, or the bytes of some chunk. -/
def Relinquishes (build : Build) (a a' : Arena) : Prop :=
  a'.counters = a.counters ∨ ∃ n, (a.counters.accountFree n).result build = .ok a'.counters

theorem ensures_reclaim_relinquishes {r : Record} :
    Ensures build (a.reclaim h r) (a.Relinquishes build) :=
  ensures_reclaim.mono fun _ hreclaim => hreclaim.imp (fun h => by rw [h]) fun h => ⟨r.size, h⟩

theorem ensures_free : Ensures build (a.free h) (a.Relinquishes build) := by
  rw [free]
  split
  · exact .after fun _ => .after fun _ => .of_pure (.inl rfl)
  · split
    · exact .of_pure (.inl rfl)
    · exact ensures_reclaim_relinquishes

theorem ensures_tryFree :
    Ensures build (a.tryFree h) fun p => a.Relinquishes build p.2 := by
  rw [tryFree]
  split
  · exact .of_pure (.inl rfl)
  · exact ensures_reclaim_relinquishes.bind fun _ h => .of_pure h

/-! ## Pinning and writing -/

theorem ensures_setState {state : ChunkState} :
    Ensures build (a.setState h state) fun a' => a'.counters = a.counters :=
  .after fun _ => .of_pure rfl

theorem ensures_pinRecord {r : Record} {state : ChunkState} :
    Ensures build (a.pinRecord h r state) fun p => p.2.counters = a.counters :=
  ensures_setState.bind fun _ ha' => .after fun _ => .after fun _ => .of_pure ha'

theorem ensures_pin {state : ChunkState} :
    Ensures build (a.pin h state) fun p => p.2.counters = a.counters := by
  rw [pin]
  split
  · exact .after fun _ => .after fun _ => .of_pure rfl
  · split
    · exact .after fun _ => .after fun _ => .after fun _ => .of_pure rfl
    · exact ensures_pinRecord.bind fun _ ha' => .of_pure ha'

theorem ensures_unlock : Ensures build (a.unlock h) fun a' => a'.counters = a.counters := by
  rw [unlock]
  split
  · exact .after fun _ => .after fun _ => .of_pure rfl
  · split
    · exact .after fun _ => .after fun _ => .of_pure rfl
    · exact ensures_setState

theorem ensures_tryPin {state : ChunkState} :
    Ensures build (a.tryPin h state) fun p => p.2.counters = a.counters := by
  rw [tryPin]
  split
  · exact .of_pure rfl
  · exact ensures_pinRecord.bind fun _ ha' => .of_pure ha'

theorem ensures_tryUnlock :
    Ensures build (a.tryUnlock h) fun p => p.2.counters = a.counters := by
  rw [tryUnlock]
  split
  · exact .of_pure rfl
  · exact ensures_setState.bind fun _ ha' => .of_pure ha'

theorem ensures_write {start : Nat} {bytes : ByteArray} :
    Ensures build (a.write h start bytes) fun
      | .ok a' => a'.counters = a.counters
      | .error _ => True := by
  rw [write]
  split
  · exact .of_pure trivial
  · refine .after fun _ => ?_
    split
    · exact .of_pure rfl
    · exact .of_pure trivial

/-! ## Compaction -/

theorem ensures_sortChain : Ensures build a.sortChain fun a' => a'.counters = a.counters :=
  .after fun _ => .after fun _ => .after fun _ => .of_pure rfl

theorem ensures_relinkAdjacent {job : Slide} {holeAddr : Nat} {rest : Option Handle} :
    Ensures build (a.relinkAdjacent job holeAddr rest) fun p =>
      a.counters.Folds build p.2.counters := by
  refine .after fun addr => .after ?_
  rintro (_ | ⟨hole, headers⟩)
  · exact .of_pure .refl
  · exact .of_pure .refl

theorem ensures_fold {job : Slide} {remainder : Nat} :
    Ensures build (a.fold job remainder) fun a' => a.counters.Folds build a'.counters := by
  rw [fold]
  dsimp only
  split
  · have hfolds : Ensures build (pure a.counters) (a.counters.Folds build) := .of_pure .refl
    refine hfolds.bind fun counters hcounters => ?_
    exact .after fun _ => .after fun _ => .after fun _ => .of_pure hcounters
  · refine .after fun _ => .bind .self fun counters hcounters => ?_
    exact .after fun _ => .after fun _ => .after fun _ => .of_pure (.fold .refl hcounters)

theorem ensures_relinkPast {job : Slide} {holeAddr vacatedAddr : Nat} {rest : Option Handle} :
    Ensures build (a.relinkPast job holeAddr vacatedAddr rest) fun p =>
      a.counters.Folds build p.2.counters := by
  rw [relinkPast]
  refine .after ?_
  rintro (_ | ⟨vacated, headers⟩)
  · exact .of_pure .refl
  · refine .after fun remainder => ?_
    dsimp only
    split
    · refine .after ?_
      rintro (_ | ⟨spare, headers'⟩)
      · exact ensures_fold.bind fun a' ha' => .of_pure ha'
      · exact .of_pure .refl
    · refine .after fun addr => .after ?_
      rintro (_ | ⟨spare, headers'⟩)
      · exact ensures_fold.bind fun a' ha' => .of_pure ha'
      · exact .of_pure .refl

theorem ensures_slide {job : Slide} :
    Ensures build (a.slide job) fun p => a.counters.Folds build p.2.counters := by
  rw [slide]
  refine .after fun _ => .after fun _ => .after fun distance => ?_
  split
  · exact .of_pure .refl
  · refine .after fun rest => .after fun ⟨headers, region⟩ => .after fun headers' => ?_
    dsimp only
    split
    · refine ensures_relinkAdjacent.bind ?_
      rintro ⟨violation | _, b⟩ hb
      · exact .of_pure hb
      · exact .after fun _ => .of_pure hb
    · refine ensures_relinkPast.bind ?_
      rintro ⟨violation | _, b⟩ hb
      · exact .of_pure hb
      · exact .after fun _ => .of_pure hb

theorem ensures_compactionPass {cursor : Option Handle} :
    Ensures build (a.compactionPass cursor) fun p => a.counters.Folds build p.2.counters := by
  refine .after ?_
  rintro (_ | cursor | job)
  · exact .of_pure .refl
  · exact .of_pure .refl
  · exact ensures_slide

theorem ensures_runPasses {budget limit : Nat} {clock : Readings} :
    Ensures build (runPasses budget clock limit a) fun p => a.counters.Folds build p.2.counters := by
  refine .loop (fun p => a.counters.Folds build p.arena.counters) (fun p hp => ?_) limit _ .refl
  rw [passInTime]
  split
  · exact .of_pure hp
  · refine ensures_compactionPass.bind ?_
    rintro ⟨violation | ⟨cursor, bytes⟩ | cursor | _, a'⟩ ha'
    · exact .after fun _ => .of_pure (hp.trans ha')
    · exact .after fun _ => .after fun _ => .of_pure (hp.trans ha')
    · exact .of_pure (hp.trans ha')
    · exact .of_pure (hp.trans ha')

theorem ensures_settle : Ensures build a.settle fun a' => a'.counters = a.counters := by
  rw [settle]
  refine .after fun ⟨ended, headers⟩ => ?_
  cases ended with
  | false => exact .after fun _ => .of_pure rfl
  | true =>
      exact .after fun _ => .after fun _ => .after fun _ => .after fun _ => .after fun _ =>
        .of_pure rfl

theorem ensures_compact {budget : Nat} {clock : Readings} :
    Ensures build (a.compact budget clock) fun p => ∃ counters, a.counters.Folds build counters ∧
      (counters.accountCompaction p.1.passes p.1.bytesMoved).result build = .ok p.2.counters := by
  rw [compact]
  refine ensures_sortChain.bind fun sorted hsorted => ensures_runPasses.bind ?_
  rintro ⟨report, b⟩ hb
  refine ensures_settle.bind fun c hc => .bind .self fun counters hcounters => ?_
  refine .after fun _ => .after fun _ => .of_pure ⟨b.counters, hsorted ▸ hb, ?_⟩
  rw [← hc]
  exact hcounters

theorem ensures_balances_compact {budget : Nat} {clock : Readings} :
    Ensures build (a.compact budget clock) fun p => a.counters.Balances 0 p.2.counters :=
  ensures_compact.mono fun _ ⟨_, hfolds, hcounters⟩ =>
    hfolds.balances.trans (Counters.ensures_accountCompaction _ hcounters)

end Arena

end CompactingArena
