import CompactingArena.Arena.Contents
import CompactingArena.Proofs.Arena.Audit
import CompactingArena.Proofs.Counters
/-!
# What statistics tell of a sound arena

The free lists of a sound arena hold every free chunk once, so a walk along all of
them combines the sizes of the free chunks, in some order.  A walk along the header
chain meets every chunk.  `Arena.Answers` sums up that a client may ask anything at
any time.
-/

namespace CompactingArena

open Layout

namespace Layout

/-- A list falls into those of its elements that have one key each. -/
theorem flatMap_filter_perm {α : Type} (key : α → Nat) (l : List α) (n : Nat) :
    ((List.range n).flatMap fun k => l.filter fun x => key x = k).Perm
      (l.filter fun x => key x < n) := by
  induction n with
  | zero => simp
  | succ n ih =>
      have hbelow : (l.filter fun x => key x < n + 1).filter (fun x => key x < n) =
          l.filter fun x => key x < n := by
        rw [List.filter_filter]
        apply List.filter_congr
        intro x _
        rw [Bool.eq_iff_iff]
        simp only [Bool.and_eq_true, decide_eq_true_eq]
        omega
      have htop : (l.filter fun x => key x < n + 1).filter (fun x => !decide (key x < n)) =
          l.filter fun x => key x = n := by
        rw [List.filter_filter]
        apply List.filter_congr
        intro x _
        rw [Bool.eq_iff_iff]
        simp only [Bool.and_eq_true, Bool.not_eq_true', decide_eq_true_eq, decide_eq_false_iff_not]
        omega
      rw [List.range_succ, List.flatMap_append, List.flatMap_singleton]
      refine (ih.append_right _).trans ?_
      rw [← hbelow, ← htop]
      exact List.filter_append_perm _ _

/-- The size of the largest chunk, or zero. -/
def largest (l : List Chunk) : Nat := l.foldl (fun largest c => max largest c.size) 0

theorem largest_perm {l m : List Chunk} (h : l.Perm m) : largest l = largest m := by
  apply h.foldl_eq'
  intro c _ d _ n
  rw [Nat.max_assoc, Nat.max_assoc, Nat.max_comm c.size]

theorem foldl_max_le_iff (f : Chunk → Nat) {l : List Chunk} {acc n : Nat} :
    l.foldl (fun most c => max most (f c)) acc ≤ n ↔ acc ≤ n ∧ ∀ c ∈ l, f c ≤ n := by
  induction l generalizing acc with
  | nil => simp
  | cons c l ih => rw [List.foldl_cons, ih, List.forall_mem_cons, Nat.max_le, and_assoc]

theorem largest_le_iff {l : List Chunk} {n : Nat} : largest l ≤ n ↔ ∀ c ∈ l, c.size ≤ n :=
  (foldl_max_le_iff Chunk.size).trans (and_iff_right (Nat.zero_le n))

/-- The numbers of the chunks in each state. -/
def tally (l : List Chunk) : BlockCounts where
  free := l.countP fun c => c.state = .free
  unlocked := l.countP fun c => c.state = .unlocked
  locked := l.countP fun c => c.state = .locked
  weakLocked := l.countP fun c => c.state = .weakLocked
  unlockedBytes := bytes (l.filter fun c => c.state = .unlocked)

/-- Every chunk is counted once, and those that are not free are in use. -/
theorem tally_partition (l : List Chunk) :
    (tally l).free = (frees l).length ∧
      (tally l).unlocked + (tally l).locked + (tally l).weakLocked = (used l).length := by
  induction l with
  | nil => exact ⟨rfl, rfl⟩
  | cons c l ih =>
      obtain ⟨hfree, hused⟩ := ih
      obtain ⟨handle, addr, size, state⟩ := c
      cases state <;>
        simp [tally, frees_cons, used_cons, Chunk.isFree, ChunkState.isFree] at hfree hused ⊢ <;> omega

theorem size_le_largest {l : List Chunk} {c : Chunk} (hc : c ∈ l) : c.size ≤ largest l :=
  largest_le_iff.mp (le_refl _) c hc

end Layout

theorem Word.foldlM_add {l : List Chunk} {acc : Nat} (h : acc + bytes l < modulus) :
    l.foldlM (fun acc c => add acc c.size) acc = pure (acc + bytes l) := by
  induction l generalizing acc with
  | nil => rfl
  | cons c l ih =>
      rw [bytes_cons] at h
      rw [List.foldlM_cons, add_eq (by omega), pure_bind, ih (by omega), bytes_cons, Nat.add_assoc]

namespace Arena

variable {a : Arena} {chunks : List Chunk} {spare : List Handle} {β : Type}

theorem foldFreeFrom_eq {f : β → Nat → Act β} {filed : Nat → List Chunk} {ks : List Nat}
    (hwalk : ∀ k ∈ ks, ∀ acc : β,
      a.classes.walk a.headers a.region (fun acc h => do f acc (← a.headers.get h).size) k acc = do
        let acc ← (filed k).foldlM (fun acc c => f acc c.size) acc
        return (acc, .ok ())) (acc : β) :
    a.foldFreeFrom f ks acc = (ks.flatMap filed).foldlM (fun acc c => f acc c.size) acc := by
  induction ks generalizing acc with
  | nil => rfl
  | cons k ks ih =>
      rw [foldFreeFrom, hwalk k (by simp), bind_assoc, List.flatMap_cons, List.foldlM_append]
      congr 1
      funext acc
      rw [pure_bind]
      exact ih (fun j hj => hwalk j (by simp [hj])) acc

/-- The free lists hold the free chunks in some order. -/
theorem Sound.foldFree (hsound : a.Sound chunks spare) :
    ∃ l : List Chunk, l.Perm (frees chunks) ∧ ∀ {β : Type} (f : β → Nat → Act β) (acc : β),
      a.foldFree f acc = l.foldlM (fun acc c => f acc c.size) acc := by
  obtain ⟨filed, hfiles, hexact⟩ := hsound.covers.filed
  refine ⟨(List.range a.classes.count).flatMap filed, ?_, fun f acc => foldFreeFrom_eq ?_ acc⟩
  · have hall : (frees chunks).filter (fun c => c.size.log2 < a.classes.count) = frees chunks :=
      List.filter_eq_self.mpr fun c hc =>
        decide_eq_true (hsound.covers.log2_lt (hsound.places (mem_frees.mp hc).1))
    have hkeys := flatMap_filter_perm (fun c : Chunk => c.size.log2) (frees chunks) a.classes.count
    rw [hall] at hkeys
    exact (List.Perm.flatMap_left _ fun k _ => hexact k).trans hkeys
  · intro k hk acc
    obtain ⟨link, hlink, hthreads⟩ := hfiles.threads k (List.mem_range.mp hk)
    have hplaces : ∀ c ∈ filed k, a.headers.Places a.region c := fun c hc =>
      hsound.places (mem_frees.mp (hexact.mem_iff.mp hc).1).1
    rw [SizeClasses.walk, SizeClasses.head_eq hlink, pure_bind]
    refine SizeClasses.walkFrom_eq_foldlM hthreads hsound.size_le_max hplaces _ ?_
      (hsound.length_filed_le hexact k) acc
    intro acc c hc
    obtain ⟨r, hget, hdesc⟩ := (hplaces c hc).record
    rw [HeaderTable.get_eq hget, pure_bind, hdesc.size]

/-- The bytes of the free chunks. -/
theorem Sound.totalFreeBytes (hsound : a.Sound chunks spare) :
    a.totalFreeBytes = pure (bytes (frees chunks)) := by
  obtain ⟨l, hperm, hfold⟩ := hsound.foldFree
  have hsum := bytes_frees_add_used chunks
  have htop := hsound.fills.top_eq
  have hbound := hsound.memoryHigh_le
  have hlimit := hsound.size_lt_modulus
  rw [Arena.totalFreeBytes, hfold, Word.foldlM_add (by rw [bytes_perm hperm]; omega), Nat.zero_add,
    bytes_perm hperm]

theorem Sound.largestFreeChunk (hsound : a.Sound chunks spare) :
    a.largestFreeChunk = pure (largest (frees chunks)) := by
  obtain ⟨l, hperm, hfold⟩ := hsound.foldFree
  rw [Arena.largestFreeChunk, hfold, List.foldlM_pure, ← largest_perm hperm]
  rfl

/-- A free chunk lies below the high-water mark. -/
theorem Laid.largest_le (hlaid : a.Laid chunks spare) :
    largest (frees chunks) ≤ a.memoryHigh :=
  largest_le_iff.mpr fun _ hc =>
    (Nat.le_add_left _ _).trans (hlaid.acme_le (mem_frees.mp hc).1)

/-- What is not free is accounted for. -/
theorem Sound.totalFreeBytes_eq_sub (hsound : a.Sound chunks spare) :
    a.totalFreeBytes = pure (a.memoryHigh - a.counters.allocatedBytes) := by
  have hsum := bytes_frees_add_used chunks
  have htop := hsound.fills.top_eq
  have haccounts := hsound.accounts.bytes
  rw [hsound.totalFreeBytes]
  congr 1
  omega

/-! ## The header chain -/

/-- The record of a chunk. -/
def recordOf (a : Arena) (c : Chunk) : Record := (a.headers.get? c.handle).getD .unused

theorem Laid.recordOf (hlaid : a.Laid chunks spare) {c : Chunk} (hc : c ∈ chunks) :
    a.headers.get? c.handle = some (a.recordOf c) ∧ (a.recordOf c).Describes c := by
  obtain ⟨r, hget, hdesc⟩ := hlaid.chained.get hc
  have hr : a.recordOf c = r := by rw [Arena.recordOf, hget, Option.getD_some]
  rw [hr]
  exact ⟨hget, hdesc⟩

theorem Laid.chunkRecords (hlaid : a.Laid chunks spare) :
    a.chunkRecords = pure (chunks.map a.recordOf) := by
  have hlength : (handles chunks).length ≤ a.headers.capacity := by
    rw [length_handles]
    exact hlaid.length_le
  have hchained : a.headers.chained = pure (handles chunks) := by
    rw [HeaderTable.chained, hlaid.chained.take, List.take_of_length_le hlength]
  rw [Arena.chunkRecords, hchained, pure_bind, recordsOf, handles, List.mapM_map]
  exact Act.mapM_eq fun c hc => HeaderTable.get_eq (hlaid.recordOf hc).1

theorem Laid.liveRecords (hlaid : a.Laid chunks spare) :
    a.liveRecords = pure ((used chunks).map a.recordOf) := by
  have hstate : ∀ c ∈ chunks, (!(a.recordOf c).state.isFree) = !c.isFree := fun c hc => by
    rw [(hlaid.recordOf hc).2.state, Chunk.isFree]
  rw [Arena.liveRecords, hlaid.chunkRecords, pure_bind, List.filter_map]
  exact congrArg (fun l : List Chunk => (pure (l.map a.recordOf) : Act (List Record)))
    (List.filter_congr hstate)

theorem Laid.liveChunkCount (hlaid : a.Laid chunks spare) :
    a.liveChunkCount = pure (used chunks).length := by
  rw [Arena.liveChunkCount, hlaid.liveRecords, pure_bind, List.length_map]

theorem Laid.liveChunks (hlaid : a.Laid chunks spare) :
    a.liveChunks = pure ((used chunks).map Chunk.span) := by
  rw [Arena.liveChunks, hlaid.liveRecords, pure_bind, List.mapM_map]
  apply Act.mapM_eq
  intro c hc
  have hmem := (mem_used.mp hc).1
  exact hlaid.ofBaseSize_eq hmem (hlaid.recordOf hmem).2

/-- The exact form of the highest used offset looks at every chunk in use. -/
theorem Laid.highestUsed_exact (hlaid : a.Laid chunks spare) :
    a.highestUsed true =
      pure ((used chunks).foldl (fun highest c => max highest c.acme) 0) := by
  rw [Arena.highestUsed, if_pos rfl, hlaid.liveChunks, pure_bind, List.foldl_map]
  rfl

theorem foldlM_count {l : List Chunk} (hrecords : ∀ c ∈ l, (a.recordOf c).Describes c)
    (before : List Chunk) (h : bytes before + bytes l < Word.modulus) :
    (l.map a.recordOf).foldlM BlockCounts.count (tally before) = pure (tally (before ++ l)) := by
  induction l generalizing before with
  | nil => rw [List.append_nil, List.map_nil, List.foldlM_nil]
  | cons c l ih =>
      have hdesc := hrecords c (by simp)
      have hunlocked : (tally before).unlockedBytes ≤ bytes before := bytes_filter_le _ _
      rw [bytes_cons] at h
      have hone : (tally before).count (a.recordOf c) = pure (tally (before ++ [c])) := by
        rw [BlockCounts.count, hdesc.state, hdesc.size]
        cases hstate : c.state with
        | unlocked =>
            rw [Word.add_eq (by omega), pure_bind]
            simp [tally, hstate]
        | free | locked | weakLocked => simp [tally, hstate]
      rw [List.map_cons, List.foldlM_cons, hone, pure_bind,
        ih (fun d hd => hrecords d (by simp [hd])) (before ++ [c]) (by simp; omega),
        List.append_assoc, List.singleton_append]

theorem Laid.blockCounts (hlaid : a.Laid chunks spare) : a.blockCounts = pure (tally chunks) := by
  have htop := hlaid.fills.top_eq
  have hbound := hlaid.memoryHigh_le
  have hlimit := hlaid.size_lt_modulus
  rw [Arena.blockCounts, hlaid.chunkRecords, pure_bind]
  exact foldlM_count (fun c hc => (hlaid.recordOf hc).2) [] (by rw [bytes_nil]; omega)

/-! ## Every question has an answer -/

/-- Whatever a client asks has an answer, which is the same in either build and not
worth a log record. -/
structure Answers (a : Arena) : Prop where
  chunk : ∀ h, ∃ contents, a.chunk h = pure contents
  totalFreeBytes : ∃ n, a.totalFreeBytes = pure n
  largestFreeChunk : ∃ n, a.largestFreeChunk = pure n
  highestUsed : ∀ exact, ∃ n, a.highestUsed exact = pure n
  liveChunkCount : ∃ n, a.liveChunkCount = pure n
  liveChunks : ∃ spans, a.liveChunks = pure spans
  blockCounts : ∃ counts, a.blockCounts = pure counts
  layoutMap : ∀ only, ∃ map, a.layoutMap only = pure map
  totalFreedBytes : ∃ n, a.counters.totalFreedBytes = pure n
  /-- The audit finds nothing. -/
  verify : a.verify = pure ()

theorem Laid.chunk (hlaid : a.Laid chunks spare) (h : Handle) :
    ∃ contents, a.chunk h = pure contents := by
  rw [Arena.chunk]
  cases hr : a.inUse? h with
  | none => exact ⟨none, rfl⟩
  | some r =>
      obtain ⟨c, hc, rfl, -, hdesc⟩ := hlaid.inUse?_eq_some_iff.mp hr
      have hbound := (hlaid.acme_le (mem_used.mp hc).1).trans hlaid.memoryHigh_le
      unfold Chunk.acme at hbound
      simp only [hdesc.addr, hdesc.size, Region.read_eq hbound, pure_bind]
      exact ⟨_, rfl⟩

theorem Sound.answers (hsound : a.Sound chunks spare) (hbacked : a.counters.Backed) :
    a.Answers where
  chunk := hsound.chunk
  totalFreeBytes := ⟨_, hsound.totalFreeBytes⟩
  largestFreeChunk := ⟨_, hsound.largestFreeChunk⟩
  highestUsed
    | true => ⟨_, hsound.highestUsed_exact⟩
    | false => ⟨_, hsound.highestUsed⟩
  liveChunkCount := ⟨_, hsound.liveChunkCount⟩
  liveChunks := ⟨_, hsound.liveChunks⟩
  blockCounts := ⟨_, hsound.blockCounts⟩
  layoutMap only := by
    rw [Arena.layoutMap, hsound.chunkRecords, pure_bind]
    exact ⟨_, rfl⟩
  totalFreedBytes := ⟨_, Word.sub_eq hbacked⟩
  verify := hsound.verify

end Arena

end CompactingArena
