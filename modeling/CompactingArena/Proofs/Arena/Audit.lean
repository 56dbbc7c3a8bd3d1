import CompactingArena.Arena.Audit
import CompactingArena.Proofs.Arena.Invariant
import CompactingArena.Proofs.Sorting
/-!
# Orderly arenas pass the audit

Each check of `Arena.verify` reads a part of the layout off the arena and finds
in it what the invariant says, so a debug build never stops an orderly arena.
-/

namespace CompactingArena

open Layout

/-- The offsets of a chunk. -/
def Chunk.span (c : Chunk) : Span := ⟨c.addr, c.acme⟩

@[simp] theorem Chunk.span_base (c : Chunk) : c.span.base = c.addr := rfl

@[simp] theorem Chunk.span_acme (c : Chunk) : c.span.acme = c.acme := rfl

/-! ## Walks -/

section Walk

variable {t : HeaderTable} {region : Region} {β : Type} {visit : β → Handle → Act β}
  {l : List Chunk} {link : Option Handle} (hthreads : region.Threads link l none)
  (hsize : region.size ≤ Word.max) (hplaces : ∀ c ∈ l, t.Places region c)
include hthreads hsize hplaces

/-- A walk along a free list visits its chunks in order, and finds no fault with the
list. -/
theorem SizeClasses.walkFrom_eq_foldlM (step : β → Chunk → Act β)
    (hvisit : ∀ acc, ∀ c ∈ l, visit acc c.handle = step acc c) {limit : Nat}
    (hlimit : l.length ≤ limit) (acc : β) :
    walkFrom t region visit limit link acc = do
      let acc ← l.foldlM step acc
      return (acc, .ok ()) := by
  induction l generalizing link limit acc with
  | nil =>
      obtain rfl : link = none := hthreads
      cases limit <;> rfl
  | cons c l ih =>
      obtain ⟨rfl, howner, hrest⟩ := hthreads
      obtain ⟨limit, rfl⟩ : ∃ n, limit = n + 1 := ⟨limit - 1, by simp at hlimit; omega⟩
      rw [walkFrom, hvisit acc c (by simp), List.foldlM_cons, bind_assoc]
      refine bind_congr fun acc => ?_
      rw [nextOf_eq (hplaces c (by simp)) hsize howner, pure_bind]
      exact ih hrest (fun d hd => hplaces d (by simp [hd]))
        (fun acc d hd => hvisit acc d (by simp [hd])) (by simpa using hlimit) acc

theorem SizeClasses.walkFrom_eq (f : β → Chunk → β)
    (hvisit : ∀ acc, ∀ c ∈ l, visit acc c.handle = pure (f acc c)) {limit : Nat}
    (hlimit : l.length ≤ limit) (acc : β) :
    walkFrom t region visit limit link acc = pure (l.foldl f acc, .ok ()) := by
  rw [walkFrom_eq_foldlM hthreads hsize hplaces _ hvisit hlimit, List.foldlM_pure, pure_bind]

end Walk

namespace Arena

open Audit

variable {a : Arena} {chunks : List Chunk} {spare : List Handle} {build : Build}

/-! ## The header chain -/

theorem Laid.ofBaseSize_eq (hlaid : a.Laid chunks spare) {c : Chunk} (hc : c ∈ chunks) {r : Record}
    (hdesc : r.Describes c) : Span.ofBaseSize r.addr r.size = pure c.span := by
  have hacme := SizeClasses.acme_eq (hlaid.places hc) hdesc hlaid.size_le_max
  rw [Record.acme] at hacme
  rw [Span.ofBaseSize, hacme, pure_bind, hdesc.addr]
  rfl

theorem Laid.auditChain (hlaid : a.Laid chunks spare) {start : Option Handle} {l : List Chunk}
    (hlists : a.headers.Lists start l none) (hsub : ∀ c ∈ l, c ∈ chunks) {limit : Nat}
    (hlimit : l.length ≤ limit) :
    a.auditChain limit start = pure (l.map fun c => (c.span, c.isFree)) := by
  induction l generalizing start limit with
  | nil =>
      obtain rfl : start = none := hlists
      cases limit <;> rfl
  | cons c l ih =>
      obtain ⟨rfl, r, hget, hdesc, hrest⟩ := hlists
      obtain ⟨limit, rfl⟩ : ∃ n, limit = n + 1 := ⟨limit - 1, by simp at hlimit; omega⟩
      have hc : c ∈ chunks := hsub c (by simp)
      have hlive : a.headers.live? c.handle = some r :=
        hlaid.live?_eq_some_iff.mpr ⟨c, hc, rfl, hget, hdesc⟩
      have hnonempty : c.span.isEmpty = false := by
        have hpos := (hlaid.sized c hc).pos
        rw [Span.isEmpty, decide_eq_false_iff_not, Chunk.span_base, Chunk.span_acme, Chunk.acme]
        omega
      have hwithin : (Span.mk 0 a.memoryHigh).contains c.span = true := by
        have hle := hlaid.acme_le hc
        rw [Span.contains_iff]
        rintro offset ⟨-, hoffset⟩
        exact ⟨Nat.zero_le _, lt_of_lt_of_le hoffset hle⟩
      rw [Arena.auditChain, hlive]
      simp only [hlaid.ofBaseSize_eq hc hdesc, liftM_pure, pure_bind, hnonempty, hwithin,
        HeaderTable.next_eq hget]
      have hrest := ih hrest (fun d hd => hsub d (by simp [hd])) (by simpa using hlimit)
      rw [Bool.not_false, Bool.and_true, show ensure true (.outOfBounds r.addr) = pure () from rfl,
        pure_bind, hrest, pure_bind, List.map_cons, Chunk.isFree, hdesc.state]

theorem auditOverlap_eq {base top : Nat} {l : List Chunk} (h : Tiles base l top) :
    auditOverlap (l.map Chunk.span) = .ok () := by
  induction l generalizing base with
  | nil => rfl
  | cons c l ih =>
      cases l with
      | nil => rfl
      | cons d l =>
          have hapart : c.span.overlaps d.span = false := by
            have haddr : d.addr = c.acme := by
              rw [Chunk.acme, h.1]
              exact h.2.1
            rw [← Bool.not_eq_true, Span.overlaps_iff]
            rintro ⟨offset, ⟨-, hc⟩, hd, -⟩
            rw [Chunk.span_acme] at hc
            rw [Chunk.span_base] at hd
            omega
          have hrest := ih h.2
          rw [List.map_cons] at hrest
          rw [List.map_cons, List.map_cons, auditOverlap, hapart]
          exact hrest

theorem auditTiling_eq {base top : Nat} {l : List Chunk} (h : Tiles base l top) :
    auditTiling top base (l.map Chunk.span) = .ok () := by
  induction l generalizing base with
  | nil =>
      obtain rfl : base = top := h
      rw [List.map_nil, auditTiling, if_pos rfl]
      rfl
  | cons c l ih =>
      have hacme : c.acme = base + c.size := by
        rw [← h.1]
        rfl
      rw [List.map_cons, auditTiling, Chunk.span_base, if_pos h.1, Chunk.span_acme, hacme]
      exact ih h.2

/-- The spans, once they are sorted, are those of chunks that tile. -/
theorem Laid.exists_sorted_spans (hlaid : a.Laid chunks spare) :
    ∃ sorted, Tiles 0 sorted a.memoryHigh ∧
      Sorting.mergeSort (fun s t : Span => decide (s.base ≤ t.base)) (chunks.map Chunk.span) =
        sorted.map Chunk.span := by
  obtain ⟨sorted, hsorted, hperm, hascending⟩ :=
    Sorting.exists_mergeSort_map Span.base Chunk.span chunks
  refine ⟨sorted, (hlaid.fills.perm hperm.symm).tiles (fun c hc => ?_) hascending, hsorted⟩
  exact (hlaid.sized c (hperm.mem_iff.mp hc)).pos

/-! ## The free lists -/

/-- The number of free chunks of the classes below `k`. -/
def filedBelow (chunks : List Chunk) (k : Nat) : Nat :=
  (frees chunks).countP fun c => c.size.log2 < k

theorem filedBelow_succ (chunks : List Chunk) (k : Nat) :
    filedBelow chunks (k + 1) =
      filedBelow chunks k + ((frees chunks).filter fun c => c.size.log2 = k).length := by
  rw [filedBelow, filedBelow, ← List.countP_eq_length_filter]
  induction frees chunks with
  | nil => rfl
  | cons c l ih =>
      simp only [List.countP_cons, ih, decide_eq_true_eq]
      rcases Nat.lt_trichotomy c.size.log2 k with h | h | h
      · rw [if_pos (by omega), if_pos h, if_neg (by omega)]
        omega
      · rw [if_pos (by omega), if_neg (by omega), if_pos h]
        omega
      · rw [if_neg (by omega), if_neg (by omega), if_neg (by omega)]
        omega

/-- Whatever chunk is looked at, the audit only takes note. -/
theorem Laid.auditFiled (hlaid : a.Laid chunks spare) {c : Chunk} (hc : c ∈ chunks) (k : Nat)
    (soFar : FiledSoFar) : a.auditFiled k soFar c.handle = pure ⟨soFar.count + 1,
      if c.isFree = false then .error (.trailerMismatch c.handle)
      else if a.classes.classFor c.size ≠ k then .error (.sizeClassMismatch k c.size)
      else soFar.verdict⟩ := by
  obtain ⟨r, hget, hdesc⟩ := hlaid.chained.get hc
  have hstate : r.state.isFree = c.isFree := by rw [hdesc.state, Chunk.isFree]
  rw [Arena.auditFiled]
  simp only [HeaderTable.get_eq hget, pure_bind, hstate, hdesc.size,
    SizeClasses.classOf_eq (hlaid.sized c hc).pos, Bool.not_eq_true']
  split
  · rfl
  · split <;> rfl

theorem Orderly.walk (horderly : a.Orderly chunks spare) {k : Nat} (hk : k < a.classes.count) :
    a.classes.walk a.headers a.region (a.auditFiled k) k ⟨filedBelow chunks k, .ok ()⟩ =
      pure (⟨filedBelow chunks (k + 1), .ok ()⟩, .ok ()) := by
  obtain ⟨filed, hfiles, hexact⟩ := horderly.covers.filed
  obtain ⟨link, hlink, hthreads⟩ := hfiles.threads k hk
  have hmem : ∀ c ∈ filed k, c ∈ frees chunks ∧ c.size.log2 = k := fun c hc => hexact.mem_iff.mp hc
  have hplaces : ∀ c ∈ filed k, a.headers.Places a.region c := fun c hc =>
    horderly.places (mem_frees.mp (hmem c hc).1).1
  have hvisit : ∀ soFar, ∀ c ∈ filed k, a.auditFiled k soFar c.handle =
      pure ((fun (soFar : FiledSoFar) _ => { soFar with count := soFar.count + 1 }) soFar c) := by
    intro soFar c hc
    obtain ⟨hfiled, rfl⟩ := hmem c hc
    obtain ⟨hchunk, hfree⟩ := mem_frees.mp hfiled
    rw [horderly.toLaid.auditFiled hchunk, if_neg (by simp [hfree]),
      if_neg (not_not.mpr (horderly.covers.classFor_eq (hplaces c hc)))]
  have hfold : ∀ (l : List Chunk) n, l.foldl (fun (soFar : FiledSoFar) _ =>
      { soFar with count := soFar.count + 1 }) ⟨n, .ok ()⟩ = ⟨n + l.length, .ok ()⟩ := by
    intro l
    induction l with
    | nil => exact fun n => rfl
    | cons c l ih =>
        intro n
        rw [List.foldl_cons, ih, List.length_cons, Nat.add_right_comm, Nat.add_assoc]
  rw [SizeClasses.walk, SizeClasses.head_eq hlink, pure_bind,
    SizeClasses.walkFrom_eq hthreads horderly.size_le_max hplaces _ hvisit
      (horderly.length_filed_le hexact k), hfold, filedBelow_succ, (hexact k).length_eq]

theorem Orderly.auditClasses (horderly : a.Orderly chunks spare) (n k : Nat)
    (hk : k + n ≤ a.classes.count) :
    a.auditClasses (List.range' k n) (filedBelow chunks k) = pure (filedBelow chunks (k + n)) := by
  induction n generalizing k with
  | zero => rfl
  | succ n ih =>
      have hle : filedBelow chunks (k + 1) ≤ a.headers.capacity :=
        List.countP_le_length.trans horderly.length_frees_le
      rw [List.range'_succ, Arena.auditClasses, horderly.walk (by omega), liftM_pure, pure_bind]
      simp only [hle, decide_true]
      have hrest := ih (k + 1) (by omega)
      rw [show conclude (.ok ()) = (pure () : Audit Unit) from rfl, pure_bind, pure_bind,
        show ensure true .cycleDetected = pure () from rfl, pure_bind, hrest]
      congr 2
      omega

/-! ## The audit as a whole -/

theorem Laid.highestUsed (hlaid : a.Laid chunks spare) (htopped : a.Topped chunks) :
    a.highestUsed false = pure a.memoryHigh := by
  rw [Arena.highestUsed]
  rcases htopped with ⟨hhighest, rfl⟩ | ⟨c, hc, hhighest, hacme⟩
  · rw [hhighest, hlaid.fills.top_eq]
    rfl
  · obtain ⟨r, hget, hdesc⟩ := hlaid.chained.get hc
    simp only [hhighest, HeaderTable.get_eq hget, pure_bind, Bool.false_eq_true, if_false]
    rw [SizeClasses.acme_eq (hlaid.places hc) hdesc hlaid.size_le_max, hacme]

theorem Orderly.highestUsed (horderly : a.Orderly chunks spare) :
    a.highestUsed false = pure a.memoryHigh :=
  horderly.toLaid.highestUsed horderly.topped

/-- Of all that an audit looks at, only the free lists lie in the region. -/
theorem Laid.verify_eq (hlaid : a.Laid chunks spare) (htopped : a.Topped chunks) :
    a.verify = a.auditClasses (List.range a.classes.count) 0 >>= fun filed =>
      ensure (filed = (frees chunks).length) .conservation := by
  obtain ⟨sorted, htiles, hsorted⟩ := hlaid.exists_sorted_spans
  have hlow := hlaid.memoryHigh_le_low
  have hchain := hlaid.auditChain hlaid.chained (fun _ hc => hc) hlaid.length_le
  have hcount : (chunks.map fun c => (c.span, c.isFree)).countP (·.2) = (frees chunks).length := by
    rw [List.countP_map, List.countP_eq_length_filter]
    rfl
  have hspare : spare.length ≤ a.headers.capacity := by
    have h := hlaid.kept.length_eq
    omega
  have hrecycled := hlaid.kept.freeRecordList
  have hpartition : spare.length + chunks.length = a.headers.capacity := by
    have h := hlaid.kept.length_eq
    rw [length_handles] at h
    omega
  have hmodulus : a.region.size < Word.modulus :=
    Nat.lt_of_le_of_lt hlaid.size_le_max (by decide)
  have hroom : a.headers.footprint + a.memoryHigh ≤ a.region.size := by
    have h := hlaid.room
    omega
  have hensure : ∀ violation, ensure true violation = pure () := fun _ => rfl
  have hok : conclude (.ok ()) = (pure () : Audit Unit) := rfl
  rw [Arena.verify, hlaid.lowest_eq]
  simp only [liftM_pure, hlow, decide_true, hensure, pure_bind, hchain, List.map_map]
  rw [show (Prod.fst ∘ fun c : Chunk => (c.span, c.isFree)) = Chunk.span from rfl, hsorted,
    auditOverlap_eq htiles, auditTiling_eq htiles, hok]
  simp only [pure_bind, hcount, decide_true, hensure, hrecycled, hspare, List.length_map,
    hpartition, hlaid.highestUsed htopped, liftM_pure,
    Word.add_eq (Nat.lt_of_le_of_lt hroom hmodulus), hroom, bind_pure_unit]

/-- An orderly arena passes the audit. -/
theorem Orderly.verify (horderly : a.Orderly chunks spare) : a.verify = pure () := by
  have hclasses := horderly.auditClasses a.classes.count 0 (by omega)
  have hempty : filedBelow chunks 0 = 0 := by
    simp [filedBelow]
  have hall : filedBelow chunks (0 + a.classes.count) = (frees chunks).length := by
    rw [filedBelow, List.countP_eq_length]
    intro c hc
    rw [Nat.zero_add, decide_eq_true_eq]
    exact horderly.covers.log2_lt (horderly.places (mem_frees.mp hc).1)
  rw [hempty, hall, ← List.range_eq_range'] at hclasses
  rw [horderly.toLaid.verify_eq horderly.topped, hclasses, pure_bind, decide_eq_true rfl]
  rfl

/-- The check of debug builds finds nothing in an orderly arena. -/
theorem Orderly.selfCheck (horderly : a.Orderly chunks spare) : a.selfCheck.Yields () := by
  intro build
  rw [Arena.selfCheck, Act.result_bind_ok (a := build) rfl]
  cases build with
  | release => rfl
  | debug =>
      rw [horderly.verify]
      rfl

end Arena

end CompactingArena
