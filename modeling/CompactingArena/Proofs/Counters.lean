import CompactingArena.Counters
import CompactingArena.Proofs.Act
/-!
# What the counters deliver

The two counters that follow the state never leave the range of words.  The
running totals may; `Counters.Crowded` says that one of them is about to.  A total
that does so wraps around in a release build, and has then gone down.
-/

namespace CompactingArena.Counters

open Act

variable {c c' c'' : Counters} {size n m : Nat}

/-- Some running total leaves the range of words when `n` is added to it. -/
def Crowded (c : Counters) (n : Nat) : Prop :=
  Word.modulus ≤ c.totalAllocationCount + n ∨ Word.modulus ≤ c.totalAllocatedBytes + n ∨
    Word.modulus ≤ c.freeListHits + n ∨ Word.modulus ≤ c.freeListBytes + n ∨
    Word.modulus ≤ c.compactionCount + n ∨ Word.modulus ≤ c.totalCompactionPasses + n ∨
    Word.modulus ≤ c.totalBytesMoved + n ∨ Word.modulus ≤ c.oomCount + n

/-- No running total has gone down. -/
def Ascends (c c' : Counters) : Prop :=
  c.totalAllocationCount ≤ c'.totalAllocationCount ∧
    c.totalAllocatedBytes ≤ c'.totalAllocatedBytes ∧
    c.freeListHits ≤ c'.freeListHits ∧ c.freeListBytes ≤ c'.freeListBytes ∧
    c.compactionCount ≤ c'.compactionCount ∧
    c.totalCompactionPasses ≤ c'.totalCompactionPasses ∧
    c.totalBytesMoved ≤ c'.totalBytesMoved ∧ c.oomCount ≤ c'.oomCount

instance : Decidable (c.Ascends c') :=
  inferInstanceAs (Decidable (_ ∧ _ ∧ _ ∧ _ ∧ _ ∧ _ ∧ _ ∧ _))

/-- Some running total has gone down, which takes a total that `n` is too much for. -/
def Wraps (c : Counters) (n : Nat) (c' : Counters) : Prop := c.Crowded n ∧ ¬c.Ascends c'

theorem not_wraps_self : ¬c.Wraps n c := fun h =>
  h.2 ⟨Nat.le_refl _, Nat.le_refl _, Nat.le_refl _, Nat.le_refl _, Nat.le_refl _, Nat.le_refl _,
    Nat.le_refl _, Nat.le_refl _⟩

/-- The bytes in use were allocated. -/
def Backed (c : Counters) : Prop := c.allocatedBytes ≤ c.totalAllocatedBytes

/-- As long as no total goes down, the bytes in use stay among those allocated. -/
def Backs (c c' : Counters) : Prop := c.Ascends c' → c.Backed → c'.Backed

/-- Bytes in use that do not become more stay among those allocated. -/
theorem Backs.of_le (hbytes : c'.allocatedBytes ≤ c.allocatedBytes)
    (htotal : c'.totalAllocatedBytes = c.totalAllocatedBytes) : c.Backs c' := by
  intro _ hbacked
  unfold Backed at hbacked ⊢
  omega

/-- A total as it stands after an addition; a release build lets it wrap around. -/
def Advanced (total amount total' : Nat) : Prop := total' = (total + amount) % Word.modulus

theorem agrees_total (total amount : Nat) :
    Agrees (Word.add total amount) (fun _ => Word.modulus ≤ total + amount)
      (Advanced total amount) :=
  Word.agrees_add total amount

theorem Advanced.lt {total amount total' : Nat} (h : Advanced total amount total')
    (hamount : amount < Word.modulus) (hover : Word.modulus ≤ total + amount) :
    total' < total := by
  have hpos : 0 < Word.modulus := by decide
  by_cases hlt : total < Word.modulus
  · have hmod : (total + amount) % Word.modulus = total + amount - Word.modulus := by
      rw [Nat.mod_eq_sub_mod hover]
      exact Nat.mod_eq_of_lt (by omega)
    rw [h, hmod]
    omega
  · rw [h]
    exact Nat.lt_of_lt_of_le (Nat.mod_lt _ hpos) (Nat.le_of_not_lt hlt)

/-- A total that has not gone down is the sum. -/
theorem Advanced.eq {total amount total' : Nat} (h : Advanced total amount total')
    (hamount : amount < Word.modulus) (hle : total ≤ total') : total' = total + amount := by
  by_cases hover : Word.modulus ≤ total + amount
  · exact absurd hle (Nat.not_le.mpr (h.lt hamount hover))
  · rw [h]
    exact Nat.mod_eq_of_lt (Nat.lt_of_not_le hover)

/-- The totals of all allocations are what they were before. -/
structure SameAllocated (before c : Counters) : Prop where
  count : c.totalAllocationCount = before.totalAllocationCount
  bytes : c.totalAllocatedBytes = before.totalAllocatedBytes

/-- The total that overflows, if one does, is also too large in earlier counters. -/
theorem agrees_accountAlloc {before : Counters} (hsame : before.SameAllocated c)
    (hcount : c.allocationCount + 1 < Word.modulus)
    (hbytes : c.allocatedBytes + size < Word.modulus) (hone : 1 ≤ n) (hsize : size ≤ n)
    (hn : n < Word.modulus) :
    Agrees (c.accountAlloc size) (before.Wraps n) fun c' =>
      (∃ count bytes, c' = { c with
        allocationCount := c.allocationCount + 1
        totalAllocationCount := count
        allocatedBytes := c.allocatedBytes + size
        totalAllocatedBytes := bytes }) ∧ c.Backs c' := by
  obtain ⟨hsamecount, hsamebytes⟩ := hsame
  rw [accountAlloc, Word.add_eq hcount, pure_bind, Word.add_eq hbytes, pure_bind]
  apply (agrees_total _ _).bind
  intro count hcount'
  apply (agrees_total _ _).bind
  intro bytes hbytes'
  refine .of_pure ⟨⟨⟨⟨count, bytes, rfl⟩, ?_⟩, fun hover => ⟨.inl (by omega), ?_⟩⟩,
    fun hover => ⟨.inr (.inl (by omega)), ?_⟩⟩
  · rintro ⟨-, hle, -⟩ hbacked
    have hsum := hbytes'.eq (Nat.lt_of_le_of_lt hsize hn) hle
    unfold Backed at hbacked ⊢
    simp only
    omega
  · rintro ⟨hle, -⟩
    rw [← hsamecount] at hle
    exact absurd (hcount'.lt (Nat.lt_of_le_of_lt hone hn) hover) (Nat.not_lt.mpr hle)
  · rintro ⟨-, hle, -⟩
    rw [← hsamebytes] at hle
    exact absurd (hbytes'.lt (Nat.lt_of_le_of_lt hsize hn) hover) (Nat.not_lt.mpr hle)

theorem agrees_accountReuse (hone : 1 ≤ n) (hsize : size ≤ n) (hn : n < Word.modulus) :
    Agrees (c.accountReuse size) (c.Wraps n) fun c' =>
      ∃ hits bytes, c' = { c with freeListHits := hits, freeListBytes := bytes } := by
  rw [accountReuse]
  apply (agrees_total _ _).bind
  intro hits hhits
  apply (agrees_total _ _).bind
  intro bytes hbytes
  refine .of_pure ⟨⟨⟨hits, bytes, rfl⟩, fun hover => ⟨.inr (.inr (.inl (by omega))), ?_⟩⟩,
    fun hover => ⟨.inr (.inr (.inr (.inl (by omega)))), ?_⟩⟩
  · rintro ⟨-, -, hle, -⟩
    exact absurd (hhits.lt (Nat.lt_of_le_of_lt hone hn) hover) (Nat.not_lt.mpr hle)
  · rintro ⟨-, -, -, hle, -⟩
    exact absurd (hbytes.lt (Nat.lt_of_le_of_lt hsize hn) hover) (Nat.not_lt.mpr hle)

theorem agrees_accountOom (hone : 1 ≤ n) (hn : n < Word.modulus) :
    Agrees c.accountOom (c.Wraps n) fun c' =>
      ∃ count, c' = { c with oomCount := count } := by
  rw [accountOom]
  apply (agrees_total _ _).bind
  intro count hcount
  refine .of_pure ⟨⟨count, rfl⟩, fun hover => ⟨by unfold Crowded; omega, ?_⟩⟩
  rintro ⟨-, -, -, -, -, -, -, hle⟩
  exact absurd (hcount.lt (Nat.lt_of_le_of_lt hone hn) hover) (Nat.not_lt.mpr hle)

/-! ## Release builds -/

/-- Whatever the counters hold, a release build goes on counting. -/
theorem ends_accountAlloc (c : Counters) (size : Nat) : Ends (c.accountAlloc size) fun _ => True :=
  (Word.ends_add _ _).bind fun _ _ _ => (Word.ends_add _ _).bind fun _ _ _ =>
    (Word.ends_add _ _).bind fun _ _ _ => (Word.ends_add _ _).bind fun _ _ _ => .of_pure trivial

theorem ends_accountFree (c : Counters) (size : Nat) : Ends (c.accountFree size) fun _ => True :=
  (Word.ends_sub _ _).bind fun _ _ _ => (Word.ends_sub _ _).bind fun _ _ _ => .of_pure trivial

theorem ends_accountReuse (c : Counters) (size : Nat) : Ends (c.accountReuse size) fun _ => True :=
  (Word.ends_add _ _).bind fun _ _ _ => (Word.ends_add _ _).bind fun _ _ _ => .of_pure trivial

theorem ends_accountFold (c : Counters) (size : Nat) : Ends (c.accountFold size) fun _ => True :=
  (Word.ends_add _ _).bind fun _ _ _ => (Word.ends_add _ _).bind fun _ _ _ => .of_pure trivial

theorem ends_accountCompaction (c : Counters) (passes moved : Nat) :
    Ends (c.accountCompaction passes moved) fun _ => True :=
  (Word.ends_add _ _).bind fun _ _ _ => (Word.ends_add _ _).bind fun _ _ _ =>
    (Word.ends_add _ _).bind fun _ _ _ => .of_pure trivial

theorem ends_accountOom (c : Counters) : Ends c.accountOom fun _ => True :=
  (Word.ends_add _ _).bind fun _ _ _ => .of_pure trivial

/-! ## The growth of chunks in use -/

/-- The counters after the chunks in use grew by `n` bytes. -/
def Grown (c : Counters) (n : Nat) (c' : Counters) : Prop :=
  n = 0 ∧ c' = c ∨ ∃ bytes, Advanced c.totalAllocatedBytes n bytes ∧
    c' = { c with allocatedBytes := c.allocatedBytes + n, totalAllocatedBytes := bytes }

/-- The chunks in use grew by more than their total can take. -/
def Overdrawn (c c' : Counters) : Prop :=
  c.allocatedBytes < c'.allocatedBytes ∧
    Word.modulus + c.allocatedBytes ≤ c.totalAllocatedBytes + c'.allocatedBytes

theorem agrees_accountFold (hsize : 0 < size) (hbytes : c.allocatedBytes + size < Word.modulus) :
    Agrees (c.accountFold size) c.Overdrawn (c.Grown size) := by
  rw [accountFold, Word.add_eq hbytes, pure_bind]
  apply (agrees_total _ _).bind
  intro bytes hbytes'
  refine .of_pure ⟨.inr ⟨bytes, hbytes', rfl⟩, fun hover => ⟨?_, ?_⟩⟩
  · simp only
    omega
  · simp only
    omega

theorem Grown.allocated (h : c.Grown n c') : c'.allocatedBytes = c.allocatedBytes + n := by
  rcases h with ⟨rfl, rfl⟩ | ⟨bytes, -, rfl⟩
  · rfl
  · rfl

theorem Grown.count (h : c.Grown n c') : c'.allocationCount = c.allocationCount := by
  rcases h with ⟨-, rfl⟩ | ⟨bytes, -, rfl⟩
  · rfl
  · rfl

theorem Grown.eq_with (h : c.Grown n c') : c' = { c with
    allocatedBytes := c'.allocatedBytes
    totalAllocatedBytes := c'.totalAllocatedBytes } := by
  rcases h with ⟨-, rfl⟩ | ⟨bytes, -, rfl⟩
  · rfl
  · rfl

theorem Grown.total_le (h : c.Grown n c') : c'.totalAllocatedBytes ≤ c.totalAllocatedBytes + n := by
  rcases h with ⟨-, rfl⟩ | ⟨bytes, hbytes, rfl⟩
  · exact Nat.le_add_right _ _
  · exact Nat.le_trans (Nat.le_of_eq hbytes) (Nat.mod_le _ _)

theorem Grown.trans (h : c.Grown n c') (h' : c'.Grown m c'') : c.Grown (n + m) c'' := by
  rcases h' with ⟨rfl, rfl⟩ | ⟨bytes', hbytes', rfl⟩
  · exact h
  · rcases h with ⟨rfl, rfl⟩ | ⟨bytes, hbytes, rfl⟩
    · rw [Nat.zero_add]
      exact .inr ⟨bytes', hbytes', rfl⟩
    · refine .inr ⟨bytes', ?_, ?_⟩
      · unfold Advanced at hbytes hbytes' ⊢
        rw [hbytes', hbytes, Nat.mod_add_mod, Nat.add_assoc]
      · rw [Nat.add_assoc]

theorem Overdrawn.trans_grown (h : c.Overdrawn c') (h' : c'.Grown n c'') : c.Overdrawn c'' := by
  have hallocated := h'.allocated
  unfold Overdrawn at h ⊢
  omega

theorem Grown.trans_overdrawn (h : c.Grown n c') (h' : c'.Overdrawn c'') : c.Overdrawn c'' := by
  have hallocated := h.allocated
  have htotal := h.total_le
  unfold Overdrawn at h' ⊢
  omega

/-- What has outgrown its total has made it go down. -/
theorem Grown.total_lt (h : c.Grown n c') (hn : n < Word.modulus) (hover : c.Overdrawn c') :
    c'.totalAllocatedBytes < c.totalAllocatedBytes := by
  have hallocated := h.allocated
  obtain ⟨hless, hover⟩ := hover
  rcases h with ⟨rfl, rfl⟩ | ⟨bytes, hbytes, rfl⟩
  · exact absurd hless (Nat.lt_irrefl _)
  · exact hbytes.lt hn (by omega)

theorem Grown.backed (h : c.Grown n c') (hn : n < Word.modulus)
    (hle : c.totalAllocatedBytes ≤ c'.totalAllocatedBytes) (hbacked : c.Backed) : c'.Backed := by
  rcases h with ⟨-, rfl⟩ | ⟨bytes, hbytes, rfl⟩
  · exact hbacked
  · have hsum := hbytes.eq hn hle
    unfold Backed at hbacked ⊢
    simp only
    omega

/-- A compaction ends, in which the chunks in use grew by `n` bytes. -/
theorem agrees_accountCompaction (h : c.Grown n c') {passes moved : Nat} (hn : n ≤ size)
    (hone : 1 ≤ size) (hpasses : passes ≤ size) (hmoved : moved ≤ size)
    (hsize : size < Word.modulus) :
    Agrees (c'.accountCompaction passes moved) (c.Wraps size) fun c'' =>
      (∃ count total bytes, c'' = { c' with
        compactionCount := count
        totalCompactionPasses := total
        totalBytesMoved := bytes }) ∧ (c.Overdrawn c' → c.Wraps size c'') ∧ c.Backs c'' := by
  have hwith := h.eq_with
  have hcount : c'.compactionCount = c.compactionCount := by rw [hwith]
  have htotal : c'.totalCompactionPasses = c.totalCompactionPasses := by rw [hwith]
  have hbytes : c'.totalBytesMoved = c.totalBytesMoved := by rw [hwith]
  rw [accountCompaction, hcount, htotal, hbytes]
  apply (agrees_total _ _).bind
  intro count hcount'
  apply (agrees_total _ _).bind
  intro total htotal'
  apply (agrees_total _ _).bind
  intro bytes hbytes'
  refine .of_pure ⟨⟨⟨⟨⟨count, total, bytes, rfl⟩, fun hover => ⟨.inr (.inl ?_), ?_⟩, ?_⟩,
    fun hover => ⟨by unfold Crowded; omega, ?_⟩⟩,
    fun hover => ⟨by unfold Crowded; omega, ?_⟩⟩, fun hover => ⟨by unfold Crowded; omega, ?_⟩⟩
  · have hallocated := h.allocated
    have hless := hover.2
    omega
  · rintro ⟨-, hle, -⟩
    exact absurd (h.total_lt (Nat.lt_of_le_of_lt hn hsize) hover) (Nat.not_lt.mpr hle)
  · rintro ⟨-, hle, -⟩ hbacked
    exact h.backed (Nat.lt_of_le_of_lt hn hsize) hle hbacked
  · rintro ⟨-, -, -, -, hle, -⟩
    exact absurd (hcount'.lt (Nat.lt_of_le_of_lt hone hsize) hover) (Nat.not_lt.mpr hle)
  · rintro ⟨-, -, -, -, -, hle, -⟩
    exact absurd (htotal'.lt (Nat.lt_of_le_of_lt hpasses hsize) hover) (Nat.not_lt.mpr hle)
  · rintro ⟨-, -, -, -, -, -, hle, -⟩
    exact absurd (hbytes'.lt (Nat.lt_of_le_of_lt hmoved hsize) hover) (Nat.not_lt.mpr hle)

end CompactingArena.Counters
