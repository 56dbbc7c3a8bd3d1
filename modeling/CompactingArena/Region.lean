import CompactingArena.Act
/-!
# Regions

A region is a range of bytes that starts out as zeros.  Only a prefix of the
bytes is stored: those beyond it are zero.  A region is therefore described by
its size and by the byte at each offset, and the main statement here is that a
write changes exactly the bytes it covers.
-/

namespace CompactingArena

structure Region where
  size : Nat
  /-- The stored prefix of the bytes. -/
  stored : ByteArray

namespace Region

def zeroed (size : Nat) : Region := ⟨size, .empty⟩

def byte (r : Region) (offset : Nat) : UInt8 := r.stored[offset]?.getD 0

/-- A run of equal bytes, built by doubling, in at most `depth` steps. -/
def doubled (byte : UInt8) : Nat → Nat → ByteArray
  | 0, _ => .empty
  | depth + 1, length =>
      if length = 0 then .empty
      else
        let half := doubled byte depth (length / 2)
        if length % 2 = 0 then half ++ half else (half ++ half).push byte

/-- A run of equal bytes. -/
def repeated (length : Nat) (byte : UInt8) : ByteArray := doubled byte length length

/-- The bytes of `r` with those from `offset` on replaced by `bytes`. -/
def overlay (r : Region) (offset : Nat) (bytes : ByteArray) : Region :=
  let reaching := r.stored ++ repeated (offset - r.stored.size) 0
  { r with stored := bytes.copySlice 0 reaching offset bytes.size }

def view (r : Region) (offset length : Nat) : ByteArray :=
  let bytes := r.stored.extract offset (offset + length)
  bytes ++ repeated (length - bytes.size) 0

/-- Checks that a range lies within the region. -/
def check (r : Region) (offset length : Nat) : Act Unit :=
  if offset + length ≤ r.size then pure ()
  else Act.fail (.outOfRegion offset length r.size)

def read (r : Region) (offset length : Nat) : Act ByteArray := do
  r.check offset length
  return r.view offset length

def write (r : Region) (offset : Nat) (bytes : ByteArray) : Act Region := do
  r.check offset bytes.size
  return r.overlay offset bytes

def fill (r : Region) (offset length : Nat) (byte : UInt8) : Act Region := do
  r.check offset length
  return r.overlay offset (repeated length byte)

/-- Copies `length` bytes from one offset to another; the ranges may overlap. -/
def copyWithin (r : Region) (source target length : Nat) : Act Region := do
  r.check source length
  r.check target length
  return r.overlay target (r.view source length)

/-! ## The byte view -/

private theorem data_doubled (byte : UInt8) (depth length : Nat) (h : length ≤ depth) :
    (doubled byte depth length).data = .replicate length byte := by
  induction depth generalizing length with
  | zero =>
      have hzero : length = 0 := by omega
      simp [hzero, doubled]
  | succ depth ih =>
      unfold doubled
      split
      · simp_all
      · have hhalf := ih (length / 2) (by omega)
        split
        · rw [ByteArray.data_append, hhalf, Array.replicate_append_replicate]
          exact congrArg (Array.replicate · byte) (by omega)
        · rw [ByteArray.data_push, ByteArray.data_append, hhalf,
            Array.replicate_append_replicate, ← Array.replicate_succ]
          exact congrArg (Array.replicate · byte) (by omega)

theorem data_repeated (length : Nat) (byte : UInt8) :
    (repeated length byte).data = .replicate length byte :=
  data_doubled byte length length (Nat.le_refl length)

@[simp] theorem size_repeated (length : Nat) (byte : UInt8) :
    (repeated length byte).size = length := by
  rw [← ByteArray.size_data, data_repeated, Array.size_replicate]

@[simp] theorem size_overlay (r : Region) (offset : Nat) (bytes : ByteArray) :
    (r.overlay offset bytes).size = r.size :=
  rfl

@[simp] theorem byte_zeroed (size offset : Nat) : (zeroed size).byte offset = 0 :=
  rfl

theorem getElem?_data (bytes : ByteArray) (i : Nat) : bytes[i]? = bytes.data[i]? := by
  by_cases h : i < bytes.size
  · rw [getElem?_pos bytes i h, getElem?_pos bytes.data i h]
    rfl
  · rw [getElem?_neg bytes i h, getElem?_neg bytes.data i h]

private theorem byte_eq (r : Region) (i : Nat) : r.byte i = r.stored.data[i]?.getD 0 := by
  rw [byte, getElem?_data]

/-- A write changes exactly the bytes it covers. -/
theorem byte_overlay (r : Region) (offset : Nat) (bytes : ByteArray) (i : Nat) :
    (r.overlay offset bytes).byte i =
      if offset ≤ i ∧ i < offset + bytes.size then bytes[i - offset]?.getD 0
      else r.byte i := by
  have hbytes : bytes.data.size = bytes.size := ByteArray.size_data
  have hstored : r.stored.data.size = r.stored.size := ByteArray.size_data
  rw [byte_eq, byte_eq, getElem?_data]
  have hreach : min offset (r.stored.size + (offset - r.stored.size)) = offset := by omega
  simp only [overlay, ByteArray.copySlice, data_repeated, ByteArray.data_append,
    Array.getElem?_append, Array.getElem?_extract, Array.size_append, Array.size_extract,
    Array.size_replicate, Array.getElem?_replicate, hbytes, hstored, hreach, Nat.sub_zero,
    Nat.zero_add, Nat.min_self]
  by_cases hlow : i < offset
  · simp only [show i < offset + bytes.size by omega, show ¬offset ≤ i by omega, hlow, if_true,
      if_false, false_and]
    split
    · rfl
    · rw [Array.getElem?_eq_none (show r.stored.data.size ≤ i by omega)]
      split <;> rfl
  · by_cases hwithin : i < offset + bytes.size
    · simp only [hwithin, hlow, if_true, if_false, show offset ≤ i by omega, and_self,
        show i - offset < bytes.size by omega]
    · simp only [hwithin, if_false, and_false,
        show offset + bytes.size + (i - (offset + bytes.size)) = i by omega]
      by_cases hkept : i < r.stored.size
      · rw [if_pos (by omega), if_pos hkept]
      · rw [Array.getElem?_eq_none (show r.stored.data.size ≤ i by omega),
          if_neg (by omega)]

theorem size_view (r : Region) (offset length : Nat) :
    (r.view offset length).size = length := by
  simp only [view, ByteArray.size_append, size_repeated, ByteArray.size_extract]
  omega

theorem getElem?_view (r : Region) (offset length i : Nat) (h : i < length) :
    (r.view offset length)[i]? = some (r.byte (offset + i)) := by
  have hstored : r.stored.data.size = r.stored.size := ByteArray.size_data
  rw [byte_eq, getElem?_data]
  simp only [view, data_repeated, ByteArray.data_append, ByteArray.data_extract,
    ByteArray.size_extract, Array.getElem?_append, Array.getElem?_extract, Array.size_extract,
    Array.getElem?_replicate, hstored]
  split
  · rw [Array.getElem?_eq_getElem (by omega)]
    rfl
  · rw [if_pos (by omega), Array.getElem?_eq_none (by omega)]
    rfl

end Region

end CompactingArena
