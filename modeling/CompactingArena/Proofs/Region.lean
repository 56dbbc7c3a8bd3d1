import CompactingArena.Region.Trailer
import Mathlib.Algebra.Order.Ring.Nat
import Mathlib.Data.List.Range
/-!
# Bytes and trailers

What the writes to a region change, stated byte by byte, and the round trip of a
trailer through the last bytes of a chunk.
-/

namespace CompactingArena

namespace Region

variable {r r' r'' : Region} {acme : Nat}

/-- A region differs from another at most at some offsets. -/
structure Changed (r r' : Region) (within : Nat → Prop) : Prop where
  size : r'.size = r.size
  byte : ∀ i, ¬within i → r'.byte i = r.byte i

theorem Changed.refl (r : Region) (within : Nat → Prop) : r.Changed r within :=
  ⟨rfl, fun _ _ => rfl⟩

theorem Changed.trans {within : Nat → Prop} (h : r.Changed r' within)
    (h' : r'.Changed r'' within) : r.Changed r'' within where
  size := h'.size.trans h.size
  byte i hi := by
    rw [h'.byte i hi, h.byte i hi]

theorem Changed.mono {within within' : Nat → Prop} (h : r.Changed r' within)
    (hwithin : ∀ i, within i → within' i) : r.Changed r' within' :=
  ⟨h.size, fun i hi => h.byte i fun hmem => hi (hwithin i hmem)⟩

theorem changed_overlay (r : Region) (offset : Nat) (bytes : ByteArray) :
    r.Changed (r.overlay offset bytes) fun i => offset ≤ i ∧ i < offset + bytes.size where
  size := rfl
  byte i hi := by
    rw [byte_overlay, if_neg hi]

theorem check_eq {offset length : Nat} (h : offset + length ≤ r.size) :
    r.check offset length = pure () :=
  if_pos h

theorem read_eq {offset length : Nat} (h : offset + length ≤ r.size) :
    r.read offset length = pure (r.view offset length) := by
  rw [read, check_eq h, pure_bind]

theorem fill_eq {offset length : Nat} (h : offset + length ≤ r.size) (byte : UInt8) :
    r.fill offset length byte = pure (r.overlay offset (repeated length byte)) := by
  rw [fill, check_eq h, pure_bind]

theorem copyWithin_eq {source target length : Nat} (hsource : source + length ≤ r.size)
    (htarget : target + length ≤ r.size) :
    r.copyWithin source target length =
      pure (r.overlay target (r.view source length)) := by
  rw [copyWithin, check_eq hsource, check_eq htarget, pure_bind, pure_bind]

/-- A copy moves the bytes of the source as they were, even if it overlaps the
target. -/
theorem byte_copied (r : Region) (source target length i : Nat) :
    (r.overlay target (r.view source length)).byte i =
      if target ≤ i ∧ i < target + length then r.byte (source + (i - target)) else r.byte i := by
  rw [byte_overlay, size_view]
  by_cases h : target ≤ i ∧ i < target + length
  · rw [if_pos h, if_pos h, getElem?_view _ _ _ _ (by omega)]
    rfl
  · rw [if_neg h, if_neg h]

/-! ## Trailers -/

/-- The trailer of the chunk that ends at `acme`. -/
def trailer (r : Region) (acme : Nat) : Trailer :=
  ⟨r.word (acme - Trailer.bytes), r.word (acme - Trailer.bytes + 8)⟩

/-- The offsets of the trailer of the chunk that ends at `acme`. -/
def InTrailer (acme i : Nat) : Prop := acme - Trailer.bytes ≤ i ∧ i < acme

theorem word_congr {offset : Nat} (h : ∀ i < 8, r'.byte (offset + i) = r.byte (offset + i)) :
    r'.word offset = r.word offset := by
  rw [word, word]
  exact congrArg _ (List.map_congr_left fun i hi => h i (List.mem_range.mp hi))

theorem trailer_congr (hlow : Trailer.bytes ≤ acme)
    (h : ∀ i, InTrailer acme i → r'.byte i = r.byte i) : r'.trailer acme = r.trailer acme := by
  have hbytes : Trailer.bytes = 16 := rfl
  rw [trailer, trailer,
    word_congr fun i hi => h _ ⟨by omega, by omega⟩,
    word_congr fun i hi => h _ ⟨by omega, by omega⟩]

theorem Changed.trailer {within : Nat → Prop} (h : r.Changed r' within)
    (hlow : Trailer.bytes ≤ acme) (hoff : ∀ i, InTrailer acme i → ¬within i) :
    r'.trailer acme = r.trailer acme :=
  trailer_congr hlow fun i hi => h.byte i (hoff i hi)

theorem ofLittleEndian_lt (bytes : List UInt8) : ofLittleEndian bytes < 256 ^ bytes.length := by
  induction bytes with
  | nil => simp [ofLittleEndian]
  | cons byte bytes ih =>
      have hbyte : byte.toNat < 256 := byte.toNat_lt
      rw [ofLittleEndian, List.length_cons, Nat.pow_succ]
      omega

theorem word_lt (r : Region) (offset : Nat) : r.word offset < Word.modulus := by
  have h := ofLittleEndian_lt ((List.range 8).map fun i => r.byte (offset + i))
  rw [List.length_map, List.length_range] at h
  exact h

theorem word_of_bytes {offset n : Nat} (hn : n < Word.modulus)
    (h : ∀ i < 8, r.byte (offset + i) = (littleEndian 8 n)[i]?.getD 0) : r.word offset = n := by
  have hbytes : ((List.range 8).map fun i => r.byte (offset + i)) = littleEndian 8 n := by
    apply List.ext_getElem?
    intro i
    by_cases hi : i < 8
    · have hlength : i < (littleEndian 8 n).length := by rwa [length_littleEndian]
      rw [List.getElem?_map, List.getElem?_range hi, Option.map_some, h i hi,
        List.getElem?_eq_getElem hlength, Option.getD_some]
    · rw [List.getElem?_eq_none (by simpa using hi),
        List.getElem?_eq_none (by simpa using hi)]
  rw [word, hbytes]
  apply ofLittleEndian_littleEndian
  rw [Nat.shiftRight_eq_div_pow]
  exact Nat.div_eq_of_lt hn

theorem readTrailer_eq (hlow : Trailer.bytes ≤ acme) (hhigh : acme ≤ r.size) :
    r.readTrailer acme = pure (r.trailer acme) := by
  rw [readTrailer, Word.sub_eq hlow, pure_bind, check_eq (by omega), pure_bind]
  rfl

/-- A trailer that was written is read back, and no other byte has changed. -/
theorem writeTrailer_eq (hlow : Trailer.bytes ≤ acme) (hhigh : acme ≤ r.size)
    (trailer : Trailer) (howner : trailer.owner < Word.modulus)
    (hnext : trailer.next < Word.modulus) :
    ∃ r', r.writeTrailer acme trailer = pure r' ∧ r.Changed r' (InTrailer acme) ∧
      r'.trailer acme = trailer := by
  set bytes := littleEndian 8 trailer.owner ++ littleEndian 8 trailer.next with hbytes
  have hlength : (ByteArray.mk bytes.toArray).size = Trailer.bytes := by
    change bytes.toArray.size = _
    rw [hbytes, List.size_toArray, List.length_append, length_littleEndian, length_littleEndian]
    rfl
  have hget (i : Nat) : (ByteArray.mk bytes.toArray)[i]? = bytes[i]? := by
    rw [getElem?_data, List.getElem?_toArray]
  have hsixteen : Trailer.bytes = 16 := rfl
  refine ⟨r.overlay (acme - Trailer.bytes) ⟨bytes.toArray⟩, ?_, ?_, ?_⟩
  · rw [writeTrailer, Word.sub_eq hlow, pure_bind, check_eq (by omega), pure_bind]
  · apply (changed_overlay r _ _).mono
    intro i hi
    rw [hlength] at hi
    exact ⟨hi.1, by omega⟩
  · have hfirst : ∀ i < 8, bytes[i]? = (littleEndian 8 trailer.owner)[i]? := by
      intro i hi
      rw [hbytes, List.getElem?_append_left (by rwa [length_littleEndian])]
    have hsecond : ∀ i < 8, bytes[8 + i]? = (littleEndian 8 trailer.next)[i]? := by
      intro i hi
      rw [hbytes, List.getElem?_append_right (by rw [length_littleEndian]; omega),
        length_littleEndian, Nat.add_sub_cancel_left]
    rw [Region.trailer, word_of_bytes howner, word_of_bytes hnext]
    · intro i hi
      rw [byte_overlay, hlength, if_pos (by omega), hget, ← hsecond i hi]
      congr 3
      omega
    · intro i hi
      rw [byte_overlay, hlength, if_pos (by omega), hget, ← hfirst i hi]
      congr 3
      omega

theorem writeTrailerNext_eq (hlow : Trailer.bytes ≤ acme) (hhigh : acme ≤ r.size) {next : Nat}
    (hnext : next < Word.modulus) :
    ∃ r', r.writeTrailerNext acme next = pure r' ∧ r.Changed r' (InTrailer acme) ∧
      r'.trailer acme = { r.trailer acme with next } := by
  rw [writeTrailerNext, readTrailer_eq hlow hhigh, pure_bind]
  exact writeTrailer_eq hlow hhigh _ (word_lt r _) hnext

end Region

theorem Handle.toWord_lt (link : Option Handle) : Handle.toWord link < Word.modulus :=
  Nat.lt_of_le_of_lt (Handle.toWord_le link) (by decide)

end CompactingArena
