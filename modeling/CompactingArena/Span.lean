import CompactingArena.Word
import CompactingArena.Text
/-!
# Spans

A span is a half-open range of offsets.  Spans whose end does not exceed their
base are empty, and all empty spans are equal to each other.
-/

namespace CompactingArena

/-- The offsets from `base` up to, and without, `acme`. -/
structure Span where
  base : Nat := 0
  acme : Nat := 0

namespace Span

def ofBaseSize (base size : Nat) : Act Span := do
  return ⟨base, ← Word.add base size⟩

def size (s : Span) : Nat := s.acme - s.base

def isEmpty (s : Span) : Bool := s.acme ≤ s.base

/-- Whether two spans are the same range; empty spans all are. -/
def same (s t : Span) : Bool :=
  s.isEmpty && t.isEmpty || s.base == t.base && s.acme == t.acme

instance : BEq Span := ⟨same⟩

/-- Whether `s` contains `t`; every span contains an empty one. -/
def contains (s t : Span) : Bool :=
  t.isEmpty || s.base ≤ t.base && t.acme ≤ s.acme

/-- Whether two spans share an offset. -/
def overlaps (s t : Span) : Bool :=
  !s.isEmpty && !t.isEmpty && s.base < t.acme && t.base < s.acme

def text (s : Span) : String :=
  Text.hex s.base ++ ".." ++ Text.hex s.acme

def Mem (s : Span) (offset : Nat) : Prop := s.base ≤ offset ∧ offset < s.acme

instance : Membership Nat Span := ⟨Mem⟩

theorem mem_def {s : Span} {offset : Nat} :
    offset ∈ s ↔ s.base ≤ offset ∧ offset < s.acme :=
  Iff.rfl

theorem overlaps_iff (s t : Span) :
    s.overlaps t = true ↔ ∃ offset, offset ∈ s ∧ offset ∈ t := by
  simp only [overlaps, isEmpty, Bool.and_eq_true, Bool.not_eq_true', decide_eq_true_eq,
    decide_eq_false_iff_not, mem_def]
  constructor
  · intro h
    exact ⟨max s.base t.base, by omega, by omega⟩
  · rintro ⟨offset, hs, ht⟩
    omega

theorem contains_iff (s t : Span) :
    s.contains t = true ↔ ∀ offset, offset ∈ t → offset ∈ s := by
  simp only [contains, isEmpty, Bool.or_eq_true, Bool.and_eq_true, decide_eq_true_eq, mem_def]
  constructor
  · intro h offset ht
    omega
  · intro h
    by_cases hempty : t.acme ≤ t.base
    · exact Or.inl hempty
    · have hbase := h t.base (by omega)
      have hlast := h (t.acme - 1) (by omega)
      omega

end Span

end CompactingArena
