import CompactingArena.Act
/-!
# Chains

A chain threads through storage whose elements carry one forward link each.  A
walk along a chain that returns to itself would never end; it is recognised by
visiting more elements than the storage has.
-/

namespace CompactingArena

/-- Storage of elements named by `ι`, each with one forward link. -/
class Linked (σ : Type) (ι : outParam Type) where
  size : σ → Nat
  /-- The link of an element, if there is such an element. -/
  next? : σ → ι → Option (Option ι)
  setNext : σ → ι → Option ι → σ

/-- Setting a link changes the link of that element and nothing else, and no more
elements have links than the storage has. -/
class LawfulLinked (σ : Type) {ι : Type} [DecidableEq ι] [Linked σ ι] : Prop where
  size_setNext (s : σ) (element : ι) (next : Option ι) :
    Linked.size (Linked.setNext s element next) = Linked.size s
  next?_setNext (s : σ) (element other : ι) (next : Option ι) :
    Linked.next? (Linked.setNext s element next) other =
      if element = other then (Linked.next? s other).map fun _ => next
      else Linked.next? s other
  length_le (s : σ) (l : List ι) : l.Nodup → (∀ element ∈ l, (Linked.next? s element).isSome) →
    l.length ≤ Linked.size s

/-- An array of links is the plainest storage. -/
instance : Linked (Array (Option Nat)) Nat where
  size := Array.size
  next? links element := links[element]?
  setNext links element next := links.setIfInBounds element next

instance : LawfulLinked (Array (Option Nat)) where
  size_setNext links element next := Array.size_setIfInBounds
  next?_setNext links element other next := by
    simp only [Linked.next?, Linked.setNext, Array.getElem?_setIfInBounds]
    by_cases h : element = other
    · subst h
      by_cases hlt : element < links.size <;> simp [hlt]
    · simp [h]
  length_le links l hnodup hsome := by
    have hsub : l ⊆ List.range links.size := fun element helement => by
      simpa [Linked.next?] using hsome element helement
    simpa [Linked.size] using hnodup.length_le_of_subset hsub

namespace Chain

variable {σ ι : Type} [Linked σ ι]

def next (s : σ) (element : ι) : Act (Option ι) :=
  Act.ofOption .index (Linked.next? s element)

/-- The elements from `start` on, of which there are at most `limit`. -/
def elements (s : σ) (limit : Nat) (start : Option ι) : Act (List ι) :=
  match start with
  | none => pure []
  | some element =>
      match limit with
      | 0 => Act.fail .endless
      | limit + 1 => do
          let rest ← elements s limit (← next s element)
          return element :: rest

def toList (s : σ) (head : Option ι) : Act (List ι) :=
  elements s (Linked.size s + 1) head

/-- The first `count` elements from `start` on, or all if there are fewer. -/
def take (s : σ) (count : Nat) (start : Option ι) : Act (List ι) :=
  match count, start with
  | 0, _ | _, none => pure []
  | count + 1, some element => do
      let rest ← take s count (← next s element)
      return element :: rest

/-- Links the elements of a list in order and clears the link of the last. -/
def relink (s : σ) : List ι → σ
  | [] => s
  | [last] => Linked.setNext s last none
  | element :: following :: rest =>
      relink (Linked.setNext s element (some following)) (following :: rest)

end Chain

end CompactingArena
