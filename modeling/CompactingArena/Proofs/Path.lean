import Mathlib.Data.List.Nodup
import Mathlib.Logic.Relator
/-!
# Paths along links

The header chain, the free-record chain and the free lists are all followed in one way:
from a link to an element, and from there by the one link that the element has.  A path
that ends is determined by where it begins, and so it meets no element twice.  `Leads` is
for the part of a path between two links.
-/

namespace CompactingArena

variable {α : Type}

/-- The links from the given one on lead through the elements of a list, and end there. -/
def Path (next : α → Option α → Prop) : Option α → List α → Prop
  | link, [] => link = none
  | link, x :: l => link = some x ∧ ∃ following, next x following ∧ Path next following l

namespace Path

variable {next : α → Option α → Prop} {link : Option α} {l m : List α} {x : α}

theorem exists_next (h : Path next link l) (hx : x ∈ l) : ∃ following, next x following := by
  induction l generalizing link with
  | nil => exact absurd hx (by simp)
  | cons y l ih =>
      obtain ⟨-, following, hfollowing, hrest⟩ := h
      rcases List.mem_cons.mp hx with rfl | hx
      · exact ⟨following, hfollowing⟩
      · exact ih hrest hx

/-- From each of its elements on, the rest of a path is a path. -/
theorem exists_from (h : Path next link l) (hx : x ∈ l) :
    ∃ rest, Path next (some x) rest ∧ rest.length ≤ l.length := by
  induction l generalizing link with
  | nil => exact absurd hx (by simp)
  | cons y l ih =>
      rcases List.mem_cons.mp hx with rfl | hx
      · exact ⟨x :: l, ⟨rfl, h.2⟩, Nat.le_refl _⟩
      · obtain ⟨-, following, -, hrest⟩ := h
        obtain ⟨rest, hpath, hle⟩ := ih hrest hx
        exact ⟨rest, hpath, Nat.le_trans hle (Nat.le_succ _)⟩

section Determined

variable (hnext : Relator.RightUnique next)
include hnext

theorem unique (hl : Path next link l) (hm : Path next link m) : l = m := by
  induction l generalizing link m with
  | nil =>
      cases m with
      | nil => rfl
      | cons y m => exact absurd (hl.symm.trans hm.1) (by simp)
  | cons x l ih =>
      cases m with
      | nil => exact absurd (hm.symm.trans hl.1) (by simp)
      | cons y m =>
          obtain ⟨hx, following, hfollowing, hl⟩ := hl
          obtain ⟨hy, following', hfollowing', hm⟩ := hm
          obtain rfl : x = y := Option.some.inj (hx.symm.trans hy)
          obtain rfl := hnext hfollowing hfollowing'
          rw [ih hl hm]

/-- A path that came back to an element would run in a circle, and not end. -/
theorem nodup (h : Path next link l) : l.Nodup := by
  induction l generalizing link with
  | nil => exact List.nodup_nil
  | cons x l ih =>
      obtain ⟨hlink, following, hfollowing, hrest⟩ := h
      refine List.nodup_cons.mpr ⟨fun hx => ?_, ih hrest⟩
      obtain ⟨rest, hpath, hle⟩ := exists_from hrest hx
      have hself : Path next (some x) (x :: l) := ⟨rfl, following, hfollowing, hrest⟩
      rw [unique hnext hpath hself, List.length_cons] at hle
      omega

end Determined

end Path

/-- The links from the given one on lead through the elements of a list, and on to `stop`. -/
def Leads (next : α → Option α → Prop) : Option α → List α → Option α → Prop
  | link, [], stop => link = stop
  | link, x :: l, stop => link = some x ∧ ∃ following, next x following ∧ Leads next following l stop

section Leads

variable {next next' : α → Option α → Prop} {link stop : Option α} {l m : List α}

theorem leads_none : Leads next link l none ↔ Path next link l := by
  induction l generalizing link with
  | nil => exact Iff.rfl
  | cons x l ih => simp only [Leads, Path, ih]

theorem leads_append :
    Leads next link (l ++ m) stop ↔ ∃ mid, Leads next link l mid ∧ Leads next mid m stop := by
  induction l generalizing link with
  | nil => simp [Leads]
  | cons x l ih =>
      simp only [List.cons_append, Leads, ih]
      constructor
      · rintro ⟨hlink, following, hnext, mid, hl, hm⟩
        exact ⟨mid, ⟨hlink, following, hnext, hl⟩, hm⟩
      · rintro ⟨mid, ⟨hlink, following, hnext, hl⟩, hm⟩
        exact ⟨hlink, following, hnext, mid, hl, hm⟩

/-- Links elsewhere do not matter. -/
theorem Leads.congr (h : Leads next link l stop)
    (hsame : ∀ x ∈ l, ∀ following, next x following → next' x following) :
    Leads next' link l stop := by
  induction l generalizing link with
  | nil => exact h
  | cons x l ih =>
      have ⟨hlink, following, hnext, hrest⟩ := h
      exact ⟨hlink, following, hsame x (by simp) following hnext,
        ih hrest fun y hy => hsame y (by simp [hy])⟩

theorem Path.congr (h : Path next link l)
    (hsame : ∀ x ∈ l, ∀ following, next x following → next' x following) : Path next' link l :=
  leads_none.mp ((leads_none.mpr h).congr hsame)

theorem Path.link_eq (h : Path next link l) : link = l.head? := by
  cases l with
  | nil => exact h
  | cons x l => exact h.1

end Leads

end CompactingArena
