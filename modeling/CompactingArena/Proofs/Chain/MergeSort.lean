import CompactingArena.Chain.MergeSort
import CompactingArena.Proofs.Path
import CompactingArena.Proofs.Sorting.Sweeps
/-!
# Merging a chain in place

The cursors of a merge read links that the merge itself has yet to change.  What carries
the proof is that every element is either linked already or still to be taken: a link is
set only in the first kind, and followed only in the second.  So a merge of runs of the
chain is a merge of lists, whatever the comparison answers, and the sort is a sort of
lists.
-/

namespace CompactingArena.Chain

open Sorting

variable {σ ι : Type} [Linked σ ι]

/-- The link of an element. -/
def LinksTo (s : σ) (element : ι) (next : Option ι) : Prop := Linked.next? s element = some next

/-- `t` is `s` after links of some elements were set. -/
inductive Relinked (changed : List ι) (s : σ) : σ → Prop
  | refl : Relinked changed s s
  | setNext {t : σ} {element : ι} (h : Relinked changed s t) (helement : element ∈ changed)
      (next : Option ι) : Relinked changed s (Linked.setNext t element next)

/-- A comparison gives an answer, however the links of some elements are set. -/
def Answers (le : σ → ι → ι → Bool) (changed : List ι) (s : σ) (x y : ι) (answer : Bool) : Prop :=
  ∃ t, Relinked changed s t ∧ le t x y = answer

/-- The elements of `out` have been linked, those of `rest` are still to be taken, and
together they are those of `all`, which alone have been linked anew. -/
structure Building.Holds (s₀ : σ) (all : List ι) (b : Building σ ι) (out rest : List ι) : Prop where
  head : b.head = out.head?
  tail : b.tail = out.getLast?
  linked : ∃ stop, Leads (LinksTo b.storage) b.head out stop
  perm : (out ++ rest).Perm all
  relinked : Relinked all s₀ b.storage

/-- The left run has the elements `xs` left, and those from the right cursor on are `ws`. -/
structure Merging.Holds (s₀ : σ) (all : List ι) (m : Merging σ ι) (out xs ws : List ι) : Prop where
  merged : m.merged.Holds s₀ all out (xs ++ ws)
  left : ∃ stop, Leads (LinksTo m.merged.storage) m.left xs stop
  leftSize : m.leftSize = xs.length
  right : Path (LinksTo m.merged.storage) m.right ws

/-- The runs that are still to be merged have the elements `ws`. -/
structure Sweep.Holds (s₀ : σ) (all : List ι) (w : Sweep σ ι) (out ws : List ι) : Prop where
  merged : w.merged.Holds s₀ all out ws
  rest : Path (LinksTo w.merged.storage) w.rest ws

variable {s t s₀ : σ} {changed all out rest xs ws l : List ι} {x y : ι} {link : Option ι}
  {b : Building σ ι}

theorem next_eq {following : Option ι} (h : LinksTo s x following) : next s x = pure following := by
  rw [next, h]
  rfl

theorem rightUnique_linksTo (s : σ) : Relator.RightUnique (LinksTo (ι := ι) s) := fun _ _ _ h h' =>
  Option.some.inj (h.symm.trans h')

/-- The cursor passes a run, and stands at the first element after it. -/
theorem pass_eq (hpath : Path (LinksTo s) link l) (count : Nat) :
    pass s count link = pure ((l.take count).length, (l.drop count).head?) ∧
      Leads (LinksTo s) link (l.take count) (l.drop count).head? ∧
      Path (LinksTo s) (l.drop count).head? (l.drop count) := by
  induction count generalizing link l with
  | zero =>
      rw [List.drop_zero, ← hpath.link_eq]
      exact ⟨rfl, rfl, hpath⟩
  | succ count ih =>
      cases l with
      | nil =>
          obtain rfl : link = none := hpath
          exact ⟨rfl, rfl, rfl⟩
      | cons x l =>
          obtain ⟨rfl, following, hfollowing, hrest⟩ := hpath
          have ⟨hpass, hleads, hafter⟩ := ih hrest
          refine ⟨?_, ⟨rfl, following, hfollowing, hleads⟩, hafter⟩
          rw [pass, next_eq hfollowing, pure_bind, hpass]
          rfl

variable [DecidableEq ι] [LawfulLinked σ]

theorem LinksTo.setNext_other {following : Option ι} (h : LinksTo s y following) (hne : x ≠ y) :
    LinksTo (Linked.setNext s x link) y following := by
  rw [LinksTo, LawfulLinked.next?_setNext, if_neg hne]
  exact h

theorem LinksTo.setNext_self {following : Option ι} (h : LinksTo s x following) :
    LinksTo (Linked.setNext s x link) x link := by
  rw [LinksTo, LawfulLinked.next?_setNext, if_pos rfl, h]
  rfl

theorem Relinked.size_eq (h : Relinked changed s t) : Linked.size t = Linked.size s := by
  induction h with
  | refl => rfl
  | setNext _ _ _ ih => exact (LawfulLinked.size_setNext _ _ _).trans ih

theorem Relinked.next?_eq (h : Relinked changed s t) (hx : x ∉ changed) :
    Linked.next? t x = Linked.next? s x := by
  induction h with
  | refl => rfl
  | @setNext t element _ helement next ih =>
      have hne : element ≠ x := by
        rintro rfl
        exact hx helement
      rw [LawfulLinked.next?_setNext, if_neg hne, ih]

theorem length_le (hpath : Path (LinksTo s) link l) : l.length ≤ Linked.size s := by
  refine LawfulLinked.length_le s l (hpath.nodup (rightUnique_linksTo s)) fun x hx => ?_
  have ⟨following, hfollowing⟩ := hpath.exists_next hx
  rw [hfollowing]
  rfl

/-! ## The chain that is built -/

/-- Another link is set behind the last element. -/
theorem leads_setNext {stop : Option ι} (h : Leads (LinksTo s) link (l ++ [x]) stop)
    (hx : x ∉ l) (next : Option ι) :
    Leads (LinksTo (Linked.setNext s x next)) link (l ++ [x]) next := by
  have ⟨mid, hl, hmid, following, hfollowing, _⟩ := leads_append.mp h
  refine leads_append.mpr ⟨mid, hl.congr fun y hy n hn => hn.setNext_other ?_, hmid, next,
    hfollowing.setNext_self, rfl⟩
  rintro rfl
  exact hx hy

namespace Building.Holds

variable {rest' : List ι} {following : Option ι}

/-- The links of elements that are still to be taken stay. -/
theorem push_linksTo (h : b.Holds s₀ all out rest) (hx : LinksTo b.storage x following)
    (hmem : x ∉ out) : LinksTo (b.push y).storage x following := by
  rw [Building.push, h.tail]
  cases hlast : out.getLast? with
  | none => exact hx
  | some last =>
      refine hx.setNext_other ?_
      rintro rfl
      exact hmem (List.mem_of_getLast? hlast)

section

variable (h : b.Holds s₀ all out rest) (hall : all.Nodup)
include h hall

omit [DecidableEq ι] [LawfulLinked σ] in
theorem not_mem_of_mem (hx : x ∈ rest) : x ∉ out := fun hout =>
  List.disjoint_of_nodup_append (h.perm.nodup_iff.mpr hall) hout hx

/-- A link may be set behind the chain. -/
theorem leads_setNext {init : List ι} {last : ι} (hout : out = init ++ [last])
    (next : Option ι) :
    Leads (LinksTo (Linked.setNext b.storage last next)) b.head out next ∧
      Relinked all s₀ (Linked.setNext b.storage last next) := by
  subst hout
  have ⟨stop, hlinked⟩ := h.linked
  have hlast : last ∈ all := h.perm.mem_iff.mp (by simp)
  have hnodup := (List.nodup_append.mp (h.perm.nodup_iff.mpr hall)).1
  have hinit : last ∉ init := fun hmem => List.disjoint_of_nodup_append hnodup hmem (by simp)
  exact ⟨Chain.leads_setNext hlinked hinit next, h.relinked.setNext hlast next⟩

theorem push (hx : LinksTo b.storage x following) (hrest : rest.Perm (x :: rest')) :
    (b.push x).Holds s₀ all (out ++ [x]) rest' := by
  have hperm : (out ++ [x] ++ rest').Perm all := by
    rw [List.append_assoc]
    exact (hrest.symm.append_left out).trans h.perm
  have hfresh : x ∉ out := h.not_mem_of_mem hall (hrest.mem_iff.mpr (by simp))
  have hlink := h.push_linksTo (y := x) hx hfresh
  rcases out.eq_nil_or_concat' with hout | ⟨init, last, hout⟩
  · have hpush : b.push x = { b with head := some x, tail := some x } := by
      rw [Building.push, h.tail, hout]
      rfl
    rw [hpush, hout]
    exact ⟨rfl, rfl, ⟨following, rfl, following, hx, rfl⟩, hout ▸ hperm, h.relinked⟩
  · have hpush : b.push x = { b with
        storage := Linked.setNext b.storage last (some x), tail := some x } := by
      rw [Building.push, h.tail, hout, List.getLast?_concat]
    rw [hpush] at hlink ⊢
    have ⟨hleads, hrelinked⟩ := h.leads_setNext hall hout (some x)
    refine ⟨?_, List.getLast?_concat.symm, ⟨following, ?_⟩, hperm, hrelinked⟩
    · rw [h.head, hout]
      simp
    · exact leads_append.mpr ⟨some x, hleads, rfl, following, hlink, rfl⟩

/-- What was built is a chain once it is closed. -/
theorem close : Path (LinksTo b.close) out.head? out ∧ Relinked all s₀ b.close := by
  rcases out.eq_nil_or_concat' with hout | ⟨init, last, hout⟩
  · rw [Building.close, h.tail, hout]
    exact ⟨rfl, h.relinked⟩
  · rw [Building.close, h.tail, hout, List.getLast?_concat, ← hout]
    have ⟨hleads, hrelinked⟩ := h.leads_setNext hall hout none
    exact ⟨h.head ▸ leads_none.mp hleads, hrelinked⟩

end

end Building.Holds

/-! ## Merging two runs -/

namespace Merging.Holds

variable {le : σ → ι → ι → Bool} {m : Merging σ ι}

omit [DecidableEq ι] [LawfulLinked σ] in
theorem left_eq (h : m.Holds s₀ all out xs ws) :
    (if 0 < m.leftSize then m.left else none) = xs.head? := by
  have ⟨_, hleft⟩ := h.left
  rw [h.leftSize]
  cases xs with
  | nil => rfl
  | cons x xs => exact hleft.1

omit [DecidableEq ι] [LawfulLinked σ] in
theorem right_eq (h : m.Holds s₀ all out xs ws) :
    (if 0 < m.rightSize then m.right else none) = (ws.take m.rightSize).head? := by
  rw [h.right.link_eq]
  cases m.rightSize with
  | zero => rfl
  | succ n => rw [if_pos (Nat.succ_pos n), List.head?_take, if_neg (Nat.succ_ne_zero n)]

variable (le) in
omit [DecidableEq ι] [LawfulLinked σ] in
/-- The first element of a run is taken, unless the comparison of both first elements says
otherwise. -/
theorem taken_cases (h : m.Holds s₀ all out xs ws) :
    (m.taken? le = none ∧ xs = [] ∧ ws.take m.rightSize = []) ∨
      (∃ x xs', xs = x :: xs' ∧ m.taken? le = some x ∧
        ∀ y ∈ (ws.take m.rightSize).head?, le m.merged.storage x y = true) ∨
      ∃ y ws' n, ws = y :: ws' ∧ m.rightSize = n + 1 ∧ m.taken? le = some y ∧
        ∀ x ∈ xs.head?, le m.merged.storage x y = false := by
  rw [Merging.taken?, h.left_eq, h.right_eq]
  rcases xs with _ | ⟨x, xs⟩ <;> rcases hn : m.rightSize with _ | n <;> rcases ws with _ | ⟨y, ws⟩
  case cons.succ.cons => cases hle : le m.merged.storage x y <;> simp [hle]
  all_goals simp

variable (hall : all.Nodup)
include hall

theorem takeElement_left (h : m.Holds s₀ all out (x :: xs) ws) (htaken : m.taken? le = some x) :
    ∃ m', takeElement le m = pure (.next m') ∧ m'.rightSize = m.rightSize ∧
      m'.Holds s₀ all (out ++ [x]) xs ws := by
  have ⟨stop, hlink, following, hfollowing, hleft⟩ := h.left
  have hsize : 0 < m.leftSize := by
    rw [h.leftSize, List.length_cons]
    exact Nat.succ_pos _
  have hstay (y : ι) (hy : y ∈ xs ++ ws) (n : Option ι) (hn : LinksTo m.merged.storage y n) :
      LinksTo (m.merged.push x).storage y n :=
    h.merged.push_linksTo hn (h.merged.not_mem_of_mem hall (List.mem_cons_of_mem x hy))
  refine ⟨{ m with
    merged := m.merged.push x, left := following, leftSize := m.leftSize - 1 }, ?_, rfl,
    h.merged.push hall hfollowing (.refl _), ⟨stop, hleft.congr ?_⟩, ?_, h.right.congr ?_⟩
  · simp only [takeElement, htaken, next_eq hfollowing, pure_bind, if_pos (And.intro hlink hsize)]
  · exact fun y hy => hstay y (List.mem_append_left ws hy)
  · exact congrArg (· - 1) h.leftSize
  · exact fun y hy => hstay y (List.mem_append_right xs hy)

theorem takeElement_right (h : m.Holds s₀ all out xs (y :: ws)) (htaken : m.taken? le = some y) :
    ∃ m', takeElement le m = pure (.next m') ∧ m'.rightSize = m.rightSize - 1 ∧
      m'.Holds s₀ all (out ++ [y]) xs ws := by
  have ⟨stop, hleft⟩ := h.left
  have ⟨hlink, following, hfollowing, hright⟩ := h.right
  have hperm : (xs ++ y :: ws).Perm (y :: (xs ++ ws)) := List.perm_middle
  have hmem (z : ι) (hz : z ∈ xs ++ ws) : z ∈ xs ++ y :: ws :=
    hperm.mem_iff.mpr (List.mem_cons_of_mem y hz)
  have hstay (z : ι) (hz : z ∈ xs ++ ws) (n : Option ι) (hn : LinksTo m.merged.storage z n) :
      LinksTo (m.merged.push y).storage z n :=
    h.merged.push_linksTo hn (h.merged.not_mem_of_mem hall (hmem z hz))
  have hside : ¬(m.left = some y ∧ 0 < m.leftSize) := by
    rintro ⟨hleftlink, hsize⟩
    -- the right cursor would stand in the left run
    have hhead := h.left_eq
    rw [if_pos hsize, hleftlink] at hhead
    have hnodup := (List.nodup_append.mp (h.merged.perm.nodup_iff.mpr hall)).2.1
    exact List.disjoint_of_nodup_append hnodup (List.mem_of_head? hhead.symm) (by simp)
  refine ⟨{ m with
    merged := m.merged.push y, right := following, rightSize := m.rightSize - 1 }, ?_, rfl,
    h.merged.push hall hfollowing hperm, ⟨stop, hleft.congr ?_⟩, h.leftSize, hright.congr ?_⟩
  · simp only [takeElement, htaken, next_eq hfollowing, pure_bind, if_neg hside]
  · exact fun z hz => hstay z (List.mem_append_left ws hz)
  · exact fun z hz => hstay z (List.mem_append_right xs hz)

variable (le) in
/-- What is linked is a merge of the two runs. -/
theorem loop_takeElement (limit : Nat) (h : m.Holds s₀ all out xs ws)
    (hlimit : xs.length + m.rightSize < limit) :
    ∃ m' zs, Act.loop (takeElement le) limit m = pure m' ∧
      Merges (Answers le all s₀) xs (ws.take m.rightSize) zs ∧
      m'.merged.Holds s₀ all (out ++ zs) (ws.drop m.rightSize) ∧
      Path (LinksTo m'.merged.storage) m'.right (ws.drop m.rightSize) := by
  induction limit generalizing m out xs ws with
  | zero => exact absurd hlimit (Nat.not_lt_zero _)
  | succ limit ih =>
      rw [Act.loop_succ]
      rcases h.taken_cases le with ⟨htaken, rfl, hnone⟩ |
        ⟨x, xs, rfl, htaken, hfirst⟩ | ⟨y, ws, n, rfl, hn, htaken, hfirst⟩
      case inl =>
        have hws : ws.drop m.rightSize = ws := by
          have h := List.take_append_drop m.rightSize ws
          rwa [hnone, List.nil_append] at h
        rw [hnone, hws]
        refine ⟨m, [], ?_, .nil, ?_, h.right⟩
        · simp only [takeElement, htaken, pure_bind]
        · rw [List.append_nil]
          exact h.merged
      case inr.inl =>
        have ⟨m₁, hstep, hsize, h₁⟩ := h.takeElement_left hall htaken
        rw [List.length_cons] at hlimit
        have ⟨m', zs, hloop, hmerges, hmerged, hright⟩ := ih h₁ (by omega)
        rw [hsize] at hmerges hmerged hright
        rw [List.append_assoc] at hmerged
        refine ⟨m', x :: zs, ?_, .left (fun y hy => ?_) hmerges, hmerged, hright⟩
        · simpa only [hstep, pure_bind] using hloop
        · exact ⟨m.merged.storage, h.merged.relinked, hfirst y hy⟩
      case inr.inr =>
        have ⟨m₁, hstep, hsize, h₁⟩ := h.takeElement_right hall htaken
        have ⟨m', zs, hloop, hmerges, hmerged, hright⟩ := ih h₁ (by omega)
        rw [hsize, hn, Nat.add_sub_cancel] at hmerges hmerged hright
        rw [List.append_assoc] at hmerged
        rw [hn, List.take_succ_cons, List.drop_succ_cons]
        refine ⟨m', y :: zs, ?_, .right (fun x hx => ?_) hmerges, hmerged, hright⟩
        · simpa only [hstep, pure_bind] using hloop
        · exact ⟨m.merged.storage, h.merged.relinked, hfirst x hx⟩

end Merging.Holds

/-! ## Merging all runs of a size -/

namespace Sweep.Holds

variable (le : σ → ι → ι → Bool) {w : Sweep σ ι} (run : Nat) (hall : all.Nodup)
include hall

/-- The next two runs are merged, and linked behind what was linked before. -/
theorem mergePair_eq (h : w.Holds s₀ all out ws) (hne : ws ≠ []) :
    ∃ w' zs, mergePair le run w = pure (.next w') ∧ w'.merges = w.merges + 1 ∧
      Merges (Answers le all s₀) (ws.take run) ((ws.drop run).take run) zs ∧
      w'.Holds s₀ all (out ++ zs) ((ws.drop run).drop run) := by
  have ⟨x, ws', hws⟩ := List.exists_cons_of_ne_nil hne
  have hrest : w.rest = some x := by rw [h.rest.link_eq, hws]; rfl
  have ⟨hpass, hleft, hright⟩ := pass_eq (hrest ▸ h.rest) run
  have hruns : Merging.Holds s₀ all
      { merged := w.merged, left := some x, leftSize := (ws.take run).length,
        right := (ws.drop run).head?, rightSize := run } out (ws.take run) (ws.drop run) := by
    refine ⟨?_, ⟨_, hleft⟩, rfl, hright⟩
    rw [List.take_append_drop]
    exact h.merged
  have ⟨m, zs, hloop, hmerges, hmerged, hafter⟩ :=
    hruns.loop_takeElement le hall _ (Nat.lt_succ_self _)
  refine ⟨{ merged := m.merged, rest := m.right, merges := w.merges + 1 }, zs, ?_, rfl, hmerges,
    hmerged, hafter⟩
  simp only [mergePair, hrest, hpass, pure_bind, hloop]

theorem loop_mergePair (hrun : 0 < run) (limit : Nat) (h : w.Holds s₀ all out ws)
    (hlimit : ws.length < limit) :
    ∃ w' m n, Act.loop (mergePair le run) limit w = pure w' ∧ w'.merges = w.merges + n ∧
      Sweeps (Answers le all s₀) run ws m n ∧ w'.Holds s₀ all (out ++ m) [] := by
  induction limit generalizing w out ws with
  | zero => exact absurd hlimit (Nat.not_lt_zero _)
  | succ limit ih =>
      rw [Act.loop_succ]
      by_cases hne : ws = []
      · subst hne
        refine ⟨w, [], 0, ?_, rfl, .nil, ?_⟩
        · have hrest : w.rest = none := h.rest
          simp only [mergePair, hrest, pure_bind]
        · rwa [List.append_nil]
      · have ⟨w₁, zs, hstep, hcount, hmerges, h₁⟩ := h.mergePair_eq le run hall hne
        have hpos := List.length_pos_of_ne_nil hne
        have hless : ((ws.drop run).drop run).length < limit := by
          rw [List.length_drop, List.length_drop]
          omega
        have ⟨w', m, n, hloop, hcount', hsweeps, hw'⟩ := ih h₁ hless
        rw [List.append_assoc] at hw'
        refine ⟨w', zs ++ m, n + 1, ?_, ?_, .cons hne hmerges hsweeps, hw'⟩
        · simpa only [hstep, pure_bind] using hloop
        · rw [hcount', hcount, Nat.add_assoc, Nat.add_comm 1]

end Sweep.Holds

/-! ## The sort -/

/-- A chain of the elements of `all`, in some order, after links of them were set. -/
structure Presorted.Holds (s₀ : σ) (all : List ι) (c : Presorted σ ι) (l : List ι) : Prop where
  path : Path (LinksTo c.storage) c.head l
  perm : l.Perm all
  relinked : Relinked all s₀ c.storage

namespace Presorted.Holds

variable (le : σ → ι → ι → Bool) {c : Presorted σ ι} (hall : all.Nodup) (hrun : 0 < c.run)
include hall hrun

theorem sweep_eq (h : c.Holds s₀ all l) :
    ∃ t m n, sweep le c = pure (if 1 < n
        then .next { storage := t, head := m.head?, run := 2 * c.run } else .done (m.head?, t)) ∧
      Sweeps (Answers le all s₀) c.run l m n ∧ Path (LinksTo t) m.head? m ∧ m.Perm all ∧
      Relinked all s₀ t := by
  have hstart : Sweep.Holds s₀ all { merged := { storage := c.storage }, rest := c.head } [] l :=
    ⟨⟨rfl, rfl, ⟨none, rfl⟩, h.perm, h.relinked⟩, h.path⟩
  have hlength := Nat.lt_succ_of_le (length_le h.path)
  have ⟨w, m, n, hloop, hcount, hsweeps, hw⟩ := hstart.loop_mergePair le c.run hall hrun _ hlength
  rw [List.nil_append] at hw
  have ⟨hpath, hrelinked⟩ := hw.merged.close hall
  refine ⟨w.merged.close, m, n, ?_, hsweeps, hpath, hsweeps.perm.trans h.perm, hrelinked⟩
  obtain rfl : w.merges = n := hcount.trans (Nat.zero_add n)
  simp only [sweep, hloop, pure_bind, hw.merged.head]
  split <;> rfl

theorem loop_sweep (limit : Nat) (h : c.Holds s₀ all l) (hpos : 0 < limit)
    (hlimit : l.length < c.run + limit) :
    ∃ t m, Act.loop (sweep le) limit c = pure (m.head?, t) ∧ Sorts (Answers le all s₀) c.run l m ∧
      Path (LinksTo t) m.head? m ∧ Relinked all s₀ t := by
  induction limit generalizing c l with
  | zero => exact absurd hpos (Nat.lt_irrefl 0)
  | succ limit ih =>
      have ⟨t, m, n, hsweep, hsweeps, hpath, hperm, hrelinked⟩ := h.sweep_eq le hall hrun
      rw [Act.loop_succ, hsweep, pure_bind]
      by_cases hn : 1 < n
      · -- the runs stay shorter than the chain, and so they are not doubled too often
        have hlong := hsweeps.lt_length hn
        have hlength := hsweeps.perm.length_eq
        have hnext : Presorted.Holds s₀ all { storage := t, head := m.head?, run := 2 * c.run } m :=
          ⟨hpath, hperm, hrelinked⟩
        rw [if_pos hn]
        have hlimit' : m.length < 2 * c.run + limit := by omega
        have ⟨t', k, hloop, hsorts, hpath', hrelinked'⟩ :=
          ih (Nat.mul_pos Nat.two_pos hrun) hnext (by omega) hlimit'
        exact ⟨t', k, hloop, .more hsweeps hn hsorts, hpath', hrelinked'⟩
      · rw [if_neg hn]
        exact ⟨t, m, rfl, .last hsweeps (Nat.le_of_not_lt hn), hpath, hrelinked⟩

end Presorted.Holds

section MergeSort

variable (le : σ → ι → ι → Bool) {head : Option ι} (h : Path (LinksTo s) head l)
include h

/-- The sort of a chain is a sort of the list of its elements. -/
theorem exists_mergeSort_eq :
    ∃ t sorted, mergeSort le s head = pure (sorted.head?, t) ∧
      Sorts (Answers le l s) 1 l sorted ∧ Path (LinksTo t) sorted.head? sorted ∧ Relinked l s t := by
  have hstart : Presorted.Holds s l { storage := s, head, run := 1 } l := ⟨h, .refl _, .refl⟩
  have hlength := length_le h
  exact hstart.loop_sweep le (h.nodup (rightUnique_linksTo s)) Nat.one_pos _ (Nat.succ_pos _)
    (by omega)

/-- A chain that ends is sorted in place, whatever the comparison answers: its elements
are linked anew, each once, and no other link changes.  By an order they come in that
order, and those that tie stay as they were. -/
theorem mergeSort_sorts_in_place :
    ∃ t sorted, mergeSort le s head = pure (sorted.head?, t) ∧
      Path (LinksTo t) sorted.head? sorted ∧ sorted.Perm l ∧ sorted.Nodup ∧ Relinked l s t ∧
      Linked.size t = Linked.size s ∧
      (∀ element, element ∉ l → Linked.next? t element = Linked.next? s element) ∧
      ((∀ t, Relinked l s t → le t = le s) →
        (∀ x y z, le s x y = true → le s y z = true → le s x z = true) →
        (∀ x y, le s x y = true ∨ le s y x = true) →
        sorted.Pairwise (fun x y => le t x y = true) ∧
          ∀ x y, le s x y = true → le s y x = true → [x, y].Sublist l → [x, y].Sublist sorted) := by
  have ⟨t, sorted, heq, hsorts, hpath, hrelinked⟩ := exists_mergeSort_eq le h
  refine ⟨t, sorted, heq, hpath, hsorts.perm, hpath.nodup (rightUnique_linksTo t), hrelinked,
    hrelinked.size_eq, fun x hx => hrelinked.next?_eq hx, fun hle htrans htotal => ?_⟩
  have hpicks : ∀ x y b, Answers le l s x y b → le s x y = b := by
    rintro x y b ⟨t, ht, rfl⟩
    rw [hle t ht]
  have hruns := inRuns_one (le s) l
  refine ⟨?_, fun x y hxy hyx hbefore => ?_⟩
  · rw [hle t hrelinked]
    exact hsorts.sorted hpicks htrans htotal hruns
  · exact hsorts.stable hpicks htrans htotal hruns hxy hyx hbefore

end MergeSort

/-- Of four elements the even ones come first, and either kind in the order that it had. -/
theorem mergeSort_sorts_by_parity :
    let order : Nat → Nat → Bool := fun x y => decide (x % 2 ≤ y % 2)
    let links : Array (Option Nat) := #[some 3, some 0, none, some 2, some 1]
    ∃ t sorted, mergeSort (fun _ => order) links (some 1) = pure (sorted.head?, t) ∧
      Path (LinksTo t) sorted.head? sorted ∧ sorted.Perm [1, 0, 3, 2] ∧
      Linked.next? t 4 = some (some 1) ∧ sorted.Pairwise (fun x y => order x y = true) ∧
      [0, 2].Sublist sorted ∧ [1, 3].Sublist sorted := by
  intro order links
  have hpath : Path (LinksTo links) (some 1) [1, 0, 3, 2] :=
    ⟨rfl, _, rfl, rfl, _, rfl, rfl, _, rfl, rfl, _, rfl, rfl⟩
  have ⟨t, sorted, heq, hsorted, hperm, _, _, _, houtside, horder⟩ :=
    mergeSort_sorts_in_place (fun _ => order) hpath
  have htrans : ∀ x y z, order x y = true → order y z = true → order x z = true := by
    intro x y z hxy hyz
    exact decide_eq_true (Nat.le_trans (of_decide_eq_true hxy) (of_decide_eq_true hyz))
  have htotal : ∀ x y, order x y = true ∨ order y x = true := fun x y =>
    (Nat.le_total (x % 2) (y % 2)).imp decide_eq_true decide_eq_true
  have ⟨hpairwise, hties⟩ := horder (fun _ _ => rfl) htrans htotal
  exact ⟨t, sorted, heq, hsorted, hperm, houtside 4 (by decide), hpairwise,
    hties 0 2 rfl rfl (by decide), hties 1 3 rfl rfl (by decide)⟩

end CompactingArena.Chain
