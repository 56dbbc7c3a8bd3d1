import CompactingArena.Region.Trailer
import CompactingArena.HeaderTable
import CompactingArena.Word.Rounding
import Mathlib.Algebra.Order.BigOperators.Group.List
import Mathlib.Algebra.Order.Monoid.Canonical.Basic
import Mathlib.Algebra.Order.Ring.Nat
import Mathlib.Data.List.Nodup
import Mathlib.Data.List.Pairwise
import Mathlib.Tactic.Tauto
/-!
# Layouts

A layout is the list of the chunks that a header chain describes.  `Tiles` says
that chunks in ascending order cover a range of offsets without gap or overlap;
`Fills` says the same of a layout in any order.
-/

namespace CompactingArena

/-- A chunk together with the handle of its record. -/
structure Chunk where
  handle : Handle
  addr : Nat
  size : Nat
  state : ChunkState
deriving DecidableEq

namespace Chunk

/-- The end of a chunk. -/
def acme (c : Chunk) : Nat := c.addr + c.size

def isFree (c : Chunk) : Bool := c.state.isFree

/-- The chunk `distance` bytes further down. -/
def lowered (distance : Nat) (c : Chunk) : Chunk := { c with addr := c.addr - distance }

/-- The chunk in another state. -/
def inState (state : ChunkState) (c : Chunk) : Chunk := { c with state }

/-- An offset lies in a chunk. -/
def Holds (c : Chunk) (i : Nat) : Prop := c.addr ≤ i ∧ i < c.acme

/-- The least size of a chunk, and the alignment of all sizes. -/
def Sized (c : Chunk) : Prop := Trailer.bytes ≤ c.size ∧ c.size % Word.alignment = 0

@[simp] theorem lowered_handle (d : Nat) (c : Chunk) : (c.lowered d).handle = c.handle := rfl

@[simp] theorem lowered_size (d : Nat) (c : Chunk) : (c.lowered d).size = c.size := rfl

@[simp] theorem lowered_state (d : Nat) (c : Chunk) : (c.lowered d).state = c.state := rfl

@[simp] theorem lowered_addr (d : Nat) (c : Chunk) : (c.lowered d).addr = c.addr - d := rfl

@[simp] theorem lowered_isFree (d : Nat) (c : Chunk) : (c.lowered d).isFree = c.isFree := rfl

@[simp] theorem inState_handle (s : ChunkState) (c : Chunk) :
    (c.inState s).handle = c.handle := rfl

@[simp] theorem inState_addr (s : ChunkState) (c : Chunk) : (c.inState s).addr = c.addr := rfl

@[simp] theorem inState_size (s : ChunkState) (c : Chunk) : (c.inState s).size = c.size := rfl

@[simp] theorem inState_state (s : ChunkState) (c : Chunk) : (c.inState s).state = s := rfl

@[simp] theorem inState_acme (s : ChunkState) (c : Chunk) : (c.inState s).acme = c.acme := rfl

@[simp] theorem inState_isFree (s : ChunkState) (c : Chunk) :
    (c.inState s).isFree = s.isFree := rfl

theorem isFree_iff (c : Chunk) : c.isFree = true ↔ c.state = .free :=
  c.state.isFree_iff

theorem Sized.pos {c : Chunk} (h : c.Sized) : 0 < c.size :=
  lt_of_lt_of_le (by decide) h.1

end Chunk

namespace Layout

/-- The bytes of all chunks. -/
def bytes (l : List Chunk) : Nat := (l.map Chunk.size).sum

/-- The handles of all chunks. -/
def handles (l : List Chunk) : List Handle := l.map Chunk.handle

@[simp] theorem bytes_nil : bytes [] = 0 := rfl

@[simp] theorem bytes_cons (c : Chunk) (l : List Chunk) : bytes (c :: l) = c.size + bytes l := by
  simp [bytes]

@[simp] theorem bytes_append (l m : List Chunk) : bytes (l ++ m) = bytes l + bytes m := by
  simp [bytes]

@[simp] theorem bytes_lowered (d : Nat) (l : List Chunk) :
    bytes (l.map (Chunk.lowered d)) = bytes l := by
  simp [bytes, Function.comp_def]

theorem bytes_perm {l m : List Chunk} (h : l.Perm m) : bytes l = bytes m :=
  (h.map _).sum_eq

theorem bytes_subperm {l m : List Chunk} (h : l.Subperm m) : bytes l ≤ bytes m := by
  obtain ⟨k, hperm, hsub⟩ := h
  rw [← bytes_perm hperm]
  exact (hsub.map _).sum_le_sum fun _ _ => Nat.zero_le _

theorem size_le_bytes {l : List Chunk} {c : Chunk} (h : c ∈ l) : c.size ≤ bytes l :=
  List.le_sum_of_mem (List.mem_map_of_mem h)

@[simp] theorem handles_nil : handles [] = [] := rfl

@[simp] theorem handles_cons (c : Chunk) (l : List Chunk) :
    handles (c :: l) = c.handle :: handles l := rfl

@[simp] theorem handles_append (l m : List Chunk) :
    handles (l ++ m) = handles l ++ handles m := by
  simp [handles]

@[simp] theorem handles_lowered (d : Nat) (l : List Chunk) :
    handles (l.map (Chunk.lowered d)) = handles l := by
  simp [handles, Function.comp_def]

@[simp] theorem length_handles (l : List Chunk) : (handles l).length = l.length := by
  simp [handles]

theorem mem_handles {l : List Chunk} {h : Handle} :
    h ∈ handles l ↔ ∃ c ∈ l, c.handle = h := by
  simp [handles]

theorem handle_mem {l : List Chunk} {c : Chunk} (h : c ∈ l) : c.handle ∈ handles l :=
  List.mem_map_of_mem h

theorem nodup_handles_middle {l m : List Chunk} {c : Chunk} :
    (handles (l ++ c :: m)).Nodup ↔ c.handle ∉ handles (l ++ m) ∧ (handles (l ++ m)).Nodup := by
  rw [handles_append, handles_cons, List.perm_middle.nodup_iff, List.nodup_cons, handles_append]

/-- A chunk is determined by its handle. -/
theorem eq_of_handle_eq {l : List Chunk} (hnodup : (handles l).Nodup) {c d : Chunk}
    (hc : c ∈ l) (hd : d ∈ l) (h : c.handle = d.handle) : c = d :=
  List.inj_on_of_nodup_map hnodup hc hd h

def frees (l : List Chunk) : List Chunk := l.filter Chunk.isFree

def used (l : List Chunk) : List Chunk := l.filter fun c => !c.isFree

@[simp] theorem frees_append (l m : List Chunk) : frees (l ++ m) = frees l ++ frees m :=
  List.filter_append l m

@[simp] theorem used_append (l m : List Chunk) : used (l ++ m) = used l ++ used m :=
  List.filter_append l m

theorem frees_cons (c : Chunk) (l : List Chunk) :
    frees (c :: l) = if c.isFree then c :: frees l else frees l :=
  List.filter_cons

theorem used_cons (c : Chunk) (l : List Chunk) :
    used (c :: l) = if c.isFree then used l else c :: used l := by
  rw [used, List.filter_cons]
  cases c.isFree <;> rfl

theorem mem_frees {l : List Chunk} {c : Chunk} : c ∈ frees l ↔ c ∈ l ∧ c.isFree = true :=
  List.mem_filter

theorem mem_used {l : List Chunk} {c : Chunk} : c ∈ used l ↔ c ∈ l ∧ c.isFree = false := by
  rw [used, List.mem_filter, Bool.not_eq_true']

theorem frees_perm {l m : List Chunk} (h : l.Perm m) : (frees l).Perm (frees m) := h.filter _

theorem used_perm {l m : List Chunk} (h : l.Perm m) : (used l).Perm (used m) := h.filter _

theorem bytes_frees_add_used (l : List Chunk) : bytes (frees l) + bytes (used l) = bytes l := by
  induction l with
  | nil => rfl
  | cons c l ih =>
      rw [frees_cons, used_cons, bytes_cons]
      split <;> rw [bytes_cons] <;> omega

theorem bytes_filter_le (p : Chunk → Bool) (l : List Chunk) : bytes (l.filter p) ≤ bytes l :=
  (List.filter_sublist.map _).sum_le_sum fun _ _ => Nat.zero_le _

theorem bytes_used_le (l : List Chunk) : bytes (used l) ≤ bytes l := bytes_filter_le _ l

/-- The chunks follow one another from `base` to `top` without a gap. -/
def Tiles : Nat → List Chunk → Nat → Prop
  | base, [], top => base = top
  | base, c :: l, top => c.addr = base ∧ Tiles (base + c.size) l top

/-- The chunks, brought into the right order, tile the offsets below `top`. -/
def Fills (l : List Chunk) (top : Nat) : Prop := ∃ sorted, sorted.Perm l ∧ Tiles 0 sorted top

@[simp] theorem tiles_nil {base top : Nat} : Tiles base [] top ↔ base = top := Iff.rfl

@[simp] theorem tiles_cons {base top : Nat} {c : Chunk} {l : List Chunk} :
    Tiles base (c :: l) top ↔ c.addr = base ∧ Tiles (base + c.size) l top := Iff.rfl

theorem Tiles.top_eq {base top : Nat} {l : List Chunk} (h : Tiles base l top) :
    top = base + bytes l := by
  induction l generalizing base with
  | nil => simpa using h.symm
  | cons c l ih =>
      rw [bytes_cons, ih h.2]
      omega

theorem tiles_append {base top : Nat} {l m : List Chunk} :
    Tiles base (l ++ m) top ↔ Tiles base l (base + bytes l) ∧ Tiles (base + bytes l) m top := by
  induction l generalizing base with
  | nil => simp
  | cons c l ih =>
      simp only [List.cons_append, tiles_cons, ih, bytes_cons, Nat.add_assoc]
      tauto

/-- A chunk lies within the tiled range. -/
theorem Tiles.bounds {base top : Nat} {l : List Chunk} (h : Tiles base l top) {c : Chunk}
    (hc : c ∈ l) : base ≤ c.addr ∧ c.acme ≤ top := by
  obtain ⟨before, after, rfl⟩ := List.append_of_mem hc
  rw [tiles_append, tiles_cons] at h
  have htop := h.2.2.top_eq
  have haddr := h.2.1
  simp only [Chunk.acme]
  omega

/-- Earlier chunks end before later ones begin. -/
theorem Tiles.pairwise {base top : Nat} {l : List Chunk} (h : Tiles base l top) :
    l.Pairwise fun c d => c.acme ≤ d.addr := by
  induction l generalizing base with
  | nil => exact List.Pairwise.nil
  | cons c l ih =>
      refine List.Pairwise.cons (fun d hd => ?_) (ih h.2)
      have hbounds := h.2.bounds hd
      have haddr := h.1
      simp only [Chunk.acme]
      omega

/-- The chunks stand in the order of their addresses. -/
def Ascending (l : List Chunk) : Prop := l.Pairwise fun c d => c.addr ≤ d.addr

theorem Tiles.ascending {base top : Nat} {l : List Chunk} (h : Tiles base l top) :
    Ascending l :=
  h.pairwise.imp fun {_ _} hcd => le_trans (Nat.le_add_right _ _) hcd

theorem Tiles.aligned {base top : Nat} {l : List Chunk} (h : Tiles base l top)
    (hsized : ∀ c ∈ l, c.Sized) (hbase : base % Word.alignment = 0) :
    ∀ c ∈ l, c.addr % Word.alignment = 0 := by
  induction l generalizing base with
  | nil => simp
  | cons c l ih =>
      intro d hd
      rcases List.mem_cons.mp hd with rfl | hd
      · rw [h.1, hbase]
      · refine ih h.2 (fun e he => hsized e (by simp [he])) ?_ d hd
        rw [Nat.add_mod, hbase, (hsized c (by simp)).2]
        rfl

theorem Tiles.lowered {base top distance : Nat} {l : List Chunk} (h : Tiles base l top)
    (hdistance : distance ≤ base) :
    Tiles (base - distance) (l.map (Chunk.lowered distance)) (top - distance) := by
  induction l generalizing base with
  | nil =>
      have hbase : base = top := h
      simp [hbase]
  | cons c l ih =>
      have htail := ih h.2 (by omega)
      have haddr := h.1
      refine ⟨by simp [haddr], ?_⟩
      rwa [Chunk.lowered_size, show base - distance + c.size = base + c.size - distance by omega]

theorem Fills.top_eq {l : List Chunk} {top : Nat} (h : Fills l top) : top = bytes l := by
  obtain ⟨sorted, hperm, htiles⟩ := h
  rw [htiles.top_eq, bytes_perm hperm, Nat.zero_add]

theorem Fills.bound {l : List Chunk} {top : Nat} (h : Fills l top) {c : Chunk} (hc : c ∈ l) :
    c.acme ≤ top := by
  obtain ⟨sorted, hperm, htiles⟩ := h
  exact (htiles.bounds (hperm.mem_iff.mpr hc)).2

theorem Fills.disjoint {l : List Chunk} {top : Nat} (h : Fills l top) {c d : Chunk}
    (hc : c ∈ l) (hd : d ∈ l) (hne : c ≠ d) : c.acme ≤ d.addr ∨ d.acme ≤ c.addr := by
  obtain ⟨sorted, hperm, htiles⟩ := h
  have hpair : sorted.Pairwise fun c d => c.acme ≤ d.addr ∨ d.acme ≤ c.addr :=
    htiles.pairwise.imp fun h => Or.inl h
  have : Std.Symm fun c d : Chunk => c.acme ≤ d.addr ∨ d.acme ≤ c.addr :=
    ⟨fun _ _ h => h.symm⟩
  exact hpair.forall (hperm.mem_iff.mpr hc) (hperm.mem_iff.mpr hd) hne

/-- There is only one order in which chunks ascend. -/
theorem Tiles.eq_of_perm {l m : List Chunk} {top : Nat} (h : Tiles 0 m top) (hperm : m.Perm l)
    (hpos : ∀ c ∈ l, 0 < c.size) (hascending : Ascending l) : m = l := by
  refine hperm.eq_of_pairwise (fun c d hc hd hcd hdc => ?_) h.ascending hascending
  by_contra hne
  have hc' : c ∈ l := hperm.mem_iff.mp hc
  have hcpos := hpos c hc'
  have hdpos := hpos d hd
  have hdisjoint := Fills.disjoint ⟨m, hperm, h⟩ hc' hd hne
  simp only [Chunk.acme] at hdisjoint
  omega

/-- Brought into ascending order, chunks tile the offsets they fill. -/
theorem Fills.tiles {l : List Chunk} {top : Nat} (h : Fills l top) (hpos : ∀ c ∈ l, 0 < c.size)
    (hascending : Ascending l) : Tiles 0 l top := by
  obtain ⟨sorted, hperm, htiles⟩ := h
  exact htiles.eq_of_perm hperm hpos hascending ▸ htiles

theorem Tiles.fills {l : List Chunk} {top : Nat} (h : Tiles 0 l top) : Fills l top :=
  ⟨l, .refl l, h⟩

theorem Fills.perm {l m : List Chunk} {top : Nat} (h : Fills l top) (hperm : l.Perm m) :
    Fills m top := by
  obtain ⟨sorted, hsorted, htiles⟩ := h
  exact ⟨sorted, hsorted.trans hperm, htiles⟩

theorem Fills.push {l : List Chunk} {c : Chunk} {top : Nat} (h : Fills l top) (hc : c.addr = top) :
    Fills (c :: l) c.acme := by
  obtain ⟨sorted, hperm, htiles⟩ := h
  have htop := htiles.top_eq
  refine ⟨sorted ++ [c], (List.perm_append_singleton c sorted).trans (hperm.cons c), ?_⟩
  rw [tiles_append, ← htop]
  refine ⟨htiles, hc, ?_⟩
  rw [Chunk.acme, hc]
  rfl

/-- A chunk can be cut up, or described anew, where it is. -/
theorem Fills.replace {l m cs : List Chunk} {c : Chunk} {top : Nat} (h : Fills (l ++ c :: m) top)
    (hcs : Tiles c.addr cs c.acme) : Fills (l ++ cs ++ m) top := by
  obtain ⟨sorted, hperm, htiles⟩ := h
  obtain ⟨before, after, rfl⟩ :=
    List.append_of_mem (hperm.mem_iff.mpr (show c ∈ l ++ c :: m by simp))
  rw [tiles_append, tiles_cons] at htiles
  obtain ⟨hbefore, haddr, hafter⟩ := htiles
  have hbytes := hcs.top_eq
  refine ⟨before ++ cs ++ after, ?_, ?_⟩
  · have hrest : (before ++ after).Perm (l ++ m) :=
      (List.perm_middle.symm.trans (hperm.trans List.perm_middle)).cons_inv
    rw [List.append_assoc, List.append_assoc]
    calc
      List.Perm (before ++ (cs ++ after)) (cs ++ (before ++ after)) :=
        List.perm_append_comm_assoc before cs after
      List.Perm _ (cs ++ (l ++ m)) := hrest.append_left cs
      List.Perm _ (l ++ (cs ++ m)) := List.perm_append_comm_assoc cs l m
  · rw [List.append_assoc, tiles_append, tiles_append]
    unfold Chunk.acme at hcs hbytes
    rw [haddr] at hcs hbytes
    refine ⟨hbefore, ?_, ?_⟩
    · rwa [← hbytes]
    · rwa [← hbytes]

end Layout

end CompactingArena
