import CompactingArena.Proofs.Compaction.Advance
/-!
# Layouts that settle

At the end of a compaction runs of free chunks are merged, and those above the
highest chunk in use are dropped.  Neither touches a chunk in use.  A layout in
which the free chunks were followed by free or pinned chunks comes out `Settled`:
every free chunk is followed by a pinned one.
-/

namespace CompactingArena.Layout

variable {l m : List Chunk} {c d : Chunk} {base top : Nat}

/-! ## Merging -/

/-- Puts a chunk before others; a free chunk absorbs a free one that comes
first. -/
def absorbed (c : Chunk) : List Chunk → List Chunk
  | [] => [c]
  | d :: l =>
      if c.isFree && d.isFree then { c with size := c.size + d.size } :: l else c :: d :: l

/-- The layout with each run of free chunks merged into its first chunk. -/
def merged : List Chunk → List Chunk
  | [] => []
  | c :: l => absorbed c (merged l)

@[simp] theorem merged_nil : merged [] = [] := rfl

theorem absorbed_of_busy (hc : c.isFree = false) (l : List Chunk) : absorbed c l = c :: l := by
  cases l with
  | nil => rfl
  | cons d l => rw [absorbed, hc, Bool.false_and, if_neg Bool.false_ne_true]

theorem absorbed_of_head (h : ∀ d ∈ l.head?, d.isFree = false) (c : Chunk) :
    absorbed c l = c :: l := by
  cases l with
  | nil => rfl
  | cons d l => rw [absorbed, h d rfl, Bool.and_false, if_neg Bool.false_ne_true]

theorem absorbed_of_free (hc : c.isFree = true) (hd : d.isFree = true) (l : List Chunk) :
    absorbed c (d :: l) = { c with size := c.size + d.size } :: l := by
  rw [absorbed, hc, hd, Bool.and_true, if_pos rfl]

/-- The first chunk keeps its record, its address and its state. -/
theorem head_absorbed (c : Chunk) (l : List Chunk) :
    ∃ size m, absorbed c l = { c with size } :: m := by
  cases l with
  | nil => exact ⟨c.size, [], rfl⟩
  | cons d l =>
      rw [absorbed]
      split
      · exact ⟨_, l, rfl⟩
      · exact ⟨c.size, d :: l, rfl⟩

theorem head_merged (h : d ∈ (merged l).head?) :
    ∃ c ∈ l.head?, d.handle = c.handle ∧ d.state = c.state := by
  cases l with
  | nil => exact absurd h (by simp)
  | cons c l =>
      obtain ⟨size, m, heq⟩ := head_absorbed c (merged l)
      rw [merged, heq] at h
      obtain rfl := Option.some.inj h
      exact ⟨c, rfl, rfl, rfl⟩

/-- A free chunk absorbs the whole run of free chunks that follows it. -/
theorem merged_run (hc : c.isFree = true) (hrun : ∀ d ∈ l, d.isFree = true)
    (hm : ∀ d ∈ m.head?, d.isFree = false) :
    merged (c :: (l ++ m)) = { c with size := c.size + bytes l } :: merged m := by
  induction l generalizing c with
  | nil =>
      rw [List.nil_append, bytes_nil, merged, absorbed_of_head]
      · rfl
      · intro d hd
        obtain ⟨e, he, -, hstate⟩ := head_merged hd
        rw [Chunk.isFree, hstate]
        exact hm e he
  | cons d l ih =>
      have hd : d.isFree = true := hrun d (by simp)
      rw [List.cons_append, merged, ih hd fun e he => hrun e (by simp [he]),
        absorbed_of_free hc (d := { d with size := d.size + bytes l }) hd, bytes_cons]

theorem Tiles.absorbed (h : Tiles base (c :: l) top) : Tiles base (absorbed c l) top := by
  cases l with
  | nil => exact h
  | cons d l =>
      rw [Layout.absorbed]
      split
      · refine ⟨h.1, ?_⟩
        rw [← Nat.add_assoc]
        exact h.2.2
      · exact h

theorem Tiles.merged (h : Tiles base l top) : Tiles base (merged l) top := by
  induction l generalizing base with
  | nil => exact h
  | cons c l ih => exact Tiles.absorbed ⟨h.1, ih h.2⟩

theorem used_absorbed (c : Chunk) (l : List Chunk) : used (absorbed c l) = used (c :: l) := by
  cases l with
  | nil => rfl
  | cons d l =>
      rw [absorbed]
      split
      · rename_i hfree
        obtain ⟨hc, hd⟩ := Bool.and_eq_true _ _ ▸ hfree
        have hsum : (Chunk.mk c.handle c.addr (c.size + d.size) c.state).isFree = true := hc
        rw [used_cons, if_pos hsum, used_cons, if_pos hc, used_cons, if_pos hd]
      · rfl

theorem used_merged (l : List Chunk) : used (merged l) = used l := by
  induction l with
  | nil => rfl
  | cons c l ih => rw [merged, used_absorbed, used_cons, used_cons, ih]

theorem sized_merged (h : ∀ c ∈ l, c.Sized) : ∀ c ∈ merged l, c.Sized := by
  induction l with
  | nil => exact h
  | cons c l ih =>
      have hl := ih fun d hd => h d (by simp [hd])
      have hc := h c (by simp)
      rw [merged]
      cases hmerged : merged l with
      | nil => simpa [absorbed] using hc
      | cons d m =>
          rw [hmerged] at hl
          have hd := hl d (by simp)
          rw [absorbed]
          split
          · intro e he
            rcases List.mem_cons.mp he with rfl | he
            · have height : Word.alignment = 8 := rfl
              unfold Chunk.Sized at hc hd ⊢
              rw [height] at hc hd ⊢
              simp only
              omega
            · exact hl e (by simp [he])
          · intro e he
            rcases List.mem_cons.mp he with rfl | he
            · exact hc
            · exact hl e he

/-- No free chunk is followed by another. -/
def Coalesced (l : List Chunk) : Prop := l.IsChain fun c d => c.isFree = true → d.isFree = false

theorem Coalesced.absorbed (h : Coalesced l) (c : Chunk) : Coalesced (absorbed c l) := by
  cases l with
  | nil => exact .singleton c
  | cons d l =>
      rw [Layout.absorbed]
      have ⟨hd, hl⟩ := List.isChain_cons.mp h
      split
      case isTrue hfree =>
        rw [Bool.and_eq_true] at hfree
        exact List.isChain_cons.mpr ⟨fun e he _ => hd e he hfree.2, hl⟩
      case isFalse hbusy =>
        refine List.isChain_cons_cons.mpr ⟨fun hc => ?_, h⟩
        rw [hc, Bool.true_and] at hbusy
        exact (Bool.not_eq_true _).mp hbusy

theorem coalesced_merged (l : List Chunk) : Coalesced (merged l) := by
  induction l with
  | nil => exact .nil
  | cons c l ih => exact ih.absorbed c

/-- Where chunks leave no gaps, those that are next to each other follow each other. -/
theorem Tiles.isFree_of_adjacent (htiles : Tiles base l top) (hl : Coalesced l)
    (hpos : ∀ e ∈ l, 0 < e.size) (hc : c ∈ l) (hd : d ∈ l) (hadjacent : c.acme = d.addr)
    (hfree : c.isFree = true) : d.isFree = false := by
  induction l generalizing base with
  | nil => exact absurd hc (by simp)
  | cons e l ih =>
      have ⟨haddr, hrest⟩ := htiles
      have ⟨hnext, hl'⟩ := List.isChain_cons.mp hl
      have hbelow := (List.pairwise_cons.mp htiles.pairwise).1
      have hepos := hpos e (by simp)
      have hcpos := hpos c hc
      unfold Chunk.acme at hadjacent hbelow
      rcases List.mem_cons.mp hc with rfl | hc'
      · rcases List.mem_cons.mp hd with rfl | hd
        · omega
        · cases l with
          | nil => exact absurd hd (by simp)
          | cons f l =>
              rcases List.mem_cons.mp hd with rfl | hd
              · exact hnext d rfl hfree
              · have hlater := (List.pairwise_cons.mp hrest.pairwise).1 d hd
                have hfirst := hrest.1
                have hfpos := hpos f (by simp)
                unfold Chunk.acme at hlater
                omega
      · rcases List.mem_cons.mp hd with rfl | hd
        · have hle := hbelow c hc'
          omega
        · exact ih hrest hl' (fun f hf => hpos f (by simp [hf])) hc' hd

/-! ## Trimming -/

/-- The end of the highest chunk in use. -/
def usedEnd (l : List Chunk) : Nat := (((used l).getLast?).map Chunk.acme).getD 0

/-- A chunk is in use or lies below `high`. -/
def staysBelow (high : Nat) (c : Chunk) : Bool := !(c.isFree && decide (high ≤ c.addr))

/-- The layout without the free chunks above the highest chunk in use. -/
def trimmed (l : List Chunk) : List Chunk := l.filter (staysBelow (usedEnd l))

/-- The chunks up to the last one in use, and those above it. -/
theorem exists_top (l : List Chunk) : (∀ c ∈ l, c.isFree = true) ∨
    ∃ low c tail, l = low ++ c :: tail ∧ c.isFree = false ∧ ∀ d ∈ tail, d.isFree = true := by
  induction l with
  | nil => exact .inl (by simp)
  | cons c l ih =>
      rcases ih with hfree | ⟨low, d, tail, rfl, hd, htail⟩
      · by_cases hc : c.isFree = true
        · exact .inl (by simpa [hc] using hfree)
        · exact .inr ⟨[], c, l, rfl, by simpa using hc, hfree⟩
      · exact .inr ⟨c :: low, d, tail, rfl, hd, htail⟩

theorem trimmed_of_free (h : ∀ c ∈ l, c.isFree = true) : trimmed l = [] ∧ usedEnd l = 0 := by
  have hend : usedEnd l = 0 := by
    rw [usedEnd, used_eq_nil h]
    rfl
  refine ⟨List.filter_eq_nil_iff.mpr fun c hc => ?_, hend⟩
  rw [staysBelow, hend, h c hc]
  simp

/-- What lies below the highest chunk in use stays. -/
theorem trimmed_of_top {low tail : List Chunk} (h : Tiles base (low ++ c :: tail) top)
    (hpos : 0 < c.size) (hc : c.isFree = false) (htail : ∀ d ∈ tail, d.isFree = true) :
    trimmed (low ++ c :: tail) = low ++ [c] ∧ usedEnd (low ++ c :: tail) = c.acme := by
  have hend : usedEnd (low ++ c :: tail) = c.acme := by
    rw [usedEnd, used_append, used_cons, hc, if_neg Bool.false_ne_true, used_eq_nil htail,
      List.getLast?_concat]
    rfl
  refine ⟨?_, hend⟩
  rw [tiles_append] at h
  obtain ⟨hlow, haddr, htiles⟩ := h
  have hacme : c.acme = base + bytes low + c.size := by rw [Chunk.acme, haddr]
  rw [trimmed, hend, List.filter_append, List.filter_cons_of_pos (by simp [staysBelow, hc])]
  congr 1
  · apply List.filter_eq_self.mpr
    intro d hd
    have hbounds := hlow.bounds hd
    unfold Chunk.acme at hbounds
    rw [staysBelow, decide_eq_false (by omega), Bool.and_false, Bool.not_false]
  · congr 1
    apply List.filter_eq_nil_iff.mpr
    intro d hd
    have hbounds := htiles.bounds hd
    rw [staysBelow, htail d hd, decide_eq_true (by omega)]
    simp

theorem used_trimmed (l : List Chunk) : used (trimmed l) = used l := by
  rw [used, trimmed, List.filter_filter]
  apply List.filter_congr
  intro c _
  rw [staysBelow]
  cases c.isFree <;> simp

/-- The highest chunk of a trimmed layout is in use. -/
theorem Tiles.trimmed (h : Tiles 0 l top) (hpos : ∀ c ∈ l, 0 < c.size) :
    Tiles 0 (trimmed l) (usedEnd l) ∧ usedEnd l ≤ top ∧
      ∀ c ∈ (trimmed l).getLast?, c.isFree = false ∧ c.acme = usedEnd l := by
  rcases exists_top l with hfree | ⟨low, c, tail, rfl, hc, htail⟩
  · obtain ⟨hnil, hend⟩ := trimmed_of_free hfree
    rw [hnil, hend]
    exact ⟨rfl, Nat.zero_le _, by simp⟩
  · obtain ⟨hlow, hend⟩ := trimmed_of_top h (hpos c (by simp)) hc htail
    rw [hlow, hend]
    have hbound := h.bounds (c := c) (by simp)
    have htiles := h
    rw [tiles_append, tiles_cons] at htiles
    refine ⟨tiles_append.mpr ⟨htiles.1, htiles.2.1, ?_⟩, hbound.2, by simp [hc]⟩
    rw [Chunk.acme, htiles.2.1]
    rfl

theorem Coalesced.trimmed (h : Coalesced l) (htiles : Tiles 0 l top)
    (hpos : ∀ c ∈ l, 0 < c.size) : Coalesced (trimmed l) := by
  rcases exists_top l with hfree | ⟨low, c, tail, rfl, hc, htail⟩
  · rw [(trimmed_of_free hfree).1]
    exact .nil
  · rw [(trimmed_of_top htiles (hpos c (by simp)) hc htail).1]
    rw [List.append_cons] at h
    exact h.left_of_append

/-! ## Settled layouts -/

/-- Every free chunk is followed by a pinned one. -/
def Settled (l : List Chunk) : Prop :=
  ∀ before f after, l = before ++ f :: after → f.isFree = true →
    ∃ d ∈ after.head?, d.state.isPinned = true

/-- Every free chunk that has a chunk in use above it is followed by a chunk that
satisfies `p`. -/
def Follows (p : Chunk → Prop) : List Chunk → Prop
  | [] => True
  | c :: l => (c.isFree = true → used l ≠ [] → ∃ d ∈ l.head?, p d) ∧ Follows p l

theorem Capped.follows {tail : List Chunk} (h : Capped l) (htail : ∀ c ∈ tail, c.isFree = true) :
    Follows (fun d => d.isFree = true ∨ d.state.isPinned = true) (l ++ tail) := by
  induction l with
  | nil =>
      induction tail with
      | nil => trivial
      | cons c tail ih =>
          have htail' : ∀ d ∈ tail, d.isFree = true := fun d hd => htail d (by simp [hd])
          exact ⟨fun _ hne => absurd (used_eq_nil htail') hne, ih htail'⟩
  | cons c l ih =>
      refine ⟨fun hc _ => ?_, ih fun before f after heq hf => ?_⟩
      · obtain ⟨d, hd, hcap⟩ := h [] c l rfl hc
        refine ⟨d, ?_, hcap⟩
        cases l with
        | nil => exact absurd hd (by simp)
        | cons e l => exact hd
      · exact h (c :: before) f after (by rw [heq]; rfl) hf

/-- After merging no free chunk follows another. -/
theorem Follows.merged (h : Follows (fun d => d.isFree = true ∨ d.state.isPinned = true) l) :
    Follows (fun d => d.state.isPinned = true) (merged l) := by
  induction l with
  | nil => trivial
  | cons c l ih =>
      have hl := ih h.2
      have hused := used_merged l
      rw [Layout.merged]
      cases hmerged : Layout.merged l with
      | nil => exact ⟨fun _ hne => absurd rfl hne, trivial⟩
      | cons d m =>
          rw [hmerged] at hl hused
          by_cases hc : c.isFree = true
          · by_cases hd : d.isFree = true
            · rw [absorbed_of_free hc hd]
              exact ⟨fun _ => hl.1 hd, hl.2⟩
            · rw [absorbed_of_head (by simpa using hd)]
              refine ⟨fun _ hne => ⟨d, rfl, ?_⟩, hl⟩
              obtain ⟨e, he, -, hstate⟩ := head_merged (d := d) (l := l) (by rw [hmerged]; rfl)
              obtain ⟨e', he', hcap⟩ := h.1 hc (hused ▸ hne)
              obtain rfl : e = e' := Option.some.inj (he.symm.trans he')
              rw [hstate]
              refine hcap.resolve_left fun hfree => hd ?_
              rw [Chunk.isFree, hstate]
              exact hfree
          · rw [absorbed_of_busy (by simpa using hc)]
            exact ⟨fun hfree => absurd hfree hc, hl⟩

theorem Follows.of_mem {p : Chunk → Prop} {before after : List Chunk} {f : Chunk}
    (h : Follows p (before ++ f :: after)) (hf : f.isFree = true) (hne : used after ≠ []) :
    ∃ d ∈ after.head?, p d := by
  induction before with
  | nil => exact h.1 hf hne
  | cons c before ih => exact ih h.2

/-- Without the free chunks at the top there is always a chunk in use above. -/
theorem Follows.settled (h : Follows (fun d => d.state.isPinned = true) l)
    (htiles : Tiles 0 l top) (hpos : ∀ c ∈ l, 0 < c.size) : Settled (trimmed l) := by
  intro before f after heq hf
  rcases exists_top l with hfree | ⟨low, c, tail, rfl, hc, htail⟩
  · rw [(trimmed_of_free hfree).1] at heq
    exact absurd heq (by simp)
  · rw [(trimmed_of_top htiles (hpos c (by simp)) hc htail).1] at heq
    rcases List.append_eq_append_iff.mp heq with ⟨k, rfl, hk⟩ | ⟨k, rfl, hk⟩
    · cases k with
      | nil =>
          obtain ⟨rfl, -⟩ : c = f ∧ [] = after := by simpa using hk
          rw [hc] at hf
          exact absurd hf (by simp)
      | cons e k => exact absurd (congrArg List.length hk) (by simp)
    · cases k with
      | nil =>
          obtain ⟨rfl, -⟩ : f = c ∧ after = [] := by simpa using hk
          rw [hc] at hf
          exact absurd hf (by simp)
      | cons e k =>
          obtain ⟨rfl, rfl⟩ : f = e ∧ after = k ++ [c] := by simpa using hk
          rw [List.append_assoc, List.cons_append] at h
          obtain ⟨d, hd, hpinned⟩ := h.of_mem hf (by
            rw [used_append, used_cons, hc]
            simp)
          refine ⟨d, ?_, hpinned⟩
          cases k with
          | nil => exact hd
          | cons e k => exact hd

theorem isFree_of_isPinned (h : c.state.isPinned = true) : c.isFree = false := by
  rw [Chunk.isFree]
  rcases (ChunkState.isPinned_iff _).mp h with hstate | hstate <;> rw [hstate] <;> rfl

theorem Settled.of_append (h : Settled (l ++ m)) : Settled m := fun before f after heq hf =>
  h (l ++ before) f after (by rw [heq, List.append_assoc]) hf

/-- A run of free chunks at the top of a settled layout is empty. -/
theorem Settled.eq_nil (h : Settled (l ++ m)) (hfree : ∀ c ∈ m, c.isFree = true) : m = [] := by
  cases m with
  | nil => rfl
  | cons c m =>
      obtain ⟨d, hd, hpinned⟩ := h l c m rfl (hfree c (by simp))
      have hbusy := isFree_of_isPinned hpinned
      rw [hfree d (by simp [List.mem_of_mem_head? hd])] at hbusy
      exact absurd hbusy (by simp)

theorem Settled.merged (h : Settled l) : merged l = l := by
  induction l with
  | nil => rfl
  | cons c l ih =>
      have hl : Settled l := fun before f after heq hf =>
        h (c :: before) f after (by rw [heq]; rfl) hf
      rw [Layout.merged, ih hl]
      by_cases hc : c.isFree = true
      · obtain ⟨d, hd, hpinned⟩ := h [] c l rfl hc
        refine absorbed_of_head (fun e he => ?_) c
        obtain rfl : d = e := Option.some.inj (hd.symm.trans he)
        exact isFree_of_isPinned hpinned
      · exact absorbed_of_busy (by simpa using hc) l

theorem Settled.trimmed (h : Settled l) (htiles : Tiles 0 l top) (hpos : ∀ c ∈ l, 0 < c.size) :
    trimmed l = l := by
  rcases exists_top l with hfree | ⟨low, c, tail, rfl, hc, htail⟩
  · obtain rfl : l = [] := Settled.eq_nil (l := []) h hfree
    rfl
  · rw [List.append_cons] at h
    obtain rfl := h.eq_nil htail
    exact (trimmed_of_top htiles (hpos c (by simp)) hc htail).1

end CompactingArena.Layout
