import CompactingArena.Proofs.SizeClasses.Search
/-!
# Searching damaged lists

The free lists thread through memory that a client with a stale address can overwrite,
so that the links in it may be anything.  What can be relied on is the header table: a
search looks a handle up there before it follows it.  Searches of damaged lists
therefore end all the same, and what they find is a chunk that is large enough, if
possibly one in use.
-/

namespace CompactingArena

open Layout

/-- The records that describe chunks are those of `l`, whatever lies in the region. -/
structure HeaderTable.Charted (t : HeaderTable) (region : Region) (l : List Chunk) : Prop where
  size : region.size ≤ Word.max
  places : ∀ d ∈ l, t.Places region d
  live : ∀ h, (t.live? h).isSome = true → h ∈ handles l

theorem HeaderTable.Charted.resize {t : HeaderTable} {region region' : Region} {l : List Chunk}
    (h : t.Charted region l) (hsize : region'.size = region.size) : t.Charted region' l where
  size := hsize ▸ h.size
  places d hd := by
    obtain ⟨hrecord, hleast, hbound⟩ := h.places d hd
    exact ⟨hrecord, hleast, hsize ▸ hbound⟩
  live := h.live

namespace SizeClasses

variable {c c' c'' : SizeClasses} {t : HeaderTable} {region region' region'' : Region}
  {l : List Chunk} {chunk : Chunk} {h : Handle} {k least : Nat}

/-- What a chunk's trailer says of the next chunk in its list. -/
def linkOf (t : HeaderTable) (region : Region) (h : Handle) : Except Violation (Option Handle) :=
  match t.live? h with
  | none => .error (.trailerMismatch h)
  | some record =>
      let trailer := region.trailer (record.addr + record.size)
      if Handle.ofWord? trailer.owner = some h then .ok (Handle.ofWord? trailer.next)
      else .error (.trailerMismatch h)

/-- Only live records are followed. -/
theorem mem_of_linkOf (hchart : t.Charted region l) {next : Option Handle}
    (hlink : linkOf t region h = .ok next) : ∃ d ∈ l, d.handle = h := by
  apply mem_handles.mp
  apply hchart.live
  rw [linkOf] at hlink
  cases hlive : t.live? h with
  | none =>
      rw [hlive] at hlink
      exact absurd hlink (by simp)
  | some record => rfl

theorem nextOf_eq_linkOf (hchart : t.Charted region l) (h : Handle) :
    nextOf t region h = pure (linkOf t region h) := by
  rw [nextOf, linkOf]
  cases hlive : t.live? h with
  | none => rfl
  | some record =>
      obtain ⟨d, hd, rfl⟩ := mem_handles.mp (hchart.live h (by rw [hlive]; rfl))
      have hplaces := hchart.places d hd
      obtain ⟨record', hget, hdesc⟩ := hplaces.record
      obtain rfl : record = record' := by
        rw [live?_eq hplaces hget hdesc hchart.size] at hlive
        exact (Option.some.inj hlive).symm
      have hacme : record.addr + record.size = d.acme := by rw [hdesc.addr, hdesc.size, Chunk.acme]
      simp only [acme_eq hplaces hdesc hchart.size, pure_bind,
        Region.readTrailer_eq hplaces.low hplaces.bound, hacme]
      split <;> rfl

/-- As many classes and as large a region as before. -/
structure Matches (c : SizeClasses) (region : Region) (c' : SizeClasses) (region' : Region) :
    Prop where
  count : c'.count = c.count
  size : region'.size = region.size

theorem Matches.refl (c : SizeClasses) (region : Region) : c.Matches region c region := ⟨rfl, rfl⟩

theorem Matches.trans (h : c.Matches region c' region') (h' : c'.Matches region' c'' region'') :
    c.Matches region c'' region'' :=
  ⟨h'.count.trans h.count, h'.size.trans h.size⟩

theorem Matches.classFor (h : c.Matches region c' region') (size : Nat) :
    c'.classFor size = c.classFor size :=
  classFor_congr h.count size

theorem exists_head (hk : k < c.count) : ∃ head, c.heads[k]? = some head :=
  ⟨_, Array.getElem?_eq_getElem hk⟩

/-! ## One operation at a time -/

theorem ends_insert (hchart : t.Charted region l) (hcount : 0 < c.count) (hchunk : chunk ∈ l) :
    Act.Ends (c.insert t region chunk.handle) fun (c', region') => c.Matches region c' region' ∧
      c'.heads[c'.classFor chunk.size]? = some (some chunk.handle) := by
  obtain ⟨next, hnext⟩ := exists_head (classFor_lt hcount chunk.size)
  obtain ⟨region', hinsert, hchanged, -⟩ :=
    insert_eq (hchart.places chunk hchunk) hchart.size hnext
  have hmatches : c.Matches region (c.setHead (c.classFor chunk.size) (some chunk.handle)) region' :=
    ⟨count_setHead _ _ _, hchanged.size⟩
  rw [hinsert]
  refine .bind_ok (Act.result_expect_release _ _) (.of_pure ⟨hmatches, ?_⟩)
  rw [hmatches.classFor, heads_setHead, if_pos rfl, hnext]
  rfl

/-- Taking a chunk out touches no class but its own. -/
theorem ends_unlink (hchart : t.Charted region l) {previous : Option Handle}
    (hprevious : ∀ p ∈ previous, ∃ d ∈ l, d.handle = p) (k : Nat) (h : Handle) :
    Act.Ends (c.unlink t region k previous h) fun
      | .error _ => True
      | .ok (c', region') => c.Matches region c' region' ∧ (∃ d ∈ l, d.handle = h) ∧
          ∀ j ≠ k, c'.heads[j]? = c.heads[j]? := by
  rw [unlink, nextOf_eq_linkOf hchart, pure_bind]
  cases hlink : linkOf t region h with
  | error violation => exact .of_pure trivial
  | ok next =>
      have hmem := mem_of_linkOf hchart hlink
      cases previous with
      | none =>
          refine .of_pure ⟨⟨count_setHead _ _ _, rfl⟩, hmem, fun j hj => ?_⟩
          rw [heads_setHead, if_neg (Ne.symm hj)]
      | some p =>
          obtain ⟨d, hd, rfl⟩ := hprevious p rfl
          have hplaces := hchart.places d hd
          obtain ⟨record, hget, hdesc⟩ := hplaces.record
          obtain ⟨region', hwrite, hchanged, -⟩ := Region.writeTrailerNext_eq (r := region)
            hplaces.low hplaces.bound (Handle.toWord_lt next)
          simp only [HeaderTable.get_eq hget, pure_bind, acme_eq hplaces hdesc hchart.size, hwrite]
          exact .of_pure ⟨⟨rfl, hchanged.size⟩, hmem, fun _ _ => rfl⟩

theorem ends_pop (hchart : t.Charted region l) (hk : k < c.count) :
    Act.Ends (c.pop t region k) fun
      | .error _ | .ok none => True
      | .ok (some (h, c', region')) => c.Matches region c' region' ∧
          c.heads[k]? = some (some h) ∧ ∃ d ∈ l, d.handle = h := by
  obtain ⟨head, hhead⟩ := exists_head hk
  rw [pop, head_eq hhead, pure_bind]
  cases head with
  | none => exact .of_pure trivial
  | some h =>
      apply (ends_unlink hchart (by simp) k h).bind
      rintro (violation | ⟨c', region'⟩) - hunlink
      · exact .of_pure trivial
      · exact .of_pure ⟨hunlink.1, hhead, hunlink.2.1⟩

/-! ## Searching -/

/-- If a search finds something, it is a chunk of `l` that is large enough. -/
def Finds (l : List Chunk) (least : Nat) (found : Except Violation (Option Handle)) : Prop :=
  ∀ h, found = .ok (some h) → ∃ d ∈ l, d.handle = h ∧ least ≤ d.size

theorem finds_error (violation : Violation) : Finds l least (.error violation) := by
  simp [Finds]

theorem finds_none : Finds l least (.ok none) := by
  simp [Finds]

theorem finds_some (hchunk : chunk ∈ l) (hleast : least ≤ chunk.size) :
    Finds l least (.ok (some chunk.handle)) := by
  intro h heq
  rw [Except.ok.injEq, Option.some.injEq] at heq
  exact ⟨chunk, hchunk, heq, hleast⟩

section Search

variable (hchart : t.Charted region l)
include hchart

theorem ends_popFit (hk : k < c.count) (limit : Nat) :
    Act.Ends (popFit t k limit c region) fun (found, c', region') =>
      c.Matches region c' region' ∧ Finds l (2 ^ k) found := by
  induction limit generalizing c region with
  | zero =>
      rw [popFit]
      apply (ends_pop hchart hk).bind
      rintro (violation | _ | ⟨h, c', region'⟩) - hpop
      · exact .of_pure ⟨.refl _ _, finds_error _⟩
      · exact .of_pure ⟨.refl _ _, finds_none⟩
      · exact .of_pure ⟨hpop.1, finds_error _⟩
  | succ limit ih =>
      rw [popFit]
      apply (ends_pop hchart hk).bind
      rintro (violation | _ | ⟨h, c', region'⟩) - hpop
      · exact .of_pure ⟨.refl _ _, finds_error _⟩
      · exact .of_pure ⟨.refl _ _, finds_none⟩
      obtain ⟨hmatches, -, d, hd, rfl⟩ := hpop
      have hplaces := hchart.places d hd
      have hpos := hplaces.pos
      obtain ⟨record, hget, hdesc⟩ := hplaces.record
      have hchart' := hchart.resize hmatches.size
      simp only [HeaderTable.get_eq hget, pure_bind, hdesc.size, classOf_eq hpos,
        Nat.one_shiftLeft]
      split
      · exact .of_pure ⟨hmatches, finds_error _⟩
      rename_i hlarge
      split
      · refine .bind_ok (Act.result_log _ _) ?_
        apply (ends_insert hchart' (by rw [hmatches.count]; omega) hd).bind
        rintro ⟨c'', region''⟩ - ⟨hmatches', -⟩
        have hrest := ih (hchart'.resize hmatches'.size)
          (by rw [hmatches'.count, hmatches.count]; exact hk)
        exact hrest.mono fun _ h => ⟨(hmatches.trans hmatches').trans h.1, h.2⟩
      · exact .of_pure ⟨hmatches, finds_some hd (Nat.le_of_not_lt hlarge)⟩

theorem ends_popFirst {ks : List Nat} (hks : ∀ k ∈ ks, k < c.count ∧ least ≤ 2 ^ k) :
    Act.Ends (popFirst t ks c region) fun (found, c', region') =>
      c.Matches region c' region' ∧ Finds l least found := by
  induction ks generalizing c region with
  | nil => exact .of_pure ⟨.refl _ _, finds_none⟩
  | cons k ks ih =>
      obtain ⟨hk, hleast⟩ := hks k (by simp)
      rw [popFirst]
      apply (ends_popFit hchart hk _).bind
      rintro ⟨found, c', region'⟩ - ⟨hmatches, hfound⟩
      have hfound : Finds l least found := fun h heq => by
        obtain ⟨d, hd, hhandle, hlarge⟩ := hfound h heq
        exact ⟨d, hd, hhandle, hleast.trans hlarge⟩
      rcases found with violation | _ | h
      · exact .of_pure ⟨hmatches, hfound⟩
      · have hrest := ih (hchart.resize hmatches.size) fun j hj => by
          rw [hmatches.count]
          exact hks j (by simp [hj])
        exact hrest.mono fun _ h => ⟨hmatches.trans h.1, h.2⟩
      · exact .of_pure ⟨hmatches, hfound⟩

/-- The last chunk that a scan of class `k` has filed anew is the head of a higher class. -/
def Heads (c : SizeClasses) (l : List Chunk) (k : Nat) (h : Handle) : Prop :=
  ∃ d ∈ l, d.handle = h ∧ k < c.classFor d.size ∧ c.heads[c.classFor d.size]? = some (some h)

theorem ends_takeDemoted (hcount : 0 < c.count) (hpos : 0 < least) {demoted : Option Handle}
    (hdemoted : ∀ h ∈ demoted, c.Heads l (c.classFor least) h) :
    Act.Ends (takeDemoted t demoted c region) fun (found, c', region') =>
      c.Matches region c' region' ∧ Finds l least found := by
  cases demoted with
  | none => exact .of_pure ⟨.refl _ _, finds_none⟩
  | some h =>
      obtain ⟨d, hd, rfl, hclass, hhead⟩ := hdemoted h rfl
      have hplaces := hchart.places d hd
      have hdpos := hplaces.pos
      obtain ⟨record, hget, hdesc⟩ := hplaces.record
      have hlt := classFor_lt hcount d.size
      have hlarge : least ≤ d.size :=
        (lt_of_classFor_lt hpos hclass hlt).le.trans (le_of_classFor hdpos (le_refl _))
      rw [takeDemoted]
      simp only [HeaderTable.get_eq hget, pure_bind, hdesc.size, classOf_eq hdpos, head_eq hhead]
      refine .bind_ok (Act.result_expect_release _ _) ?_
      apply (ends_pop hchart hlt).bind
      rintro (violation | _ | ⟨g, c', region'⟩) - hpop
      · exact .of_pure ⟨.refl _ _, finds_error _⟩
      · exact .of_pure ⟨.refl _ _, finds_none⟩
      · obtain ⟨hmatches, hhead', -⟩ := hpop
        obtain rfl : d.handle = g := by
          rw [hhead] at hhead'
          simpa using hhead'
        exact .of_pure ⟨hmatches, finds_some hd hlarge⟩

/-- By induction on the limit, whatever the links say: the chunk passed last is one of `l`, so
that its trailer can be rewritten, and what was filed anew heads its class. -/
theorem ends_scanFrom (hcount : 0 < c.count) (hpos : 0 < least) (hk : c.classFor least = k)
    (limit : Nat) {previous link demoted : Option Handle}
    (hprevious : ∀ p ∈ previous, ∃ d ∈ l, d.handle = p)
    (hdemoted : ∀ h ∈ demoted, c.Heads l k h) :
    Act.Ends (scanFrom t k least limit previous link demoted c region) fun (found, c', region') =>
      c.Matches region c' region' ∧ Finds l least found := by
  subst hk
  induction limit generalizing c region previous link demoted with
  | zero =>
      cases link with
      | none => exact ends_takeDemoted hchart hcount hpos hdemoted
      | some h => exact .of_pure ⟨.refl _ _, finds_error _⟩
  | succ limit ih =>
      cases link with
      | none => exact ends_takeDemoted hchart hcount hpos hdemoted
      | some h =>
          rw [scanFrom, nextOf_eq_linkOf hchart, pure_bind]
          cases hlink : linkOf t region h with
          | error violation => exact .of_pure ⟨.refl _ _, finds_error _⟩
          | ok next =>
              obtain ⟨d, hd, rfl⟩ := mem_of_linkOf hchart hlink
              have hplaces := hchart.places d hd
              have hdpos := hplaces.pos
              obtain ⟨record, hget, hdesc⟩ := hplaces.record
              simp only [HeaderTable.get_eq hget, pure_bind, hdesc.size, classOf_eq hdpos,
                Nat.one_shiftLeft]
              split
              · exact .of_pure ⟨.refl _ _, finds_error _⟩
              split
              · rename_i hclass
                apply (ends_unlink hchart hprevious _ d.handle).bind
                rintro (violation | ⟨c', region'⟩) - hunlink
                · exact .of_pure ⟨.refl _ _, finds_error _⟩
                obtain ⟨hmatches, -, hother⟩ := hunlink
                have hchart' := hchart.resize hmatches.size
                have hcount' : 0 < c'.count := hmatches.count ▸ hcount
                apply (ends_insert hchart' hcount' hd).bind
                rintro ⟨c'', region''⟩ - ⟨hmatches', hhead⟩
                have hall := hmatches.trans hmatches'
                have hheads : ∀ g ∈ some d.handle, c''.Heads l (c''.classFor least) g := by
                  intro g hg
                  obtain rfl : d.handle = g := Option.some.inj hg
                  refine ⟨d, hd, rfl, ?_, hhead⟩
                  rwa [hall.classFor, hall.classFor]
                rw [← hall.classFor least]
                exact (ih (hchart'.resize hmatches'.size) (hall.count ▸ hcount) hprevious
                  hheads).mono fun _ h => ⟨hall.trans h.1, h.2⟩
              split
              · rename_i hfit
                apply (ends_unlink hchart hprevious _ d.handle).bind
                rintro (violation | ⟨c', region'⟩) - hunlink
                · exact .of_pure ⟨.refl _ _, finds_error _⟩
                · exact .of_pure ⟨hunlink.1, finds_some hd hfit⟩
              · exact ih hchart hcount (fun p hp => ⟨d, hd, Option.some.inj hp⟩) hdemoted

/-- A search ends, and leaves the header table to decide what it has found. -/
theorem ends_find (hcount : 0 < c.count) (hpos : 0 < least) :
    Act.Ends (c.find t region least) fun (found, c', region') =>
      c.Matches region c' region' ∧ Finds l least found := by
  have hks : ∀ k ∈ List.range' (c.classFor least + 1) (c.count - (c.classFor least + 1)),
      k < c.count ∧ least ≤ 2 ^ k := by
    intro k hk
    rw [List.mem_range'_1] at hk
    have hlt : k < c.count := by omega
    exact ⟨hlt, (lt_of_classFor_lt hpos (by omega) hlt).le⟩
  rw [find, classOf_eq hpos, pure_bind]
  apply (ends_popFirst hchart hks).bind
  rintro ⟨found, c', region'⟩ - ⟨hmatches, hfound⟩
  rcases found with violation | _ | h
  · exact .of_pure ⟨hmatches, hfound⟩
  · have hcount' : 0 < c'.count := hmatches.count ▸ hcount
    obtain ⟨head, hhead⟩ := exists_head (hmatches.classFor least ▸ classFor_lt hcount' least)
    simp only [head_eq hhead, pure_bind]
    refine (ends_scanFrom (hchart.resize hmatches.size) hcount' hpos (hmatches.classFor least)
      t.capacity ?_ ?_).mono fun _ h => ⟨hmatches.trans h.1, h.2⟩
    · simp
    · simp
  · exact .of_pure ⟨hmatches, hfound⟩

end Search

end SizeClasses

end CompactingArena
