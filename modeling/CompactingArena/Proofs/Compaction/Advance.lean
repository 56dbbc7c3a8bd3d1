import CompactingArena.Proofs.Compaction.Relink
/-!
# How a pass changes a layout

`Advances` relates what a pass has before it to what it leaves behind it and
what it leaves to the next pass.  The chunks tile the same offsets as before,
those in use keep their bytes and are never moved up, and fewer of them are left
for the next pass.
-/

namespace CompactingArena

open Layout

/-- What a chunk in use may become: unless it is pinned it may have moved down
and may have grown, and it begins with the bytes that it had. -/
structure Chunk.Becomes (c : Chunk) (r r' : Region) (c' : Chunk) : Prop where
  handle : c'.handle = c.handle
  state : c'.state = c.state
  addr : c'.addr ≤ c.addr
  size : c.size ≤ c'.size
  pinned : c.state.isPinned = true → c'.addr = c.addr ∧ c'.size = c.size
  byte : ∀ i < c.size, r'.byte (c'.addr + i) = r.byte (c.addr + i)

theorem Chunk.Becomes.refl (c : Chunk) (r : Region) : c.Becomes r r c :=
  ⟨rfl, rfl, le_refl _, le_refl _, fun _ => ⟨rfl, rfl⟩, fun _ _ => rfl⟩

theorem Chunk.Becomes.trans {c c' c'' : Chunk} {r r' r'' : Region} (h : c.Becomes r r' c')
    (h' : c'.Becomes r' r'' c'') : c.Becomes r r'' c'' where
  handle := h'.handle.trans h.handle
  state := h'.state.trans h.state
  addr := h'.addr.trans h.addr
  size := h.size.trans h'.size
  pinned hpinned := by
    obtain ⟨haddr, hsize⟩ := h.pinned hpinned
    obtain ⟨haddr', hsize'⟩ := h'.pinned (h.state.symm ▸ hpinned)
    exact ⟨haddr'.trans haddr, hsize'.trans hsize⟩
  byte i hi := by
    rw [h'.byte i (Nat.lt_of_lt_of_le hi h.size), h.byte i hi]

theorem Chunk.Becomes.of_unchanged {c : Chunk} {r r' : Region}
    (h : ∀ i, c.Holds i → r'.byte i = r.byte i) : c.Becomes r r' c :=
  { Chunk.Becomes.refl c r with
    byte := fun _ hi => h _ ⟨Nat.le_add_right _ _, Nat.add_lt_add_left hi _⟩ }

namespace Layout

/-- Every chunk in use is still there, and no other is in use. -/
structure Carries (r : Region) (l : List Chunk) (r' : Region) (l' : List Chunk) : Prop where
  becomes : ∀ c ∈ used l, ∃ c' ∈ used l', c.Becomes r r' c'
  perm : (handles (used l')).Perm (handles (used l))

variable {r r' r'' : Region} {l m k : List Chunk} {c : Chunk} {base top n distance : Nat}

theorem Carries.refl (r : Region) (l : List Chunk) : Carries r l r l :=
  ⟨fun c hc => ⟨c, hc, .refl c r⟩, .refl _⟩

theorem Carries.trans (h : Carries r l r' m) (h' : Carries r' m r'' k) : Carries r l r'' k where
  becomes c hc := by
    obtain ⟨c', hc', hbecomes⟩ := h.becomes c hc
    obtain ⟨c'', hc'', hbecomes'⟩ := h'.becomes c' hc'
    exact ⟨c'', hc'', hbecomes.trans hbecomes'⟩
  perm := h'.perm.trans h.perm

theorem Busy.used_eq (h : Busy l) : used l = l :=
  List.filter_eq_self.mpr fun c hc => by rw [h c hc]; rfl

theorem used_eq_nil (h : ∀ c ∈ l, c.isFree = true) : used l = [] :=
  List.filter_eq_nil_iff.mpr fun c hc => by simp [h c hc]

theorem Busy.map_lowered (h : Busy l) (distance : Nat) : Busy (l.map (Chunk.lowered distance)) := by
  intro c hc
  obtain ⟨d, hd, rfl⟩ := List.mem_map.mp hc
  exact h d hd

/-- Only the last chunk has grown. -/
theorem mem_stretched (h : c ∈ stretched n l) :
    ∃ d ∈ l, c.handle = d.handle ∧ c.state = d.state ∧
      (c.size = d.size ∨ c.size = d.size + n ∧ ∀ link, exit link l = some d.handle) := by
  rcases List.eq_nil_or_concat l with rfl | ⟨l, e, rfl⟩
  · exact absurd h (by simp [stretched])
  · rw [List.concat_eq_append, stretched_concat] at h
    rcases List.mem_append.mp h with hc | hc
    · exact ⟨c, by simp [hc], rfl, rfl, .inl rfl⟩
    · obtain rfl := List.mem_singleton.mp hc
      refine ⟨e, by simp, rfl, rfl, .inr ⟨rfl, fun link => ?_⟩⟩
      rw [List.concat_eq_append, exit_append]
      rfl

theorem exists_mem_stretched (h : c ∈ l) (n : Nat) :
    ∃ d ∈ stretched n l, d.handle = c.handle ∧ d.state = c.state ∧ d.addr = c.addr ∧
      c.size ≤ d.size := by
  rcases List.eq_nil_or_concat l with rfl | ⟨l, e, rfl⟩
  · exact absurd h (by simp)
  · rw [List.concat_eq_append, stretched_concat]
    rw [List.concat_eq_append] at h
    rcases List.mem_append.mp h with hc | hc
    · exact ⟨c, by simp [hc], rfl, rfl, rfl, le_refl _⟩
    · obtain rfl := List.mem_singleton.mp hc
      exact ⟨{ c with size := c.size + n }, by simp, rfl, rfl, rfl, Nat.le_add_right _ _⟩

theorem Busy.stretched (h : Busy l) (n : Nat) : Busy (stretched n l) := by
  intro c hc
  obtain ⟨d, hd, -, hstate, -⟩ := mem_stretched hc
  rw [Chunk.isFree, hstate]
  exact h d hd

@[simp] theorem length_stretched (n : Nat) (l : List Chunk) :
    (stretched n l).length = l.length := by
  rw [← length_handles, handles_stretched, length_handles]

theorem bytes_stretched (hne : l ≠ []) (n : Nat) : bytes (stretched n l) = bytes l + n := by
  obtain ⟨front, last, rfl⟩ := List.eq_nil_or_concat l |>.resolve_left hne
  rw [List.concat_eq_append, stretched_concat]
  simp only [bytes_append, bytes_cons, bytes_nil]
  omega

/-! ## Passes -/

/-- What a slide leaves of a hole at `base`, and where the run was: the run has
grown by `n` bytes, free chunks fill up the hole, and a free chunk takes the
place behind the chunks that the run has passed. -/
structure Refills (base : Nat) (hole mid moved : List Chunk) (n : Nat) (gap : List Chunk)
    (vacated : Chunk) : Prop where
  gapFree : ∀ c ∈ gap, c.isFree = true
  gapSized : ∀ c ∈ gap, c.Sized
  free : vacated.isFree = true
  sized : vacated.Sized
  aligned : n % Word.alignment = 0
  tiles : Tiles (base + bytes moved + n) (gap ++ (mid ++ [vacated]))
    (base + bytes hole + bytes mid + bytes moved)

/-- A pass finds a hole that nothing fits into, and leaves it behind. -/
inductive Skips : List Chunk → List Chunk → List Chunk → Prop
  | intro {before hole barrier rest : List Chunk} {f : Chunk} (busy : Busy before)
      (hhole : Hole hole) (hbarrier : Barrier (bytes hole) barrier) (hf : f.isFree = true) :
      Skips (before ++ (hole ++ (barrier ++ f :: rest))) (before ++ (hole ++ barrier)) (f :: rest)

/-- What a pass has before it, the run that it moves, by how much that run grows, what
it leaves behind and what is left to do. -/
inductive Advances (base : Nat) (r : Region) :
    List Chunk → List Chunk → Nat → Region → List Chunk → List Chunk → Prop
  | skips {todo settled todo' : List Chunk} (hskips : Skips todo settled todo') :
      Advances base r todo [] 0 r settled todo'
  | slides {before hole mid moved rest gap : List Chunk} {n : Nat} {vacated : Chunk}
      (busy : Busy before) (hhole : Hole hole) (hmid : Busy mid) (hmoved : Movable moved)
      (hrefills : Refills (base + bytes before) hole mid moved n gap vacated) {r' : Region}
      (hdown : r.MovedDown r' (bytes hole + bytes mid)
        (base + bytes before + bytes hole + bytes mid)
        (base + bytes before + bytes hole + bytes mid + bytes moved)) :
      Advances base r (before ++ (hole ++ (mid ++ (moved ++ rest)))) moved n r'
        (before ++ stretched n (moved.map (Chunk.lowered (bytes hole + bytes mid))))
        (gap ++ (mid ++ vacated :: rest))

variable {todo run settled todo' before hole mid moved rest gap : List Chunk} {vacated : Chunk}

theorem Skips.append_eq (h : Skips todo settled todo') : settled ++ todo' = todo := by
  obtain ⟨-, -, -, -⟩ := h
  simp

/-- The moved run and what refills its place tile what the hole, the passed
chunks and the run had tiled. -/
theorem Refills.tiles_after (h : Refills base hole mid moved n gap vacated) (hne : moved ≠ [])
    (htiles : Tiles base (hole ++ (mid ++ (moved ++ rest))) top) :
    Tiles base (stretched n (moved.map (Chunk.lowered (bytes hole + bytes mid))) ++
      (gap ++ (mid ++ vacated :: rest))) top := by
  rw [tiles_append, tiles_append, tiles_append] at htiles
  obtain ⟨-, -, hmoved, hrest⟩ := htiles
  have hdistance : bytes hole + bytes mid ≤ base + bytes hole + bytes mid := by omega
  have hlowered := (hmoved.lowered hdistance).stretched (by simpa using hne) n
  have hbase : base + bytes hole + bytes mid - (bytes hole + bytes mid) = base := by omega
  have htop : base + bytes hole + bytes mid + bytes moved - (bytes hole + bytes mid) + n =
      base + bytes moved + n := by omega
  rw [hbase, htop] at hlowered
  have hbytes : bytes (stretched n (moved.map (Chunk.lowered (bytes hole + bytes mid)))) =
      bytes moved + n := by
    rw [bytes_stretched (by simpa using hne), bytes_lowered]
  have hrefilled : Tiles (base + bytes moved + n) (gap ++ (mid ++ [vacated]) ++ rest) top := by
    have htop := h.tiles.top_eq
    rw [tiles_append, ← htop]
    exact ⟨h.tiles, hrest⟩
  rw [tiles_append, hbytes, ← Nat.add_assoc]
  refine ⟨hlowered, ?_⟩
  simpa using hrefilled

/-- A pass leaves no gap and no overlap. -/
theorem Advances.tiles (h : Advances base r todo run n r' settled todo')
    (htiles : Tiles base todo top) :
    Tiles base (settled ++ todo') top := by
  cases h with
  | skips hskips => rwa [hskips.append_eq]
  | slides busy hhole hmid hmoved hrefills hdown =>
      rw [List.append_assoc, tiles_append]
      rw [tiles_append] at htiles
      exact ⟨htiles.1, hrefills.tiles_after hmoved.nonempty htiles.2⟩

theorem Advances.sized (h : Advances base r todo run n r' settled todo')
    (hsized : ∀ c ∈ todo, c.Sized) :
    ∀ c ∈ settled ++ todo', c.Sized := by
  cases h with
  | skips hskips => rwa [hskips.append_eq]
  | @slides before hole mid _ rest gap n vacated busy hhole hmid hmoved hrefills r' hdown =>
      intro c hc
      rcases List.mem_append.mp hc with hc | hc
      · rcases List.mem_append.mp hc with hc | hc
        · exact hsized c (by simp [hc])
        · obtain ⟨d, hd, -, -, hsize⟩ := mem_stretched hc
          replace hsize := hsize.imp_right And.left
          obtain ⟨e, he, rfl⟩ := List.mem_map.mp hd
          have hold : e.Sized := hsized e (by simp [he])
          have haligned := hrefills.aligned
          have height : Word.alignment = 8 := rfl
          unfold Chunk.Sized at hold ⊢
          rw [height] at hold haligned ⊢
          rw [Chunk.lowered_size] at hsize
          omega
      · rcases List.mem_append.mp hc with hc | hc
        · exact hrefills.gapSized c hc
        · rcases List.mem_append.mp hc with hc | hc
          · exact hsized c (by simp [hc])
          · rcases List.mem_cons.mp hc with rfl | hc
            · exact hrefills.sized
            · exact hsized c (by simp [hc])

/-! ## What is left to do -/

theorem used_hole_append (hhole : Hole hole) (l : List Chunk) : used (hole ++ l) = used l := by
  rw [used_append, used_eq_nil hhole.free, List.nil_append]

theorem Refills.used_eq (h : Refills base hole mid moved n gap vacated) (hmid : Busy mid) :
    used (gap ++ (mid ++ vacated :: rest)) = mid ++ used rest := by
  rw [used_append, used_eq_nil h.gapFree, List.nil_append, used_append, hmid.used_eq, used_cons,
    if_pos h.free]

/-- A pass settles some chunk that is in use. -/
theorem Advances.used_settled (h : Advances base r todo run n r' settled todo') :
    0 < (used settled).length := by
  cases h with
  | skips hskips =>
      obtain ⟨busy, hhole, hbarrier, hf⟩ := hskips
      obtain ⟨p, l, rfl, -⟩ := hbarrier.pinned
      rw [used_append, used_hole_append hhole, hbarrier.busy.used_eq, List.length_append]
      simp
  | @slides before hole mid _ rest gap n vacated busy hhole hmid hmoved hrefills r' hdown =>
      have hstretched := (hmoved.busy.map_lowered (bytes hole + bytes mid)).stretched n
      have hpos := List.length_pos_of_ne_nil hmoved.nonempty
      rw [used_append, hstretched.used_eq, List.length_append, length_stretched, List.length_map]
      omega

/-- A pass leaves a free chunk to the next one: the hole that obstructs it, or the
place of the run. -/
theorem Advances.exists_free (h : Advances base r todo run n r' settled todo') :
    ∃ f ∈ todo', f.isFree = true := by
  cases h with
  | skips hskips =>
      obtain ⟨-, -, -, hf⟩ := hskips
      exact ⟨_, List.mem_cons_self, hf⟩
  | @slides before hole mid _ rest gap n vacated busy hhole hmid hmoved hrefills r' hdown =>
      exact ⟨vacated, by simp, hrefills.free⟩

/-- The chunks in use that a pass has before it are those that it settles and
those that it leaves. -/
theorem Advances.used_perm (h : Advances base r todo run n r' settled todo') :
    (handles (used settled ++ used todo')).Perm (handles (used todo)) ∧
      bytes (used settled) + bytes (used todo') = bytes (used todo) + n := by
  cases h with
  | skips hskips =>
      rw [← used_append, ← bytes_append, ← used_append, hskips.append_eq]
      exact ⟨.refl _, rfl⟩
  | @slides before hole mid _ rest gap n vacated busy hhole hmid hmoved hrefills r' hdown =>
      have hstretched := (hmoved.busy.map_lowered (bytes hole + bytes mid)).stretched n
      have hne : run.map (Chunk.lowered (bytes hole + bytes mid)) ≠ [] := by
        simpa using hmoved.nonempty
      rw [hrefills.used_eq hmid, used_append, hstretched.used_eq, used_append before,
        used_hole_append hhole, used_append mid, used_append run, hmid.used_eq,
        hmoved.busy.used_eq]
      constructor
      · simp only [handles_append, handles_stretched, handles_lowered, List.append_assoc]
        apply List.Perm.append_left _
        rw [← List.append_assoc, ← List.append_assoc]
        exact List.perm_append_comm.append_right _
      · simp only [bytes_append, bytes_stretched hne, bytes_lowered]
        omega

/-- A pass leaves fewer chunks in use to the next one. -/
theorem Advances.length_used (h : Advances base r todo run n r' settled todo') :
    (used settled).length + (used todo').length = (used todo).length ∧
      (used todo').length < (used todo).length := by
  have hlength := h.used_perm.1.length_eq
  rw [length_handles, length_handles, List.length_append] at hlength
  have hsettled := h.used_settled
  exact ⟨hlength, by omega⟩

/-- The chunks that may move. -/
def unlocked (l : List Chunk) : List Chunk := l.filter fun c => c.state = .unlocked

@[simp] theorem unlocked_append (l m : List Chunk) : unlocked (l ++ m) = unlocked l ++ unlocked m :=
  List.filter_append l m

theorem Movable.unlocked_eq (h : Movable l) : Layout.unlocked l = l :=
  List.filter_eq_self.mpr fun c hc => decide_eq_true (h.unlocked c hc)

theorem unlocked_used (l : List Chunk) : unlocked (used l) = unlocked l := by
  rw [unlocked, used, List.filter_filter]
  congr 1
  funext c
  rw [Chunk.isFree]
  cases c.state <;> rfl

/-- The chunks that may move are in use. -/
theorem unlocked_sublist_used (l : List Chunk) : (unlocked l).Sublist (used l) := by
  rw [← unlocked_used]
  exact List.filter_sublist

/-- What a pass moves is not left to do. -/
theorem Advances.unlocked_subperm (h : Advances base r todo run n r' settled todo') :
    (run ++ unlocked todo').Subperm (unlocked todo) := by
  cases h with
  | skips hskips =>
      rw [← hskips.append_eq, unlocked_append, List.nil_append]
      exact (List.sublist_append_right _ _).subperm
  | @slides before hole mid _ rest gap n vacated busy hhole hmid hmoved hrefills r' hdown =>
      have hleft : unlocked (gap ++ (mid ++ vacated :: rest)) = unlocked mid ++ unlocked rest := by
        rw [← unlocked_used, hrefills.used_eq hmid, unlocked_append, unlocked_used]
      have hbefore : unlocked (before ++ (hole ++ (mid ++ (run ++ rest)))) =
          unlocked before ++ (unlocked mid ++ (run ++ unlocked rest)) := by
        rw [unlocked_append, ← unlocked_used (hole ++ _), used_hole_append hhole, unlocked_used,
          unlocked_append, unlocked_append, hmoved.unlocked_eq]
      rw [hleft, hbefore]
      exact (List.perm_append_comm_assoc _ _ _).subperm.trans
        (List.sublist_append_right _ _).subperm

/-- A pass lets at most the last chunk that it settles grow, and leaves the chunks
that it does not settle as they are. -/
theorem Advances.origin (h : Advances base r todo run n r' settled todo')
    (link : Option Handle) :
    (∀ c ∈ used todo', c ∈ used todo) ∧
      ∀ c ∈ used settled, ∃ d ∈ used todo, d.handle = c.handle ∧
        (c.size = d.size ∨ c.size = d.size + n ∧ exit link settled = some c.handle) := by
  cases h with
  | skips hskips =>
      rw [← hskips.append_eq, used_append]
      exact ⟨fun c hc => List.mem_append_right _ hc,
        fun c hc => ⟨c, List.mem_append_left _ hc, rfl, .inl rfl⟩⟩
  | @slides before hole mid _ rest gap n vacated busy hhole hmid hmoved hrefills r' hdown =>
      have hstretched := (hmoved.busy.map_lowered (bytes hole + bytes mid)).stretched n
      rw [hrefills.used_eq hmid, used_append before, used_append before, used_hole_append hhole,
        used_append mid, used_append run, hmid.used_eq, hmoved.busy.used_eq, hstretched.used_eq]
      refine ⟨fun c hc => ?_, fun c hc => ?_⟩
      · simp only [List.mem_append] at hc ⊢
        tauto
      · rcases List.mem_append.mp hc with hc | hc
        · exact ⟨c, by simp [hc], rfl, .inl rfl⟩
        · obtain ⟨d, hd, hhandle, -, hsize⟩ := mem_stretched hc
          obtain ⟨e, he, rfl⟩ := List.mem_map.mp hd
          refine ⟨e, by simp [he], hhandle.symm,
            hsize.imp_right fun ⟨hgrown, hlast⟩ => ⟨hgrown, ?_⟩⟩
          rw [exit_append, exit_congr (handles_stretched n _), hlast, hhandle]

/-- The last chunk that a slide settles has grown by what was folded. -/
theorem Advances.exists_grown (h : Advances base r todo run n r' settled todo')
    (hne : run ≠ []) (link : Option Handle) :
    ∃ c ∈ used settled, ∃ d ∈ used todo, d.handle = c.handle ∧ c.size = d.size + n ∧
      exit link settled = some c.handle := by
  cases h with
  | skips hskips => exact absurd rfl hne
  | @slides before hole mid _ rest gap n vacated busy hhole hmid hmoved hrefills r' hdown =>
      have hstretched := (hmoved.busy.map_lowered (bytes hole + bytes mid)).stretched n
      obtain ⟨front, e, rfl⟩ := List.eq_nil_or_concat run |>.resolve_left hne
      rw [List.concat_eq_append] at hmoved hstretched ⊢
      have hlast : stretched n ((front ++ [e]).map (Chunk.lowered (bytes hole + bytes mid))) =
          front.map (Chunk.lowered (bytes hole + bytes mid)) ++
            [{ e.lowered (bytes hole + bytes mid) with size := e.size + n }] := by
        rw [List.map_append, List.map_singleton, stretched_concat, Chunk.lowered_size]
      refine ⟨{ e.lowered (bytes hole + bytes mid) with size := e.size + n }, ?_, e, ?_, rfl, rfl,
        ?_⟩
      · rw [used_append, hstretched.used_eq, hlast]
        simp
      · rw [used_append before, used_hole_append hhole, used_append mid, used_append (front ++ [e]),
          hmoved.busy.used_eq]
        simp
      · rw [hlast, exit_append, exit_append]
        rfl

/-! ## Bytes -/

/-- The bytes of the moved run arrive, and no other chunk in use is written
to. -/
theorem Advances.carries (h : Advances base r todo run n r' settled todo') {done : List Chunk}
    (hdone : Tiles 0 done base) (htodo : Tiles base todo top) :
    Carries r (done ++ todo) r' (done ++ (settled ++ todo')) := by
  refine ⟨fun c hc => ?_, ?_⟩
  · cases h with
    | skips hskips =>
        rw [hskips.append_eq]
        exact ⟨c, hc, .refl c r⟩
    | @slides before hole mid _ rest gap n vacated busy hhole hmid hmoved hrefills r' hdown =>
        rw [tiles_append, tiles_append, tiles_append, tiles_append] at htodo
        obtain ⟨hbefore, -, hpassed, hrun, hrest⟩ := htodo
        have hafter := hrefills.tiles
        rw [tiles_append, tiles_append] at hafter
        have hstretched := (hmoved.busy.map_lowered (bytes hole + bytes mid)).stretched n
        rw [used_append, used_append, used_hole_append hhole, used_append, used_append,
          hmid.used_eq, hmoved.busy.used_eq] at hc
        rw [used_append, used_append, hrefills.used_eq hmid, used_append, hstretched.used_eq]
        -- a chunk that the run is not copied over stays
        have hstay : c ∈ used done ∨ c ∈ used before ∨ c ∈ mid ∨ c ∈ used rest →
            (c.acme ≤ base + bytes before ∨ base + bytes before + bytes run ≤ c.addr) →
            ∃ c' ∈ used done ++ (used before ++
                stretched n (run.map (Chunk.lowered (bytes hole + bytes mid))) ++
                  (mid ++ used rest)), c.Becomes r r' c' := by
          intro hmem happart
          refine ⟨c, ?_, .of_unchanged fun i hi => ?_⟩
          · simp only [List.mem_append]
            tauto
          · rw [hdown.byte, if_neg]
            have hholds := hi
            unfold Chunk.Holds at hholds
            omega
        simp only [List.mem_append] at hc
        rcases hc with hc | hc | hc | hc | hc
        · have hbounds := hdone.bounds (mem_used.mp hc).1
          exact hstay (by tauto) (.inl (by omega))
        · have hbounds := hbefore.bounds (mem_used.mp hc).1
          exact hstay (by tauto) (.inl hbounds.2)
        · have hbounds := hafter.2.1.bounds hc
          exact hstay (by tauto) (.inr (by omega))
        · have hbounds := hrun.bounds hc
          obtain ⟨c', hc', hhandle, hstate, haddr, hsize⟩ := exists_mem_stretched
            (List.mem_map_of_mem (f := Chunk.lowered (bytes hole + bytes mid)) hc) n
          refine ⟨c', by simp [hc'], hhandle, hstate, ?_, hsize, fun hpinned => ?_, fun i hi => ?_⟩
          · rw [haddr, Chunk.lowered_addr]
            exact Nat.sub_le _ _
          · rw [hmoved.unlocked c hc] at hpinned
            exact absurd hpinned (by decide)
          · unfold Chunk.acme at hbounds
            have hsource : c.addr - (bytes hole + bytes mid) + i + (bytes hole + bytes mid) =
                c.addr + i := by omega
            rw [haddr, Chunk.lowered_addr, hdown.byte, hsource, if_pos ⟨by omega, by omega⟩]
        · have hbounds := hrest.bounds (mem_used.mp hc).1
          exact hstay (by tauto) (.inr (by omega))
  · rw [used_append, used_append, used_append, handles_append, handles_append (used done)]
    exact h.used_perm.1.append_left _

theorem Advances.size (h : Advances base r todo run n r' settled todo') : r'.size = r.size := by
  cases h with
  | skips => rfl
  | slides busy hhole hmid hmoved hrefills hdown => exact hdown.size

/-! ## Free chunks behind the cursor -/

/-- A free chunk is followed by another one or by a pinned one. -/
def Capped (l : List Chunk) : Prop :=
  ∀ before f after, l = before ++ f :: after → f.isFree = true →
    ∃ d ∈ after.head?, d.isFree = true ∨ d.state.isPinned = true

theorem Busy.capped (h : Busy l) : Capped l := by
  rintro before f after rfl hf
  rw [h f (by simp)] at hf
  exact absurd hf (by simp)

theorem Capped.append (hl : Capped l) (hm : Capped m) : Capped (l ++ m) := by
  intro before f after heq hf
  rcases List.append_eq_append_iff.mp heq with ⟨k, rfl, rfl⟩ | ⟨k, hk, hafter⟩
  · exact hm k f after rfl hf
  · cases k with
    | nil =>
        rw [List.nil_append] at hafter
        exact hm [] f after hafter.symm hf
    | cons e k =>
        obtain ⟨rfl, rfl⟩ : f = e ∧ after = k ++ m := by simpa using hafter
        obtain ⟨d, hd, hcap⟩ := hl before f k hk hf
        refine ⟨d, ?_, hcap⟩
        cases k with
        | nil => exact absurd hd (by simp)
        | cons e k => exact hd

/-- A hole is followed by the pinned chunk of its barrier. -/
theorem Barrier.capped {room : Nat} {barrier : List Chunk} (h : Barrier room barrier)
    (hhole : ∀ c ∈ hole, c.isFree = true) : Capped (hole ++ barrier) := by
  induction hole with
  | nil => exact h.busy.capped
  | cons c hole ih =>
      intro before f after heq hf
      cases before with
      | nil =>
          obtain ⟨rfl, rfl⟩ : c = f ∧ hole ++ barrier = after := by simpa using heq
          cases hole with
          | nil =>
              obtain ⟨p, l, rfl, hpinned⟩ := h.pinned
              exact ⟨p, rfl, .inr hpinned⟩
          | cons d hole => exact ⟨d, rfl, .inl (hhole d (by simp))⟩
      | cons b before =>
          refine ih (fun d hd => hhole d (by simp [hd])) before f after ?_ hf
          simpa using (List.cons.inj heq).2

theorem Skips.capped (h : Skips todo settled todo') : Capped settled := by
  obtain ⟨busy, hhole, hbarrier, -⟩ := h
  exact busy.capped.append (hbarrier.capped hhole.free)

theorem Advances.capped (h : Advances base r todo run n r' settled todo') : Capped settled := by
  cases h with
  | skips hskips => exact hskips.capped
  | @slides before hole mid _ rest gap n vacated busy hhole hmid hmoved hrefills r' hdown =>
      exact busy.capped.append
        ((hmoved.busy.map_lowered (bytes hole + bytes mid)).stretched n).capped

end Layout

end CompactingArena
