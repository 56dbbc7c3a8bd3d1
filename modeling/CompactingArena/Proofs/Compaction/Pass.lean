import CompactingArena.Proofs.Arena.Invariant
import CompactingArena.Proofs.Compaction.Advance
/-!
# One pass of a compaction

A pass carries out what the search has found.  Its result is a layout that
`Advances` from the one before it.
-/

namespace CompactingArena

open Layout

variable {low hole mid moved rest : List Chunk} {f m : Chunk} {spare : List Handle}
  {base top distance floor : Nat}

namespace HeaderTable

variable {t : HeaderTable} {region : Region}

/-- Moving a run and giving up its hole leaves the parts of a chain that are to
be joined. -/
theorem Lists.clear
    (h : t.Lists t.chain (low ++ (f :: hole ++ (mid ++ (m :: moved ++ rest)))) none)
    (region : Region) (distance : Nat)
    (hkept : t.Kept (handles (low ++ (f :: hole ++ (mid ++ (m :: moved ++ rest))))) spare)
    (htiles : Tiles base (m :: moved) top) (hdistance : distance ≤ base) (htop : top ≤ region.size)
    (hlive : ∀ c ∈ f :: hole, c.addr < Record.unset) (hroom : floor + t.footprint ≤ t.high) :
    ∃ t₁ t₂ region' s spare',
      CompactingArena.moveRun distance (tip m.handle moved) t.walkLimit (some m.handle) t region =
        pure (t₁, region') ∧
      CompactingArena.releaseRun (tip f.handle hole) t.walkLimit (some f.handle) t₁ = pure t₂ ∧
      region.MovedDown region' distance base top ∧
      (t₂.linkAfter (exit none low) (some m.handle)).Cleared low
        ((m :: moved).map (Chunk.lowered distance)) mid rest (s :: spare') floor t.high := by
  have hlength := hkept.length_eq
  simp only [length_handles, List.length_append, List.length_cons] at hlength
  have hlimit : t.walkLimit = 2 * (t.capacity + 1) := rfl
  have hnodup := hkept.nodup_held
  simp only [handles_append, List.nodup_append', List.disjoint_append_right] at hnodup
  obtain ⟨hnlow, ⟨hnhole, ⟨hnmid, ⟨hnmoved, hnrest, hmovedrest⟩, hmidmoved, hmidrest⟩, hholemid,
    hholemoved, hholerest⟩, hlowhole, hlowmid, hlowmoved, hlowrest⟩ := hnodup
  obtain ⟨hlow, hpart⟩ := lists_append.mp h
  obtain ⟨hhole, hpart⟩ := lists_append.mp hpart
  obtain ⟨hmid, hpart⟩ := lists_append.mp hpart
  obtain ⟨hmoved, hrest⟩ := lists_append.mp hpart
  rw [entry_append, entry_cons] at hhole hlow
  rw [entry_append] at hmid hhole
  simp only [entry_append, entry_cons] at hlow hhole hmid hmoved
  -- the run moves
  obtain ⟨t₁, region', hmove, hmoved₁, hrelinked, hchain₁, hdown⟩ :=
    hmoved.moveRun hnmoved htiles hdistance htop (show _ ≤ t.walkLimit by omega)
  have hkept₁ : t₁.Kept (handles (f :: hole) ++ handles (low ++ (mid ++ (m :: moved ++ rest))))
      spare := by
    refine ((hrelinked.mono ?_).kept hkept).perm ?_
    · intro g hg
      simp only [handles_append, List.mem_append]
      tauto
    · simp only [handles_append]
      exact List.perm_append_comm_assoc _ _ _
  -- the records of the hole are given up
  obtain ⟨t₂, spare₂, hrelease, hkept₂, hspare₂, hother₂, hcapacity₂, hchain₂, hhigh₂⟩ :=
    (hrelinked.lists hhole hholemoved).releaseRun hkept₁ hlive (show _ ≤ t.walkLimit by omega)
  obtain ⟨s, spare', rfl⟩ : ∃ s spare', spare₂ = s :: spare' :=
    List.exists_cons_of_ne_nil fun hnil => by simp [hnil] at hspare₂
  have hmoved₂ : t₂.Lists _ _ _ := hmoved₁.frame hother₂ (by
    rw [handles_lowered]
    exact hholemoved.symm)
  have hlow₂ : t₂.Lists _ _ _ := (hrelinked.lists hlow hlowmoved).frame hother₂ hlowhole
  have hmid₂ : t₂.Lists _ _ _ := (hrelinked.lists hmid hmidmoved).frame hother₂ hholemid.symm
  have hrest₂ : t₂.Lists _ _ _ :=
    (hrelinked.lists hrest hmovedrest.symm).frame hother₂ hholerest.symm
  -- the chain is led past the hole
  rw [← hchain₁, ← hchain₂] at hlow₂
  obtain ⟨hbefore, hlinked⟩ := hlow₂.linkAfter hnlow (some m.handle)
  have hcapacity : (t₂.linkAfter (exit none low) (some m.handle)).capacity = t.capacity :=
    hlinked.capacity.trans (hcapacity₂.trans hrelinked.capacity)
  refine ⟨t₁, t₂, region', s, spare', hmove, hrelease, hdown, hbefore, ?_, ?_, ?_, ?_, ?_, ?_⟩
  · apply hlinked.lists hmoved₂
    rw [handles_lowered]
    exact hlowmoved.symm
  · exact hlinked.lists hmid₂ hlowmid.symm
  · exact hlinked.lists hrest₂ hlowrest.symm
  · refine ((hlinked.mono ?_).kept hkept₂).perm ?_
    · rw [handles_append]
      exact List.subset_append_left _ _
    · simp only [handles_append, handles_lowered]
      exact List.Perm.append_left _ (List.perm_append_comm_assoc _ _ _)
  · rw [hlinked.high, hhigh₂, hrelinked.high]
  · unfold footprint at hroom ⊢
    rwa [hcapacity]

end HeaderTable

namespace Arena

variable {a : Arena}

/-- Ends a slide once the chain is joined. -/
def finishSlide (job : Slide) (distance holeAddr : Nat) :
    Except Violation Unit × Arena → Act (Except Violation Pass × Arena)
  | (.error violation, a) => return (.error violation, a)
  | (.ok (), a) => do
      Act.log (.slid job.moved.size distance holeAddr (!decide (job.beforeMoved = job.hole.last)))
      return (.ok (.slid job.moved.last job.moved.size), a)

theorem slide_eq {job : Slide} {rf rm : Record} {after : Option Handle} {t₁ t₂ : HeaderTable}
    {region : Region} (hhole : a.headers.get job.hole.first = pure rf)
    (hmoved : a.headers.get job.moved.first = pure rm)
    (hsub : Word.sub rm.addr rf.addr = pure distance) (hne : distance ≠ 0)
    (hafter : a.headers.next job.moved.last = pure after)
    (hmove : moveRun distance job.moved.last a.headers.walkLimit (some job.moved.first) a.headers
      a.region = pure (t₁, region))
    (hrelease : releaseRun job.hole.last a.headers.walkLimit (some job.hole.first) t₁ = pure t₂) :
    a.slide job =
      (if job.beforeMoved = job.hole.last then
        Arena.relinkAdjacent
          { a with headers := t₂.linkAfter job.beforeHole (some job.moved.first), region } job
          rf.addr after
      else
        Arena.relinkPast
          { a with headers := t₂.linkAfter job.beforeHole (some job.moved.first), region } job
          rf.addr rm.addr after) >>=
      finishSlide job distance rf.addr := by
  simp only [Arena.slide, hhole, hmoved, hsub, if_neg hne, hafter, hmove, hrelease, pure_bind]
  by_cases hadjacent : job.beforeMoved = job.hole.last
  · rw [if_pos hadjacent, if_pos hadjacent]
    congr 1
    funext ⟨linked, b⟩
    cases linked <;> rfl
  · rw [if_neg hadjacent, if_neg hadjacent]
    congr 1
    funext ⟨linked, b⟩
    cases linked <;> rfl

/-- A slide moves the run, gives the hole up and joins the chain again. -/
theorem Laid.slide
    (hlaid : a.Laid (low ++ (f :: hole ++ (mid ++ (m :: moved ++ rest)))) spare)
    (htiles : Tiles 0 (low ++ (f :: hole ++ (mid ++ (m :: moved ++ rest)))) a.memoryHigh)
    (afterHole beforeMoved : Handle) :
    ∃ headers region s spare',
      a.region.MovedDown region (bytes (f :: hole) + bytes mid)
        (bytes low + bytes (f :: hole) + bytes mid)
        (bytes low + bytes (f :: hole) + bytes mid + bytes (m :: moved)) ∧
      headers.Cleared low ((m :: moved).map (Chunk.lowered (bytes (f :: hole) + bytes mid))) mid
        rest (s :: spare') a.memoryHigh a.headers.high ∧
      ∀ job : Slide, job = ⟨exit none low, runOf f hole, afterHole, beforeMoved, runOf m moved⟩ →
        a.slide job =
          (if beforeMoved = tip f.handle hole then
            Arena.relinkAdjacent { a with headers, region } job (bytes low) (entry rest none)
          else
            Arena.relinkPast { a with headers, region } job (bytes low)
              (bytes low + bytes (f :: hole) + bytes mid) (entry rest none)) >>=
          finishSlide job (bytes (f :: hole) + bytes mid) (bytes low) := by
  have hpos : 0 < bytes (f :: hole) := by
    have hf := (hlaid.sized f (by simp)).pos
    rw [bytes_cons]
    omega
  have hbound := hlaid.memoryHigh_le
  have hroom := hlaid.room
  have hlimit := hlaid.size_lt_unset
  have hsplit := htiles
  rw [tiles_append, tiles_append, tiles_append, tiles_append, Nat.zero_add] at hsplit
  obtain ⟨-, hhole, -, hmoved, hrest⟩ := hsplit
  have htop := hrest.top_eq
  have hfaddr : f.addr = bytes low := hhole.1
  have hmaddr : m.addr = bytes low + bytes (f :: hole) + bytes mid := hmoved.1
  obtain ⟨t₁, t₂, region', s, spare', hmove, hrelease, hdown, hcleared⟩ :=
    hlaid.chained.clear a.region (bytes (f :: hole) + bytes mid) hlaid.kept hmoved (by omega)
      (by omega) (fun c hc => by
        have hacme := hlaid.acme_le (c := c) (by simp only [List.mem_append, hc, true_or, or_true])
        unfold Chunk.acme at hacme
        omega) (by rw [hlaid.high]; exact hroom)
  refine ⟨_, region', s, spare', hdown, hcleared, ?_⟩
  rintro job rfl
  obtain ⟨rf, hgetf, hdescf⟩ := hlaid.chained.get (c := f) (by simp)
  obtain ⟨rm, hgetm, hdescm⟩ := hlaid.chained.get (c := m) (by simp)
  have hnext : a.headers.next (tip m.handle moved) = pure (entry rest none) := by
    have hpart := (HeaderTable.lists_append.mp hlaid.chained).2
    have hpart := (HeaderTable.lists_append.mp hpart).2
    exact (HeaderTable.lists_append.mp hpart).2.next_tip
  have hsub : Word.sub rm.addr rf.addr = pure (bytes (f :: hole) + bytes mid) := by
    rw [hdescm.addr, hdescf.addr, hmaddr, hfaddr, Word.sub_eq (by omega)]
    congr 1
    omega
  rw [Arena.slide_eq (HeaderTable.get_eq hgetf) (HeaderTable.get_eq hgetm) hsub (by omega) hnext
      hmove
    hrelease, hdescf.addr, hdescm.addr, hfaddr, hmaddr]
  rfl

variable {done todo run settled todo' before : List Chunk} {n : Nat} {cursor : Option Handle}

/-- A chain that is joined around the layout that a pass leads to is laid. -/
theorem Laid.advance {b : Arena} {spare' : List Handle} (hlaid : a.Laid (done ++ todo) spare)
    (htiles : Tiles 0 (done ++ todo) a.memoryHigh)
    (hadvances : Advances (bytes done) a.region todo run n b.region settled todo')
    (hjoined : b.headers.Joined (done ++ (settled ++ todo')) spare' a.memoryHigh a.headers.high)
    (hhigh : b.memoryHigh = a.memoryHigh) :
    b.Laid (done ++ (settled ++ todo')) spare' where
  chained := hjoined.lists
  kept := hjoined.kept
  fills := by
    rw [tiles_append, Nat.zero_add] at htiles
    rw [hhigh]
    apply Tiles.fills
    rw [tiles_append, Nat.zero_add]
    exact ⟨htiles.1, hadvances.tiles htiles.2⟩
  sized := by
    intro c hc
    rcases List.mem_append.mp hc with hc | hc
    · exact hlaid.sized c (List.mem_append_left _ hc)
    · exact hadvances.sized (fun d hd => hlaid.sized d (List.mem_append_right _ hd)) c hc
  high := by rw [hjoined.high, hadvances.size, hlaid.high]
  room := by
    rw [hhigh, hadvances.size, ← hlaid.high]
    exact hjoined.room
  least := hadvances.size ▸ hlaid.least
  limit := hadvances.size ▸ hlaid.limit

/-- A run of chunks is as large and as aligned as a chunk. -/
theorem sized_bytes {l : List Chunk} (hne : l ≠ []) (hsized : ∀ c ∈ l, c.Sized) :
    Trailer.bytes ≤ bytes l ∧ bytes l % Word.alignment = 0 := by
  have height : Word.alignment = 8 := rfl
  rw [height]
  induction l with
  | nil => exact absurd rfl hne
  | cons c l ih =>
      obtain ⟨hleast, haligned⟩ := hsized c (by simp)
      rw [height] at haligned
      rw [bytes_cons]
      rcases l with - | ⟨d, l⟩
      · simpa using ⟨hleast, haligned⟩
      · obtain ⟨-, haligned'⟩ := ih (by simp) fun e he => hsized e (by simp [he])
        omega

/-- A prospect of chunks to slide. -/
def Slidable : Prospect → Prop
  | .nothing | .obstructed .. => False
  | .adjacent .. | .past .. => True

/-- A pass slides a run, which grows by `n` bytes. -/
structure Slides (a a' : Arena) (done todo : List Chunk) (next : Handle)
    (prospect : Prospect) (n : Nat) (settled todo' : List Chunk) (spare' : List Handle) :
    Prop where
  sees : Sees todo prospect
  slidable : Slidable prospect
  advances : Advances (bytes done) a.region todo prospect.run n a'.region settled todo'
  moves : prospect.run ≠ []
  laid : a'.Laid (done ++ (settled ++ todo')) spare'
  grown : a.counters.Grown n a'.counters
  /-- Only where a hole is split there may be one chunk more, unless what is left of the
  hole is folded. -/
  few : (settled ++ todo').length + (if n < Trailer.bytes then 0 else 1) ≤
    todo.length + prospect.splits.toNat
  /-- What could be a free chunk is folded only if there is no record for it. -/
  spent : n < Trailer.bytes ∨ prospect.splits = true ∧ a'.headers.Spent a'.memoryHigh
  cursor : exit none (done ++ settled) = some next
  frame : a' = { a with headers := a'.headers, region := a'.region, counters := a'.counters }

/-- What a pass that carried a prospect out has led to. -/
def Slid (a a' : Arena) (done todo : List Chunk) (next : Handle)
    (prospect : Prospect) : Prop :=
  ∃ n settled todo' spare', Slides a a' done todo next prospect n settled todo' spare'

theorem Laid.slid {a' : Arena} {next : Handle} {prospect : Prospect} (spare' : List Handle)
    (hlaid : a.Laid (done ++ todo) spare) (htiles : Tiles 0 (done ++ todo) a.memoryHigh)
    (hsees : Sees todo prospect) (hslidable : Slidable prospect)
    (hadvances : Advances (bytes done) a.region todo prospect.run n a'.region settled todo')
    (hmoves : prospect.run ≠ [])
    (hfew : (settled ++ todo').length + (if n < Trailer.bytes then 0 else 1) ≤
      todo.length + prospect.splits.toNat)
    (hjoined : a'.headers.Joined (done ++ (settled ++ todo')) spare' a.memoryHigh a.headers.high)
    (hgrown : a.counters.Grown n a'.counters)
    (hspent : n < Trailer.bytes ∨ prospect.splits = true ∧ a'.headers.Spent a.memoryHigh)
    (hnext : exit none (done ++ settled) = some next)
    (ha' : a' = { a with
      headers := a'.headers, region := a'.region, counters := a'.counters }) :
    Slid a a' done todo next prospect := by
  have hhigh : a'.memoryHigh = a.memoryHigh := by rw [ha']
  exact ⟨n, settled, todo', spare', hsees, hslidable, hadvances, hmoves,
    hlaid.advance htiles hadvances hjoined hhigh, hgrown, hfew, hhigh ▸ hspent, hnext, ha'⟩

theorem bytes_pos {l : List Chunk} (hne : l ≠ []) (hsized : ∀ c ∈ l, c.Sized) : 0 < bytes l :=
  Nat.lt_of_lt_of_le (by decide) (sized_bytes hne hsized).1

/-- The run next to a hole and the hole change places. -/
theorem Laid.slide_adjacent {beforeHole : Option Handle} {afterHole : Handle}
    (hlaid : a.Laid (done ++ (before ++ (f :: hole ++ (m :: moved ++ rest)))) spare)
    (htiles : Tiles 0 (done ++ (before ++ (f :: hole ++ (m :: moved ++ rest)))) a.memoryHigh)
    (hbusy : Busy before) (hhole : Hole (f :: hole)) (hmoved : Movable (m :: moved))
    (hrest : ∀ c ∈ rest.head?, c.state ≠ .unlocked)
    (hbefore : beforeHole = exit none (done ++ before)) :
    ∃ a', (a.slide ⟨beforeHole, runOf f hole, afterHole, tip f.handle hole,
        runOf m moved⟩).Yields (.ok (.slid (tip m.handle moved) (bytes (m :: moved))), a') ∧
      Slid a a' done (before ++ (f :: hole ++ (m :: moved ++ rest))) (tip m.handle moved)
        (.adjacent before (f :: hole) (m :: moved) rest) := by
  subst hbefore
  have hlaid' := hlaid
  have htiles' := htiles
  rw [← List.append_assoc] at hlaid' htiles'
  obtain ⟨headers, region, s, spare', hdown, hcleared, hslide⟩ :=
    Laid.slide (show a.Laid (done ++ before ++ (f :: hole ++ ([] ++ (m :: moved ++ rest)))) spare
      from hlaid') htiles' afterHole (tip f.handle hole)
  have hbound := hlaid.memoryHigh_le
  have hlimit := hlaid.size_lt_modulus
  have htop := htiles'.top_eq
  simp only [bytes_append, bytes_nil, Nat.add_zero, Nat.zero_add] at hdown htop hslide
  set job : Slide := ⟨exit none (done ++ before), runOf f hole, afterHole, tip f.handle hole,
    runOf m moved⟩ with hjob
  obtain ⟨g, spare'', a', hrelink, hjoined, hgrown, ha'⟩ :=
    relinkAdjacent_eq (a := { a with headers, region }) job (bytes done + bytes before)
      hcleared (tip_lowered _ m moved).symm (by
        change _ + bytes (m :: moved) < _
        omega)
  have hregion : a'.region = region := by rw [ha']
  have hadvances : Advances (bytes done) a.region (before ++ (f :: hole ++ (m :: moved ++ rest)))
      (m :: moved) 0 a'.region
      (before ++ stretched 0 ((m :: moved).map (Chunk.lowered (bytes (f :: hole) + bytes []))))
      ([] ++ ([] ++ ⟨g, bytes done + bytes before + bytes (m :: moved), bytes (f :: hole), .free⟩ ::
        rest)) := by
    refine .slides hbusy hhole (show Busy [] by simp [Busy]) hmoved
      ⟨by simp, by simp, rfl, ?_, rfl, ?_⟩ ?_
    · exact sized_bytes hhole.nonempty fun c hc => hlaid.sized c (by
        simp only [List.mem_append, hc, true_or, or_true])
    · refine ⟨rfl, ?_⟩
      simp only [bytes_nil, tiles_nil]
      omega
    · rw [hregion]
      simpa using hdown
  have hlayout : done ++ (before ++ stretched 0
      ((m :: moved).map (Chunk.lowered (bytes (f :: hole) + bytes []))) ++ ([] ++ ([] ++
        ⟨g, bytes done + bytes before + bytes (m :: moved), bytes (f :: hole), .free⟩ :: rest))) =
      done ++ before ++ ((m :: moved).map (Chunk.lowered (bytes (f :: hole))) ++
        ⟨g, bytes done + bytes before + bytes (m :: moved), bytes (f :: hole), .free⟩ :: rest) := by
    simp
  refine ⟨a', ?_, hlaid.slid spare'' htiles (.adjacent hbusy hhole hmoved hrest) trivial hadvances
    (List.cons_ne_nil _ _) ?_ ?_ hgrown (.inl (by decide)) ?_ ?_⟩
  · rw [hslide job rfl, if_pos trivial]
    exact hrelink.bind ((Act.yields_log _).bind (Act.yields_pure _))
  · rw [if_pos (by decide)]
    simp only [List.length_append, List.length_cons, length_stretched, List.length_map,
      List.length_nil]
    omega
  · rw [hlayout]
    exact hjoined
  · rw [← List.append_assoc, exit_append, exit_congr (m := m :: moved) (by simp), exit_cons]
  · rw [ha']

/-- A run that moves past a barrier leaves room for a free chunk where it was, and
fills the hole together with what is kept of it. -/
theorem Leaves.refills {gap : List Chunk} {g : Handle} (h : Leaves (base + bytes moved)
      (bytes hole - bytes moved) n gap) (hne : moved ≠ [])
    (hfits : bytes moved ≤ bytes hole) (hsized : ∀ c ∈ hole ++ moved, c.Sized)
    (hmid : Tiles (base + bytes hole) mid (base + bytes hole + bytes mid)) :
    Refills base hole mid moved n gap
      ⟨g, base + bytes hole + bytes mid, bytes moved, .free⟩ := by
  have hmovedSized := sized_bytes hne fun c hc => hsized c (List.mem_append_right _ hc)
  have hholeSized := sized_bytes (l := hole) (by
    rintro rfl
    rw [bytes_nil] at hfits
    have hleast : Trailer.bytes = 16 := rfl
    omega) fun c hc => hsized c (List.mem_append_left _ hc)
  have height : Word.alignment = 8 := rfl
  rw [height] at hmovedSized hholeSized
  have hlast : Tiles (base + bytes hole) (mid ++ [⟨g, base + bytes hole + bytes mid, bytes moved,
      .free⟩]) (base + bytes hole + bytes mid + bytes moved) :=
    tiles_append.mpr ⟨hmid, rfl, rfl⟩
  cases h with
  | folded =>
      refine ⟨by simp, by simp, rfl, hmovedSized, ?_, ?_⟩
      · rw [height]
        omega
      · rw [show base + bytes moved + (bytes hole - bytes moved) = base + bytes hole by omega]
        exact hlast
  | spared g' hleast =>
      refine ⟨by simp [Chunk.isFree, ChunkState.isFree], ?_, rfl, hmovedSized, rfl, rfl, ?_⟩
      · intro c hc
        obtain rfl := List.mem_singleton.mp hc
        refine ⟨hleast, ?_⟩
        rw [height]
        simp only
        omega
      · rw [Nat.add_zero]
        rw [show base + bytes moved + (bytes hole - bytes moved) = base + bytes hole by omega]
        exact hlast

/-- The bytes of a hole are not in use, and so can be added to those that are. -/
theorem Accounts.add_hole_le {counters : Counters} {top : Nat}
    (haccounts : Accounts counters (low ++ (hole ++ rest)))
    (htiles : Tiles 0 (low ++ (hole ++ rest)) top) (hhole : Hole hole) :
    counters.allocatedBytes + Layout.bytes hole ≤ top := by
  have hlow := bytes_used_le low
  have hrest := bytes_used_le rest
  rw [haccounts.bytes, used_append, used_hole_append hhole, bytes_append, htiles.top_eq,
    bytes_append, bytes_append]
  omega

theorem tip_ne_tip {p : Chunk} {k : List Chunk}
    (hnodup : (handles (low ++ (f :: hole ++ (p :: k ++ rest)))).Nodup) :
    tip p.handle k ≠ tip f.handle hole := by
  rw [handles_append, List.nodup_append, handles_append (f :: hole), List.nodup_append] at hnodup
  obtain ⟨-, ⟨-, -, hapart⟩, -⟩ := hnodup
  have hmem : tip p.handle k ∈ handles (p :: k ++ rest) := by
    rw [handles_append]
    exact List.mem_append_left _ (tip_mem p k)
  exact (hapart _ (tip_mem f hole) _ hmem).symm

/-- The run behind a barrier moves past it. -/
theorem Laid.slide_past {p : Chunk} {k : List Chunk} {beforeHole : Option Handle}
    (hlaid : a.Laid (done ++ (before ++ (f :: hole ++ (p :: k ++ (m :: moved ++ rest))))) spare)
    (htiles : Tiles 0 (done ++ (before ++ (f :: hole ++ (p :: k ++ (m :: moved ++ rest)))))
      a.memoryHigh)
    (haccounts : Accounts a.counters
      (done ++ (before ++ (f :: hole ++ (p :: k ++ (m :: moved ++ rest))))))
    (hbusy : Busy before) (hhole : Hole (f :: hole))
    (hbarrier : Barrier (bytes (f :: hole)) (p :: k)) (hmoved : Movable (m :: moved))
    (hfits : bytes (m :: moved) ≤ bytes (f :: hole))
    (hrest : ∀ c ∈ rest.head?,
      c.state = .unlocked → bytes (f :: hole) < bytes (m :: moved) + c.size)
    (hbefore : beforeHole = exit none (done ++ before)) :
    Act.Agrees (a.slide ⟨beforeHole, runOf f hole, p.handle, tip p.handle k, runOf m moved⟩)
      (fun (_, a') => a.counters.Overdrawn a'.counters)
      fun (result, a') => result = .ok (.slid (tip m.handle moved) (bytes (m :: moved))) ∧
        Slid a a' done (before ++ (f :: hole ++ (p :: k ++ (m :: moved ++ rest))))
          (tip m.handle moved) (.past before (f :: hole) (p :: k) (m :: moved) rest) := by
  subst hbefore
  have hlaid' := hlaid
  have htiles' := htiles
  rw [← List.append_assoc] at hlaid' htiles'
  obtain ⟨headers, region, s, spare', hdown, hcleared, hslide⟩ :=
    Laid.slide hlaid' htiles' p.handle (tip p.handle k)
  have hbound := hlaid.memoryHigh_le
  have hlimit := hlaid.size_lt_modulus
  have htop := htiles'.top_eq
  have hallocated : a.counters.allocatedBytes + bytes (f :: hole) ≤ a.memoryHigh := by
    rw [← List.append_assoc] at haccounts
    exact haccounts.add_hole_le htiles' hhole
  simp only [bytes_append, Nat.zero_add] at hdown htop hslide
  set job : Slide := ⟨exit none (done ++ before), runOf f hole, p.handle, tip p.handle k,
    runOf m moved⟩ with hjob
  have hrelink := agrees_relinkPast (a := { a with headers, region }) job
    (bytes done + bytes before)
    (bytes done + bytes before + bytes (f :: hole) + bytes (p :: k)) hcleared
    (tip_lowered _ m moved).symm rfl rfl
    (bytes_lowered _ (m :: moved)).symm hfits (by
      change _ + bytes (f :: hole) < _
      omega) (by
      change a.counters.allocatedBytes + bytes (f :: hole) < _
      omega)
  rw [hslide job rfl, if_neg (tip_ne_tip hlaid'.nodup_handles)]
  apply hrelink.bind
  rintro ⟨linked, a'⟩ ⟨hlinked, g, n, gap, spare'', hleaves, hspent, hjoined, hgrown, ha'⟩
  subst hlinked
  have hregion : a'.region = region := by rw [ha']
  have hmidTiles : Tiles (bytes done + bytes before + bytes (f :: hole)) (p :: k)
      (bytes done + bytes before + bytes (f :: hole) + bytes (p :: k)) := by
    obtain ⟨-, hpart⟩ := tiles_append.mp htiles'
    obtain ⟨-, hpart⟩ := tiles_append.mp hpart
    have hpassed := (tiles_append.mp hpart).1
    rwa [bytes_append, Nat.zero_add] at hpassed
  have hadvances : Advances (bytes done) a.region
      (before ++ (f :: hole ++ (p :: k ++ (m :: moved ++ rest)))) (m :: moved) n a'.region
      (before ++
        stretched n ((m :: moved).map (Chunk.lowered (bytes (f :: hole) + bytes (p :: k)))))
      (gap ++ (p :: k ++ ⟨g, bytes done + bytes before + bytes (f :: hole) + bytes (p :: k),
        bytes (m :: moved), .free⟩ :: rest)) := by
    refine .slides hbusy hhole hbarrier.busy hmoved ?_ (hregion ▸ hdown)
    refine Leaves.refills hleaves hmoved.nonempty hfits (fun c hc => hlaid.sized c ?_) hmidTiles
    rcases List.mem_append.mp hc with hc | hc
    · simp only [List.mem_append, hc, true_or, or_true]
    · simp only [List.mem_append, hc, true_or, or_true]
  apply Act.Agrees.bind_yields (Act.yields_log _)
  have hgap : gap.length + (if n < Trailer.bytes then 0 else 1) =
      (Prospect.past before (f :: hole) (p :: k) (m :: moved) rest).splits.toNat :=
    hleaves.length_add
  refine .of_pure ⟨⟨rfl, hlaid.slid spare'' htiles (.past hbusy hhole hbarrier hmoved hfits hrest)
    trivial hadvances (List.cons_ne_nil _ _) ?_ ?_ hgrown ?_ ?_ ?_⟩, id⟩
  · simp only [List.length_append, List.length_cons, length_stretched, List.length_map]
    omega
  · rw [List.append_assoc before, ← List.append_assoc done before]
    exact hjoined
  · by_cases hsmall : n < Trailer.bytes
    · exact .inl hsmall
    · have hone :=
        Bool.toNat_le (Prospect.past before (f :: hole) (p :: k) (m :: moved) rest).splits
      rw [if_neg hsmall] at hgap
      exact .inr ⟨Bool.toNat_eq_one.mp (by omega), hspent.resolve_left hsmall⟩
  · rw [← List.append_assoc, exit_append, exit_congr (m := m :: moved) (by simp), exit_cons]
  · rw [ha']

/-- What a pass leads to. -/
def Passed (a : Arena) (done todo : List Chunk) :
    Except Violation Pass × Arena → Prop
  | (.ok .done, a') => a' = a ∧ Sees todo .nothing
  | (.ok (.skipped next), a') =>
      a' = a ∧ ∃ settled todo', Skips todo settled todo' ∧ exit none (done ++ settled) = some next
  | (.ok (.slid next bytes), a') => ∃ prospect, Slid a a' done todo next prospect ∧
      bytes = Layout.bytes prospect.run
  | (.error _, _) => False

theorem Laid.startOf (hlaid : a.Laid (done ++ todo) spare) :
    a.headers.startOf (exit none done) = pure (entry todo none) := by
  have hchained := hlaid.chained
  cases done with
  | nil => exact congrArg pure hchained.start_eq
  | cons c done =>
      rw [exit_cons]
      exact hchained.next_tip

/-- The search after the cursor finds what there is to see. -/
theorem Laid.findSlide {prospect : Prospect} (hlaid : a.Laid (done ++ todo) spare)
    (htiles : Tiles 0 (done ++ todo) a.memoryHigh) (hsees : Sees todo prospect) :
    ∃ search, a.headers.findSlide (exit none done) = pure search ∧
      Finds (exit none done) prospect search := by
  have hlists := (HeaderTable.lists_append.mp hlaid.chained).2
  have hlength := hlaid.length_le
  have hbound := hlaid.memoryHigh_le
  have hlimit := hlaid.size_lt_modulus
  have htop := htiles.top_eq
  rw [bytes_append] at htop
  rw [List.length_append] at hlength
  exact hlists.findSlide hlaid.startOf (by omega) (by omega)
    (fun c hc => (hlaid.sized c (List.mem_append_right _ hc)).pos) hsees

/-- A pass carries out what there is to see after the cursor. -/
theorem Laid.compactionPass (hlaid : a.Laid (done ++ todo) spare)
    (htiles : Tiles 0 (done ++ todo) a.memoryHigh)
    (haccounts : Accounts a.counters (done ++ todo)) :
    Act.Agrees (a.compactionPass (exit none done))
      (fun (_, a') => a.counters.Overdrawn a'.counters) (Passed a done todo) := by
  obtain ⟨prospect, hsees⟩ := exists_sees todo
  obtain ⟨search, hfind, hfinds⟩ := hlaid.findSlide htiles hsees
  rw [Arena.compactionPass, hfind, pure_bind]
  cases hfinds with
  | nothing => exact .of_pure ⟨rfl, hsees⟩
  | obstructed =>
      cases hsees with
      | obstructed hbusy hhole hbarrier hf =>
          refine .of_pure ⟨rfl, _, _, .intro hbusy hhole hbarrier hf, ?_⟩
          rw [exit_append, exit_append, exit_append, exit_cons]
  | adjacent =>
      cases hsees with
      | adjacent hbusy hhole hmoved hrest =>
          obtain ⟨a', hslide, hslid⟩ := hlaid.slide_adjacent htiles hbusy hhole
            hmoved hrest (exit_append none done _).symm
          exact .of_yields hslide ⟨_, hslid, rfl⟩
  | past =>
      cases hsees with
      | past hbusy hhole hbarrier hmoved hfits hrest =>
          refine (hlaid.slide_past htiles haccounts hbusy hhole hbarrier hmoved hfits hrest
            (exit_append none done _).symm).mono fun (result, a') ⟨hresult, hslid⟩ => ?_
          subst hresult
          exact ⟨_, hslid, rfl⟩

end Arena

end CompactingArena
