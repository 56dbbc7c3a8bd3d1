import CompactingArena.Proofs.Session.Shape
/-!
# Contents of chunks along histories

To its client a chunk is a string of bytes that only the client changes.  From
the moment its handle is handed out until it is freed, the string may grow at
its end, and each of its bytes is the one last written there.
-/

namespace CompactingArena

open Layout

/-- What deeds last wrote at position `i` of the chunk of `h`, if anything. -/
def Deed.lastWritten (h : Handle) (i : Nat) : List Deed → Option UInt8
  | [] => none
  | deed :: rest => (lastWritten h i rest).or (deed.written h i)

theorem Deed.lastWritten_eq_none {h : Handle} {i : Nat} {deeds : List Deed}
    (hnone : ∀ deed ∈ deeds, deed.written h i = none) : lastWritten h i deeds = none := by
  induction deeds with
  | nil => rfl
  | cons deed deeds ih =>
      rw [lastWritten, ih fun d hd => hnone d (by simp [hd]), Option.none_or]
      exact hnone deed (by simp)

theorem Chunk.Evolves.refl (c : Chunk) (r : Region) : c.Evolves r (fun _ => none) c r :=
  ⟨rfl, le_refl _, fun _ _ => rfl⟩

/-- What was written later covers what was written before. -/
theorem Chunk.Evolves.trans {c c' c'' : Chunk} {r r' r'' : Region}
    {written written' : Nat → Option UInt8} (h : c.Evolves r written c' r')
    (h' : c'.Evolves r' written' c'' r'') :
    c.Evolves r (fun i => (written' i).or (written i)) c'' r'' where
  handle := h'.handle.trans h.handle
  size := h.size.trans h'.size
  byte i hi := by
    rw [h'.byte i (Nat.lt_of_lt_of_le hi h.size), h.byte i hi]
    cases written' i <;> rfl

/-- The string of bytes that a chunk is to its client. -/
theorem Chunk.Evolves.view {c c' : Chunk} {r r' : Region} {written : Nat → Option UInt8}
    (h : c.Evolves r written c' r') {i : Nat} (hi : i < c.size) :
    (r'.view c'.addr c'.size)[i]? = (written i).or (r.view c.addr c.size)[i]? := by
  rw [Region.getElem?_view _ _ _ _ hi, Region.getElem?_view _ _ _ _ (Nat.lt_of_lt_of_le hi h.size),
    h.byte i hi]
  cases written i <;> rfl

namespace Arena

variable {a b m z : Arena} {chunks : List Chunk} {spare : List Handle} {c : Chunk} {h : Handle}
  {deeds : List Deed} {build : Build} {config : Config} {available size : Nat}

theorem Laid.chunk_eq (hlaid : a.Laid chunks spare) (hc : c ∈ used chunks) :
    (a.chunk c.handle).result build = .ok (some (a.region.view c.addr c.size)) := by
  obtain ⟨hmem, hbusy⟩ := mem_used.mp hc
  obtain ⟨r, hget, hdesc⟩ := hlaid.chained.get hmem
  have hr : a.inUse? c.handle = some r :=
    hlaid.inUse?_eq_some_iff.mpr ⟨c, hc, rfl, hget, hdesc⟩
  have hbound := (hlaid.acme_le hmem).trans hlaid.memoryHigh_le
  unfold Chunk.acme at hbound
  rw [Arena.chunk, hr]
  simp only [hdesc.addr, hdesc.size, Region.read_eq hbound, pure_bind]
  rfl

/-- A chunk in use that no deed frees stays in use and keeps its bytes. -/
theorem Runs.evolves (hruns : Runs build a deeds b) (hsound : a.Sound chunks spare)
    (hc : c ∈ used chunks) (hfree : ∀ deed ∈ deeds, ¬deed.Frees c.handle) :
    ∃ chunks' spare', b.Sound chunks' spare' ∧ ∃ c' ∈ used chunks',
      c.Evolves a.region (fun i => Deed.lastWritten c.handle i deeds) c' b.region := by
  induction hruns generalizing chunks spare c with
  | nil a => exact ⟨chunks, spare, hsound, c, hc, .refl c a.region⟩
  | @cons _ _ _ deed deeds hdeed _ ih =>
      obtain ⟨chunks', spare', hsound', hevolves⟩ := hsound.leads hdeed
      obtain ⟨c', hc', hfirst⟩ := hevolves c hc (hfree deed (by simp))
      have hfree' : ∀ d ∈ deeds, ¬d.Frees c'.handle := fun d hd => by
        rw [hfirst.handle]
        exact hfree d (by simp [hd])
      obtain ⟨chunks'', spare'', hsound'', c'', hc'', hrest⟩ := ih hsound' hc' hfree'
      rw [hfirst.handle] at hrest
      exact ⟨chunks'', spare'', hsound'', c'', hc'', hfirst.trans hrest⟩

/-- A handle that is handed out is not in use.  From then on until it is freed,
its chunk can be read, is large enough and never shrinks, and each byte is the
one last written there.  A handle that a session answers to a request was handed
out like that. -/
theorem contents_of_runs
    (hestablish : (establish config available size).result build = .ok (.ok a)) :
    (∀ before b, Runs build a before b → ∀ requested h d, Does build b (.grant requested h) d →
      b.inUse? h = none ∧
        ∀ earlier m later z, Runs build d earlier m → Runs build m later z →
          (∀ deed ∈ earlier ++ later, ¬deed.Frees h) →
          ∃ x y, (m.chunk h).result build = .ok (some x) ∧
            (z.chunk h).result build = .ok (some y) ∧
            requested ≤ x.size ∧ x.size ≤ y.size ∧
            ∀ i < x.size, y[i]? = (Deed.lastWritten h i later).or x[i]? ∧
              ((∀ deed ∈ later, deed.written h i = none) → y[i]? = x[i]?)) ∧
      ∀ handler requested s h s',
        (Session.allocate handler requested s).result build = .ok (.ok h, s') →
        ∃ deeds b, Runs build s.arena deeds b ∧ Does build b (.grant requested h) s'.arena := by
  refine ⟨fun before b hbefore requested h d hgrant => ?_, fun handler requested s h s' hallocate =>
    Session.serves_allocate handler requested s _ s' hallocate⟩
  obtain ⟨chunks, spare, hsound⟩ := hbefore.sound (sound_of_establish hestablish)
  obtain ⟨hfresh, chunks₁, spare₁, hsound₁, -, c₁, hc₁, rfl, hrequested⟩ := hsound.grant hgrant
  refine ⟨hfresh, fun earlier m later z hearlier hlater hfree => ?_⟩
  obtain ⟨chunks₂, spare₂, hsound₂, c₂, hc₂, hfirst⟩ := hearlier.evolves hsound₁ hc₁
    fun deed hdeed => hfree deed (by simp [hdeed])
  obtain ⟨chunks₃, spare₃, hsound₃, c₃, hc₃, hsecond⟩ := hlater.evolves hsound₂ hc₂
    fun deed hdeed => hfirst.handle ▸ hfree deed (by simp [hdeed])
  have hhandle := hsecond.handle.trans hfirst.handle
  refine ⟨_, _, hfirst.handle ▸ hsound₂.chunk_eq hc₂, hhandle ▸ hsound₃.chunk_eq hc₃, ?_, ?_, ?_⟩
  · rw [Region.size_view]
    exact hrequested.trans hfirst.size
  · rw [Region.size_view, Region.size_view]
    exact hsecond.size
  · intro i hi
    rw [Region.size_view] at hi
    have hbyte := hsecond.view hi
    rw [hfirst.handle] at hbyte
    refine ⟨hbyte, fun hnone => ?_⟩
    rw [hbyte, Deed.lastWritten_eq_none hnone, Option.none_or]

/-- Allocates a chunk and writes into it. -/
def allocateAndWrite (bytes : ByteArray) : Act (Handle × Session × Arena) := do
  match ← Session.allocate .refusing 16 ⟨small, []⟩ with
  | (.error _, _) => Act.fail .assertion
  | (.ok h, s) =>
      match ← s.arena.write h 0 bytes with
      | .error _ => Act.fail .assertion
      | .ok a => return (h, s, a)

theorem contents_of_small_write :
    ∃ h deeds b d z x y, Runs .release small deeds b ∧ Does .release b (.grant 16 h) d ∧
      Runs .release d [.call (.write h 0 ⟨#[7]⟩) (.ok ())] z ∧ b.inUse? h = none ∧
      (d.chunk h).result .release = .ok (some x) ∧ (z.chunk h).result .release = .ok (some y) ∧
      16 ≤ x.size ∧ y[0]? = some 7 ∧ y[1]? = x[1]? := by
  have hok : ((allocateAndWrite ⟨#[7]⟩).result .release).isOk = true := by
    decide +kernel
  obtain ⟨⟨h, s, z⟩, hboth⟩ := Act.exists_of_isOk hok
  obtain ⟨⟨answer, s'⟩, hallocate, hrest⟩ := Act.of_result_bind_ok hboth
  cases answer with
  | error e => cases hrest
  | ok h' =>
      obtain ⟨outcome, hwrite, hrest⟩ := Act.of_result_bind_ok hrest
      cases outcome with
      | error refusal => cases hrest
      | ok a =>
          cases hrest
          obtain ⟨hgrants, hsession⟩ := contents_of_runs (establish_small .release)
          obtain ⟨deeds, b, hbefore, hgrant⟩ := hsession .refusing 16 ⟨small, []⟩ h s hallocate
          have hcall : ((⟨s.arena, []⟩ : Session).perform (Session.allocate .refusing)
              (.write h 0 ⟨#[7]⟩)).result .release = .ok (.ok (), ⟨z, []⟩) :=
            (Act.result_bind_ok hwrite).trans rfl
          have hlater : Runs .release s.arena [.call (.write h 0 ⟨#[7]⟩) (.ok ())] z :=
            (Does.call (by simp) hcall).runs
          obtain ⟨hfresh, hmoments⟩ := hgrants deeds b hbefore 16 h s.arena hgrant
          obtain ⟨x, y, hx, hy, hleast, -, hbyte⟩ :=
            hmoments [] s.arena _ z (.nil s.arena) hlater (by simp [Deed.Frees])
          refine ⟨h, deeds, b, s.arena, z, x, y, hbefore, hgrant, hlater, hfresh, hx, hy, hleast,
            ?_, ?_⟩
          · have hwritten : Deed.lastWritten h 0 [.call (.write h 0 ⟨#[7]⟩) (.ok ())] = some 7 := by
              simp only [Deed.lastWritten, Deed.written, true_and]
              decide
            rw [(hbyte 0 (by omega)).1, hwritten]
            rfl
          · apply (hbyte 1 (by omega)).2
            intro deed hdeed
            obtain rfl := List.mem_singleton.mp hdeed
            simp only [Deed.written, true_and]
            decide

end Arena

end CompactingArena
