import CompactingArena.Compaction.Settle
import CompactingArena.Proofs.Arena.Audit
import CompactingArena.Proofs.Compaction.Merge
import CompactingArena.Proofs.HeaderTable.Shrink
/-!
# Settling keeps the invariant

Each step of `Arena.settle` does to the header table what `merged` and `trimmed`
do to the layout, and the free lists are built from what is left.
-/

namespace CompactingArena

open Layout

namespace HeaderTable

variable {t : HeaderTable} {start : Option Handle} {l run rest low : List Chunk} {c d : Chunk}
  {held spare : List Handle} {limit high : Nat}

/-- What a walk keeps of a table while it works on a part of the chain. -/
structure Stays (t t' : HeaderTable) (held : List Handle) : Prop where
  get : ∀ g ∈ held, t'.get? g = t.get? g
  capacity : t'.capacity = t.capacity
  chain : t'.chain = t.chain
  high : t'.high = t.high

theorem Stays.refl (t : HeaderTable) (held : List Handle) : t.Stays t held :=
  ⟨fun _ _ => rfl, rfl, rfl, rfl⟩

theorem Stays.trans {t' t'' : HeaderTable} {held held' : List Handle} (h : t.Stays t' held)
    (h' : t'.Stays t'' held') (hsub : held ⊆ held') : t.Stays t'' held where
  get g hg := (h'.get g (hsub hg)).trans (h.get g hg)
  capacity := h'.capacity.trans h.capacity
  chain := h'.chain.trans h.chain
  high := h'.high.trans h.high

/-! ## Merging -/

/-- A chunk takes in the free chunk that follows it on the chain. -/
theorem Lists.absorb_step (h : t.Lists (some c.handle) (c :: d :: rest) none)
    (hkept : t.Kept (handles (c :: d :: rest) ++ held) spare) (hfree : d.isFree = true)
    (hlive : d.addr < Record.unset) (hbytes : c.size + d.size < Word.modulus) :
    ∃ t' spare', (∀ limit, absorb c.handle (limit + 1) t = absorb c.handle limit t') ∧
      t'.Lists (some c.handle) ({ c with size := c.size + d.size } :: rest) none ∧
      t'.Kept (handles (c :: rest) ++ held) spare' ∧ t.Stays t' held := by
  obtain ⟨-, r, hget, hdesc, hlink, rd, hgetd, hdescd, hafter⟩ := h
  have hstate : rd.state.isFree = true := hdescd.state ▸ hfree
  have hsum : Word.add r.size rd.size = pure (c.size + d.size) := by
    rw [hdesc.size, hdescd.size, Word.add_eq hbytes]
  obtain ⟨hfresh, hnodup⟩ := List.nodup_cons.mp hkept.nodup_held
  obtain ⟨hfreshd, -⟩ := List.nodup_cons.mp hnodup
  have hne : d.handle ≠ c.handle := fun heq => hfresh (by simp [heq])
  -- the first chunk grows, and is linked past the second one
  set t₁ := t.set c.handle { r with size := c.size + d.size, next := rd.next } with ht₁
  have hkept₁ : t₁.Kept (d.handle :: (handles (c :: rest) ++ held)) spare :=
    (hkept.set (by simp) _).perm (List.Perm.swap _ _ _)
  have hgetd₁ : t₁.get? d.handle = some rd := by
    rw [ht₁, get?_set, if_neg (Ne.symm hne), hgetd]
  have hget₁ : t₁.get? c.handle = some { r with size := c.size + d.size, next := rd.next } := by
    rw [ht₁, get?_set, if_pos rfl, hget]
    rfl
  -- the record of the second one is given up
  obtain ⟨t₂, hrelease, hkept₂, -, hother₂, hcapacity₂, hchain₂, hhigh₂⟩ :=
    hkept₁.release hgetd₁ (hdescd.isUnused hlive)
  have hafter₂ : t₂.Lists rd.next rest none := by
    refine (hafter.set fun hmem => hfresh ?_).frame_single hother₂ fun hmem => hfreshd ?_
    · exact List.mem_append_left _ (List.mem_cons_of_mem _ hmem)
    · exact List.mem_append_left _ hmem
  refine ⟨t₂, _, fun limit => ?_, ?_, hkept₂, ⟨fun g hg => ?_, ?_, hchain₂, hhigh₂⟩⟩
  · rw [HeaderTable.absorb, next_eq hget, pure_bind, hlink]
    simp only [get_eq hgetd, pure_bind, hstate, if_true, get_eq hget, hsum, update_eq hget]
    rw [← ht₁, hrelease, pure_bind]
  · exact ⟨rfl, _, (hother₂ _ (Ne.symm hne)).trans hget₁, ⟨hdesc.addr, rfl, hdesc.state⟩, hafter₂⟩
  · rw [hother₂ g ?_, ht₁, get?_set, if_neg ?_]
    · rintro rfl
      exact hfresh (List.mem_append_right _ hg)
    · rintro rfl
      exact hfreshd (List.mem_append_right _ hg)
  · rw [hcapacity₂, ht₁, capacity_set]

/-- A chunk takes in a whole run of free chunks, up to the next one in use. -/
theorem Lists.absorb (h : t.Lists (some c.handle) (c :: (run ++ rest)) none)
    (hkept : t.Kept (handles (c :: (run ++ rest)) ++ held) spare)
    (hrun : ∀ d ∈ run, d.isFree = true) (hrest : ∀ d ∈ rest.head?, d.isFree = false)
    (hlive : ∀ d ∈ run, d.addr < Record.unset) (hbytes : bytes (c :: run) < Word.modulus)
    (hlimit : run.length ≤ limit) :
    ∃ t' spare', absorb c.handle limit t = pure t' ∧
      t'.Lists (some c.handle) ({ c with size := c.size + bytes run } :: rest) none ∧
      t'.Kept (handles (c :: rest) ++ held) spare' ∧ t.Stays t' held := by
  induction run generalizing c t spare limit with
  | nil =>
      refine ⟨t, spare, ?_, by simpa using h, hkept, .refl t held⟩
      obtain ⟨-, r, hget, -, hnext⟩ := h
      rw [List.nil_append] at hnext
      rw [HeaderTable.absorb, next_eq hget, pure_bind, hnext.start_eq]
      cases rest with
      | nil => rfl
      | cons e rest =>
          obtain ⟨-, re, hgete, hdesce, -⟩ := hnext
          have hstate : re.state.isFree = false := hdesce.state ▸ hrest e rfl
          simp only [entry_cons, get_eq hgete, pure_bind, hstate, Bool.false_eq_true, if_false]
  | cons d run ih =>
      obtain ⟨limit, rfl⟩ : ∃ n, limit = n + 1 := ⟨limit - 1, by simp at hlimit; omega⟩
      simp only [bytes_cons] at hbytes ⊢
      obtain ⟨t₁, spare₁, hstep, hlists₁, hkept₁, hstays₁⟩ :=
        h.absorb_step hkept (hrun d (by simp)) (hlive d (by simp)) (by omega)
      obtain ⟨t', spare', habsorb, hlists, hkept', hstays⟩ :=
        ih (c := { c with size := c.size + d.size }) hlists₁ hkept₁
          (fun e he => hrun e (by simp [he])) (fun e he => hlive e (by simp [he]))
          (by rw [bytes_cons]; change c.size + d.size + bytes run < _; omega)
          (show run.length ≤ limit by simpa using hlimit)
      refine ⟨t', spare', (hstep limit).trans habsorb, ?_, hkept',
        hstays₁.trans hstays (List.Subset.refl _)⟩
      rw [← Nat.add_assoc]
      exact hlists

/-- A walk along the chain merges all runs of free chunks. -/
theorem Lists.coalesce (h : t.Lists start l none) (hkept : t.Kept (handles l ++ held) spare)
    (hlive : ∀ c ∈ l, c.addr < Record.unset) (hbytes : bytes l < Word.modulus)
    (hlimit : l.length ≤ limit) (hwalk : l.length ≤ t.capacity) :
    ∃ t' spare', coalesce limit start t = pure (true, t') ∧ t'.Lists start (merged l) none ∧
      t'.Kept (handles (merged l) ++ held) spare' ∧ t.Stays t' held := by
  induction limit generalizing l start t held spare with
  | zero =>
      obtain rfl : l = [] := List.eq_nil_of_length_eq_zero (by omega)
      obtain rfl : start = none := h
      exact ⟨t, spare, by rw [HeaderTable.coalesce], rfl, hkept, .refl t held⟩
  | succ limit ih =>
      cases l with
      | nil =>
          obtain rfl : start = none := h
          exact ⟨t, spare, by rw [HeaderTable.coalesce], rfl, hkept, .refl t held⟩
      | cons c l =>
          obtain rfl : start = some c.handle := h.1
          obtain ⟨-, r, hget, hdesc, hnext⟩ := id h
          by_cases hc : c.isFree = true
          · obtain ⟨run, rest, rfl, hrun, hrest⟩ := exists_run (fun d => d.isFree) l
            have hstate : r.state.isFree = true := hdesc.state ▸ hc
            have hlength : run.length + rest.length ≤ limit := by
              simpa using hlimit
            rw [List.length_cons, List.length_append] at hwalk
            rw [← List.cons_append, bytes_append] at hbytes
            obtain ⟨t₁, spare₁, habsorb, hlists₁, hkept₁, hstays₁⟩ :=
              h.absorb hkept hrun hrest (fun d hd => hlive d (by simp [hd])) (by omega)
                (show run.length ≤ t.walkLimit by unfold walkLimit; omega)
            obtain ⟨-, r₁, hget₁, hdesc₁, hnext₁⟩ := hlists₁
            have hkept₁' : t₁.Kept (handles rest ++ c.handle :: held) spare₁ :=
              hkept₁.perm List.perm_middle.symm
            obtain ⟨t', spare', hcoalesce, hlists, hkept', hstays⟩ := ih hnext₁ hkept₁'
              (fun d hd => hlive d (by simp [hd])) (by omega) (by omega)
              (by rw [hstays₁.capacity]; omega)
            rw [merged_run hc hrun hrest]
            refine ⟨t', spare', ?_, ⟨rfl, r₁, ?_, hdesc₁, hlists⟩, hkept'.perm List.perm_middle,
              hstays₁.trans hstays (List.subset_cons_self _ _)⟩
            · simp only [HeaderTable.coalesce, get_eq hget, pure_bind, hstate, if_true, habsorb,
                next_eq hget₁]
              exact hcoalesce
            · rw [hstays.get _ (by simp)]
              exact hget₁
          · have hbusy : c.isFree = false := by simpa using hc
            have hstate : r.state.isFree = false := hdesc.state ▸ hbusy
            rw [bytes_cons] at hbytes
            rw [List.length_cons] at hlimit hwalk
            have hkept₁ : t.Kept (handles l ++ c.handle :: held) spare :=
              hkept.perm List.perm_middle.symm
            obtain ⟨t', spare', hcoalesce, hlists, hkept', hstays⟩ := ih hnext hkept₁
              (fun d hd => hlive d (by simp [hd])) (by omega) (by omega) (by omega)
            rw [merged, absorbed_of_busy hbusy]
            refine ⟨t', spare', ?_, ⟨rfl, r, ?_, hdesc, hlists⟩, hkept'.perm List.perm_middle,
              (Stays.refl t held).trans hstays (List.subset_cons_self _ _)⟩
            · simp only [HeaderTable.coalesce, get_eq hget, pure_bind, hstate, Bool.false_eq_true,
                if_false, next_eq hget]
              exact hcoalesce
            · rw [hstays.get _ (by simp)]
              exact hget

/-! ## The high-water mark -/

theorem highestOf_eq {base top : Nat}
    (hrecords : ∀ c ∈ l, ∃ r, t.get? c.handle = some r ∧ r.Describes c)
    (htiles : Tiles base l top) (htop : top < Word.modulus) {best : Option (Handle × Nat)}
    (hbest : ∀ b ∈ best, b.2 ≤ base) :
    t.highestOf (handles l) best =
      pure ((((used l).getLast?).map fun c => (c.handle, c.acme)).or best) := by
  induction l generalizing base best with
  | nil => rfl
  | cons c l ih =>
      obtain ⟨r, hget, hdesc⟩ := hrecords c (by simp)
      obtain ⟨rfl, htiles⟩ := htiles
      have hsum := htiles.top_eq
      have hrecords' := fun d hd => hrecords d (List.mem_cons_of_mem c hd)
      have hstate : r.state.isFree = c.isFree := by rw [hdesc.state, Chunk.isFree]
      rw [handles_cons, highestOf, get_eq hget, pure_bind, hstate]
      by_cases hc : c.isFree = true
      · rw [if_pos hc, ih hrecords' htiles fun b hb => ?_, used_cons, if_pos hc]
        exact (hbest b hb).trans (Nat.le_add_right _ _)
      · have hacme : r.acme = pure c.acme := by
          rw [Record.acme, hdesc.addr, hdesc.size, Word.add_eq (by omega)]
          rfl
        have hbeaten : ∀ b ∈ best, b.2 ≤ c.acme := fun b hb =>
          (hbest b hb).trans (Nat.le_add_right _ _)
        rw [if_neg hc, hacme, pure_bind]
        dsimp only
        rw [if_pos ((Option.all_eq_true _ _).mpr fun b hb => decide_eq_true (hbeaten b hb))]
        rw [ih hrecords' htiles (by simp [Chunk.acme]), used_cons, if_neg hc, List.getLast?_cons]
        cases (used l).getLast? with
        | none => rfl
        | some d => rfl

/-! ## Dropping the top -/

/-- The free chunks at or above `high` are dropped from the chain. -/
theorem Lists.dropAbove (h : t.Lists t.chain (low ++ l) none) (high : Nat)
    (hkept : t.Kept (handles (low ++ l)) spare) (hlive : ∀ c ∈ l, c.addr < Record.unset)
    (hlimit : l.length ≤ limit) :
    ∃ t' spare', dropAbove high limit (exit none low) (entry l none) t = pure t' ∧
      t'.Lists t'.chain (low ++ l.filter (staysBelow high)) none ∧
      t'.Kept (handles (low ++ l.filter (staysBelow high))) spare' ∧
      t'.capacity = t.capacity ∧ t'.high = t.high := by
  induction l generalizing low t spare limit with
  | nil => exact ⟨t, spare, by cases limit <;> rfl, h, hkept, rfl, rfl⟩
  | cons c l ih =>
      obtain ⟨limit, rfl⟩ : ∃ n, limit = n + 1 := ⟨limit - 1, by simp at hlimit; omega⟩
      obtain ⟨hlow, -, r, hget, hdesc, hnext⟩ := lists_append.mp h
      have hentry := hnext.start_eq
      have hcondition : (r.state.isFree && decide (high ≤ r.addr)) = !staysBelow high c := by
        rw [staysBelow, Bool.not_not, hdesc.state, hdesc.addr, Chunk.isFree]
      rw [entry_cons, HeaderTable.dropAbove, get_eq hget, pure_bind, hcondition, hentry]
      by_cases hstays : staysBelow high c = true
      · obtain ⟨t', spare', hdrop, hlists, hkept', hcapacity, hhigh⟩ := ih
          (show t.Lists t.chain (low ++ [c] ++ l) none by simpa using h) (by simpa using hkept)
          (fun d hd => hlive d (by simp [hd])) (show l.length ≤ limit by simpa using hlimit)
        rw [exit_append, exit_cons] at hdrop
        rw [List.filter_cons_of_pos hstays, hstays, if_neg (by simp)]
        exact ⟨t', spare', hdrop, by simpa using hlists, by simpa using hkept', hcapacity, hhigh⟩
      · have hnodup := hkept.nodup_held
        rw [handles_append, List.nodup_append', handles_cons, List.nodup_cons,
          List.disjoint_cons_right] at hnodup
        obtain ⟨hnlow, ⟨hfresh, -⟩, hlowc, hlowl⟩ := hnodup
        -- the chain is led past the chunk, and its record is given up
        obtain ⟨hbefore, hlinked⟩ := hlow.linkAfter hnlow (entry l none)
        set t₁ := t.linkAfter (exit none low) (entry l none) with ht₁
        have hget₁ : t₁.get? c.handle = some r := (hlinked.get_other _ hlowc).trans hget
        have hkept₁ : t₁.Kept (c.handle :: handles (low ++ l)) spare := by
          refine ((hlinked.mono ?_).kept hkept).perm (perm_insert low l c).symm
          rw [handles_append]
          exact List.subset_append_left _ _
        obtain ⟨t₂, hrelease, hkept₂, -, hother₂, hcapacity₂, hchain₂, hhigh₂⟩ :=
          hkept₁.release hget₁ (hdesc.isUnused (hlive c (by simp)))
        have hlists₂ : t₂.Lists t₂.chain (low ++ l) none := by
          rw [hchain₂]
          rw [hentry] at hnext
          have hafter := hlinked.lists hnext hlowl.symm
          exact lists_append.mpr
            ⟨hbefore.frame_single hother₂ hlowc, hafter.frame_single hother₂ hfresh⟩
        obtain ⟨t', spare', hdrop, hlists, hkept', hcapacity, hhigh⟩ := ih hlists₂ hkept₂
          (fun d hd => hlive d (by simp [hd])) (show l.length ≤ limit by simpa using hlimit)
        rw [List.filter_cons_of_neg hstays, if_pos (by simpa using hstays), hrelease, pure_bind]
        exact ⟨t', spare', hdrop, hlists, hkept',
          hcapacity.trans (hcapacity₂.trans hlinked.capacity),
          hhigh.trans (hhigh₂.trans hlinked.high)⟩

end HeaderTable

/-! ## Filing anew -/

theorem SizeClasses.refile_eq {headers : HeaderTable} {l : List Chunk} {start : Option Handle}
    (h : headers.Lists start l none) {c : SizeClasses} {region : Region} {free : List Chunk}
    (hcovers : c.Covers region free) (hfilable : Filable headers region (l ++ free))
    (hnodup : (l ++ free).Nodup) {limit : Nat} (hlimit : l.length ≤ limit) :
    ∃ c' region', refile headers limit start c region = pure (c', region') ∧
      c'.Covers region' (frees l ++ free) ∧
      region.Changed region' fun i => ∃ d ∈ frees l, Region.InTrailer d.acme i := by
  induction l generalizing start c region free limit with
  | nil =>
      obtain rfl : start = none := h
      refine ⟨c, region, ?_, hcovers, .refl _ _⟩
      cases limit <;> rfl
  | cons d l ih =>
      obtain ⟨limit, rfl⟩ : ∃ n, limit = n + 1 := ⟨limit - 1, by simp at hlimit; omega⟩
      obtain ⟨rfl, r, hget, hdesc, hnext⟩ := h
      obtain ⟨hfresh, hnodup⟩ := List.nodup_cons.mp hnodup
      have hlength : l.length ≤ limit := by simpa using hlimit
      have hstate : r.state.isFree = d.isFree := by rw [hdesc.state, Chunk.isFree]
      rw [frees_cons]
      by_cases hd : d.isFree = true
      · obtain ⟨c₁, region₁, hinsert, hcovers₁, hchanged₁⟩ := hcovers.insert
          (hfilable.subset fun e he => by
            rcases List.mem_cons.mp he with rfl | he
            · simp
            · simp [he]) (fun hmem => hfresh (List.mem_append_right _ hmem)) hd
        obtain ⟨c', region', hrefile, hcovers', hchanged'⟩ := ih hnext hcovers₁
          ((hfilable.changed hchanged₁).subset fun e he => by
            simp only [List.mem_append, List.mem_cons, List.cons_append] at he ⊢
            tauto) (List.perm_middle.nodup_iff.mpr (List.nodup_cons.mpr ⟨hfresh, hnodup⟩)) hlength
        rw [if_pos hd]
        refine ⟨c', region', ?_, hcovers'.perm List.perm_middle, ?_⟩
        · simp only [SizeClasses.refile, HeaderTable.get_eq hget, pure_bind, hstate, hd, if_true,
            hinsert, HeaderTable.next_eq hget]
          exact hrefile
        · refine (hchanged₁.mono fun i hi => ⟨d, by simp, hi⟩).trans (hchanged'.mono ?_)
          rintro i ⟨e, he, hi⟩
          exact ⟨e, List.mem_cons_of_mem _ he, hi⟩
      · obtain ⟨c', region', hrefile, hcovers', hchanged'⟩ := ih hnext hcovers
          (hfilable.subset fun e he => List.mem_cons_of_mem _ he) hnodup hlength
        rw [if_neg hd]
        refine ⟨c', region', ?_, hcovers', hchanged'⟩
        simp only [SizeClasses.refile, HeaderTable.get_eq hget, pure_bind, hstate, hd,
          Bool.false_eq_true, if_false, HeaderTable.next_eq hget]
        exact hrefile

/-! ## Settling as a whole -/

namespace Arena

variable {a : Arena} {chunks : List Chunk} {spare : List Handle}

theorem Laid.settleTable (hlaid : a.Laid chunks spare) (htiles : Tiles 0 chunks a.memoryHigh) :
    ∃ t₁ t₂ popped t₃ spare',
      HeaderTable.coalesce a.headers.capacity a.headers.chain a.headers = pure (true, t₁) ∧
      t₁.Lists t₁.chain (merged chunks) none ∧ (merged chunks).length ≤ a.headers.capacity ∧
      HeaderTable.dropAbove (usedEnd (merged chunks)) t₁.walkLimit none t₁.chain t₁ = pure t₂ ∧
      t₂.shrink.Yields (popped, t₃) ∧
      t₃.Lists t₃.chain (trimmed (merged chunks)) none ∧
      t₃.Kept (handles (trimmed (merged chunks))) spare' ∧ t₃.Tight spare' ∧
      t₃.capacity ≤ a.headers.capacity ∧ t₃.high = a.headers.high := by
  have hbound := hlaid.memoryHigh_le
  have hlimit := hlaid.size_lt_unset
  have hword : Record.unset < Word.modulus := by decide
  have htop := htiles.top_eq
  have hpos : ∀ c ∈ chunks, 0 < c.size := fun c hc => (hlaid.sized c hc).pos
  have hlow : ∀ {l : List Chunk} {top : Nat}, Tiles 0 l top → top ≤ a.memoryHigh →
      ∀ c ∈ l, c.addr < Record.unset := by
    intro l top htiles htop c hc
    have hbounds := htiles.bounds hc
    unfold Chunk.acme at hbounds
    omega
  obtain ⟨t₁, spare₁, hcoalesce, hlists₁, hkept₁, hstays⟩ :=
    hlaid.chained.coalesce
      (show a.headers.Kept (handles chunks ++ []) spare by simpa using hlaid.kept)
      (hlow htiles (le_refl _)) (by omega) hlaid.length_le hlaid.length_le
  rw [List.append_nil] at hkept₁
  rw [← hstays.chain] at hlists₁
  have hlength : (merged chunks).length ≤ t₁.capacity := by
    have h := hkept₁.length_eq
    rw [length_handles] at h
    omega
  obtain ⟨t₂, spare₂, hdrop, hlists₂, hkept₂, hcapacity₂, hhigh₂⟩ :=
    HeaderTable.Lists.dropAbove (show t₁.Lists t₁.chain ([] ++ merged chunks) none from hlists₁)
      (usedEnd (merged chunks)) hkept₁ (hlow htiles.merged (le_refl _))
      (show _ ≤ t₁.walkLimit by unfold HeaderTable.walkLimit; omega)
  rw [exit_nil, ← hlists₁.start_eq] at hdrop
  have hlive : ∀ h ∈ handles (trimmed (merged chunks)),
      ∃ r, t₂.get? h = some r ∧ r.isUnused = false := by
    intro h hh
    obtain ⟨c, hc, rfl⟩ := mem_handles.mp hh
    obtain ⟨r, hget, hdesc⟩ := hlists₂.get hc
    refine ⟨r, hget, hdesc.isUnused ?_⟩
    exact hlow htiles.merged (le_refl _) c (List.mem_filter.mp hc).1
  have ⟨popped, t₃, spare', hshrink, hshrinks⟩ := hkept₂.shrink hlive
  refine ⟨t₁, t₂, popped, t₃, spare', hcoalesce, hlists₁, hstays.capacity ▸ hlength, hdrop,
    hshrink, ?_, hshrinks.kept, hshrinks.kept.tight_iff.mpr hshrinks.last, ?_, ?_⟩
  · rw [hshrinks.chain]
    exact hlists₂.congr fun c hc => hshrinks.get _ (handle_mem hc)
  · rw [← hstays.capacity, ← hcapacity₂]
    exact Nat.le.intro hshrinks.capacity
  · rw [hshrinks.high, hhigh₂, hstays.high]

/-- The last chunk in use is the highest of those that are left. -/
theorem topped_trimmed {l : List Chunk}
    (hhighest : a.highest = (used l).getLast?.map Chunk.handle) (hhigh : a.memoryHigh = usedEnd l) :
    a.Topped (trimmed l) := by
  rw [Topped, hhighest, hhigh]
  cases hlast : (used l).getLast? with
  | none =>
      left
      have hnone : used l = [] := List.getLast?_eq_none_iff.mp hlast
      refine ⟨rfl, (trimmed_of_free fun c hc => ?_).1⟩
      by_contra hbusy
      exact List.ne_nil_of_mem (mem_used.mpr ⟨hc, by simpa using hbusy⟩) hnone
  | some c =>
      right
      have hc : c ∈ used (trimmed l) := by
        rw [used_trimmed]
        exact List.mem_of_getLast? hlast
      refine ⟨c, (mem_used.mp hc).1, rfl, ?_⟩
      rw [usedEnd, hlast]
      rfl

/-- Settling brings the arena back to where it stands between operations. -/
theorem Laid.settle (hlaid : a.Laid chunks spare) (htiles : Tiles 0 chunks a.memoryHigh)
    (henough : a.region.size < 2 ^ a.classes.count) (hcount : 0 < a.classes.count) :
    ∃ a' spare', a.settle.Yields a' ∧ a'.Orderly (trimmed (merged chunks)) spare' ∧
      Tiles 0 (trimmed (merged chunks)) a'.memoryHigh ∧ a'.memoryHigh ≤ a.memoryHigh ∧
      a.region.Changed a'.region (fun i => ∃ d ∈ frees (trimmed (merged chunks)), d.Holds i) ∧
      a'.counters = a.counters ∧ a'.config = a.config := by
  obtain ⟨t₁, t₂, popped, t₃, spare', hcoalesce, hlists₁, hlength₁, hdrop, hshrink, hlists₃, hkept₃,
    htight, hcapacity₃, hhigh₃⟩ := hlaid.settleTable htiles
  have hbound := hlaid.memoryHigh_le
  have hsize := hlaid.size_lt_modulus
  have hpos : ∀ c ∈ merged chunks, 0 < c.size := fun c hc => (sized_merged hlaid.sized c hc).pos
  obtain ⟨htrimmed, hend, -⟩ := htiles.merged.trimmed hpos
  set final := trimmed (merged chunks) with hfinal
  set memoryHigh := usedEnd (merged chunks) with hmemoryHigh
  have hsub : ∀ c ∈ final, c ∈ merged chunks := fun c hc => (List.mem_filter.mp hc).1
  -- the highest chunk in use is found
  have htake : Chain.take t₁ a.headers.capacity t₁.chain = pure (handles (merged chunks)) := by
    rw [hlists₁.take, List.take_of_length_le (by rwa [length_handles])]
  have hhighest : t₁.highestOf (handles (merged chunks)) none =
      pure (((used (merged chunks)).getLast?).map fun c => (c.handle, c.acme)) := by
    rw [HeaderTable.highestOf_eq (fun c hc => hlists₁.get hc) htiles.merged (by omega) (by simp),
      Option.or_none]
  -- the free chunks are filed
  have hlaid' : Arena.Laid { a with headers := t₃, memoryHigh } final spare' := by
    refine ⟨hlists₃, hkept₃, htrimmed.fills, fun c hc => sized_merged hlaid.sized c (hsub c hc),
      ?_, ?_, hlaid.least, hlaid.limit⟩
    · rw [hhigh₃, hlaid.high]
    · have hroom := hlaid.room
      have hfootprint : t₃.footprint ≤ a.headers.footprint := Nat.mul_le_mul_right _ hcapacity₃
      change memoryHigh + t₃.footprint ≤ a.region.size
      omega
  have hlength₃ : final.length ≤ t₃.capacity := hlaid'.length_le
  obtain ⟨classes, region, hrefile, hcovers, hchanged⟩ :=
    SizeClasses.refile_eq hlists₃ (SizeClasses.Covers.clear a.classes henough hcount)
      (by simpa using hlaid'.filable) (by simpa using hlaid'.nodup)
      (show final.length ≤ t₃.walkLimit by unfold HeaderTable.walkLimit; omega)
  rw [List.append_nil] at hcovers
  refine ⟨{ a with
    headers := t₃
    classes
    region
    memoryHigh
    highest := ((used (merged chunks)).getLast?).map Chunk.handle }, spare', ?_,
    ⟨hlaid'.congr rfl hchanged.size rfl, topped_trimmed rfl hmemoryHigh, hcovers, htight⟩,
    htrimmed, hend, ?_, rfl, rfl⟩
  · rw [Arena.settle]
    simp only [hcoalesce, pure_bind, Bool.not_true, Bool.false_eq_true, if_false, htake, hhighest,
      Option.map_map]
    rw [show ((fun x : Handle × Nat => x.2) ∘ fun c : Chunk => (c.handle, c.acme)) = Chunk.acme
        from rfl, show ((fun x : Handle × Nat => x.1) ∘ fun c : Chunk => (c.handle, c.acme)) =
        Chunk.handle from rfl]
    change Act.Yields (HeaderTable.dropAbove memoryHigh t₁.walkLimit none t₁.chain t₁ >>= _) _
    rw [hdrop, pure_bind]
    apply hshrink.bind
    simp only [hrefile, pure_bind]
    exact Act.yields_pure _
  · apply hchanged.mono
    rintro i ⟨d, hd, hi⟩
    exact ⟨d, hd, Chunk.holds_of_inTrailer (hlaid'.sized d (mem_frees.mp hd).1).1 hi⟩

end Arena

end CompactingArena
