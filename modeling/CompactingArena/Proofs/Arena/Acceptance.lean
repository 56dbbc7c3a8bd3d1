import CompactingArena.Proofs.Arena.Audit
import CompactingArena.Proofs.Arena.Establishing
import CompactingArena.Proofs.Path
/-!
# What the audit vouches for

The invariant makes an arena pass the audit.  Here it is the other way round: of an arena
nothing is known but that it passes, so that its records, links and bytes may be anything.
Each check of `Arena.verify` is turned into what it finds out, first for the parts of the
audit and then, in `Arena.Audited`, for the audit as a whole.  Sums that wrap around in a
release build are seen through where a span is found not to be empty: no sum of two words
that has wrapped around exceeds the first of them.
-/

namespace CompactingArena

open Act Layout

namespace Audit

variable {α β : Type}

/-- An audit finds nothing wrong, and answers. -/
def Passes (build : Build) (x : Audit α) (a : α) : Prop := x.run.result build = .ok (.ok a)

variable {x : Audit α} {f : α → Audit β} {a a' : α} {b : β} {build : Build}

theorem passes_pure : Passes build (pure a : Audit α) a' ↔ a = a' := by
  simp [Passes]

theorem passes_bind : Passes build (x >>= f) b ↔ ∃ a, Passes build x a ∧ Passes build (f a) b := by
  unfold Passes
  rw [ExceptT.run_bind, result_bind]
  rcases x.run.result build with fault | violation | a
  · simp [Except.bind]
  · simp [Except.bind]
  · simp [Except.bind]

theorem passes_lift {x : Act α} : Passes build (liftM x : Audit α) a ↔ x.result build = .ok a := by
  unfold Passes
  rw [ExceptT.run_liftM, ← bind_pure_comp, result_bind]
  rcases x.result build with fault | a
  · simp [Except.bind]
  · simp [Except.bind]

theorem passes_conclude {verdict : Except Violation α} :
    Passes build (conclude verdict) a ↔ verdict = .ok a := by
  simp [Passes, conclude]

theorem passes_ensure {holds : Bool} {violation : Violation} {u : Unit} :
    Passes build (ensure holds violation) u ↔ holds = true := by
  rw [ensure, passes_conclude]
  cases holds <;> simp

theorem not_passes_throw {violation : Violation} : ¬Passes build (throw violation : Audit α) a := by
  simp [Passes]

end Audit

/-- The span of a chunk, as far as words can express its end. -/
def Chunk.wrapped (c : Chunk) : Span := ⟨c.addr, (c.addr + c.size) % Word.modulus⟩

/-- The addresses and sizes in a table are words. -/
def HeaderTable.Worded (t : HeaderTable) : Prop :=
  ∀ r ∈ t.records.toList, r.addr < Word.modulus ∧ r.size < Word.modulus

instance (t : HeaderTable) : Decidable t.Worded := inferInstanceAs (Decidable (∀ _ ∈ _, _))

/-- Where the end of a chunk lies above its address, no sum has wrapped around. -/
theorem Chunk.wrapped_eq {c : Chunk} (haddr : c.addr < Word.modulus) (hsize : c.size < Word.modulus)
    (hnonempty : c.wrapped.isEmpty = false) : c.wrapped = c.span ∧ 0 < c.size := by
  rw [Span.isEmpty, decide_eq_false_iff_not, Nat.not_le] at hnonempty
  have hless : c.addr < (c.addr + c.size) % Word.modulus := hnonempty
  by_cases hsum : c.addr + c.size < Word.modulus
  · rw [Nat.mod_eq_of_lt hsum] at hless
    exact ⟨by rw [wrapped, span, Nat.mod_eq_of_lt hsum]; rfl, by omega⟩
  · rw [Nat.mod_eq_sub_mod (Nat.le_of_not_lt hsum), Nat.mod_eq_of_lt (by omega)] at hless
    omega

namespace HeaderTable

variable {t : HeaderTable}

theorem Worded.of_get (hwords : t.Worded) {h : Handle} {r : Record} (hget : t.get? h = some r) :
    r.addr < Word.modulus ∧ r.size < Word.modulus :=
  hwords r (Array.mem_toList_iff.mpr (Array.mem_of_getElem? hget))

end HeaderTable

namespace SizeClasses

variable {t : HeaderTable} {region : Region} {build : Build}

/-- The trailer of the chunk of `h`, as a build reads it, names `h` and is followed by
`next`. -/
def LeadsTo (build : Build) (t : HeaderTable) (region : Region) (h : Handle)
    (next : Option Handle) : Prop :=
  (nextOf t region h).result build = .ok (.ok next)

theorem rightUnique_leadsTo : Relator.RightUnique (LeadsTo build t region) := by
  intro h next next' hnext hnext'
  exact Except.ok.inj (Except.ok.inj (hnext.symm.trans hnext'))

/-- A walk that finds no fault with a list has followed it to its end. -/
theorem of_walkFrom {β : Type} {visit : β → Handle → Act β} {limit : Nat} {link : Option Handle}
    {acc acc' : β}
    (h : (walkFrom t region visit limit link acc).result build = .ok (acc', .ok ())) :
    ∃ l, Path (LeadsTo build t region) link l ∧ (l.foldlM visit acc).result build = .ok acc' := by
  induction limit generalizing link acc with
  | zero =>
      cases link with
      | none =>
          obtain rfl : acc = acc' := by simpa [walkFrom] using h
          exact ⟨[], rfl, rfl⟩
      | some g => simp [walkFrom] at h
  | succ limit ih =>
      cases link with
      | none =>
          obtain rfl : acc = acc' := by simpa [walkFrom] using h
          exact ⟨[], rfl, rfl⟩
      | some g =>
          rw [walkFrom] at h
          obtain ⟨visited, hvisit, h⟩ := of_result_bind_ok h
          obtain ⟨next, hnext, h⟩ := of_result_bind_ok h
          cases next with
          | error violation => simp at h
          | ok next =>
              obtain ⟨l, hpath, hfold⟩ := ih h
              refine ⟨g :: l, ⟨rfl, next, hnext, hpath⟩, ?_⟩
              rw [List.foldlM_cons, result_bind_ok hvisit, hfold]

end SizeClasses

namespace Arena

open Audit

variable {a : Arena} {chunks : List Chunk} {build : Build} {g : Handle} {k : Nat}

/-! ## The header chain -/

theorem of_passes_auditChain {limit : Nat} {start : Option Handle} {found : List (Span × Bool)}
    (h : Passes build (a.auditChain limit start) found) :
    ∃ chunks, a.headers.Lists start chunks none ∧
      found = chunks.map (fun c => (c.wrapped, c.isFree)) ∧
      ∀ c ∈ chunks, (a.headers.live? c.handle).isSome = true ∧ c.wrapped.isEmpty = false := by
  induction limit generalizing start found with
  | zero =>
      cases start with
      | none =>
          rw [auditChain, passes_pure] at h
          exact ⟨[], rfl, h.symm, by simp⟩
      | some g =>
          rw [auditChain] at h
          exact absurd h not_passes_throw
  | succ limit ih =>
      cases start with
      | none =>
          rw [auditChain, passes_pure] at h
          exact ⟨[], rfl, h.symm, by simp⟩
      | some g =>
          rw [auditChain] at h
          cases hlive : a.headers.live? g with
          | none =>
              rw [hlive] at h
              exact absurd h not_passes_throw
          | some r =>
              rw [hlive] at h
              simp only [passes_bind, passes_lift, passes_ensure, passes_pure] at h
              obtain ⟨span, hspan, -, hfine, next, hnext, rest, hrest, rfl⟩ := h
              obtain ⟨hget, -⟩ := Option.filter_eq_some_iff.mp hlive
              obtain ⟨acme, hacme, hspan⟩ := of_result_bind_ok hspan
              obtain rfl : (⟨r.addr, acme⟩ : Span) = span := by simpa using hspan
              obtain rfl := Word.ensures_add _ hacme
              obtain rfl : r.next = next := by
                simpa [HeaderTable.next_eq hget] using hnext
              obtain ⟨chunks, hlists, rfl, hchunks⟩ := ih hrest
              refine ⟨⟨g, r.addr, r.size, r.state⟩ :: chunks,
                ⟨rfl, r, hget, ⟨rfl, rfl, rfl⟩, hlists⟩, rfl, ?_⟩
              rintro c (_ | ⟨_, hc⟩)
              · rw [Bool.and_eq_true, Bool.not_eq_true'] at hfine
                exact ⟨by rw [hlive]; rfl, hfine.1⟩
              · exact hchunks c hc

theorem tiles_of_auditTiling {base top : Nat} {l : List Chunk}
    (h : auditTiling top base (l.map Chunk.span) = .ok ()) : Tiles base l top := by
  induction l generalizing base with
  | nil =>
      rw [List.map_nil, auditTiling] at h
      split at h
      · assumption
      · exact absurd h (by simp [throw, throwThe, MonadExceptOf.throw])
  | cons c l ih =>
      rw [List.map_cons, auditTiling] at h
      split at h
      · rename_i hbase
        subst hbase
        exact ⟨rfl, ih h⟩
      · exact absurd h (by simp [throw, throwThe, MonadExceptOf.throw])

/-! ## The free lists -/

/-- The chunk of `h`, as a build finds it, may be filed in class `k`: it is free, of the
right size, and its own trailer names it. -/
def Suits (build : Build) (a : Arena) (k : Nat) (h : Handle) : Prop :=
  ∃ r acme trailer, a.headers.live? h = some r ∧ r.state = .free ∧
    a.classes.classOf r.size = pure k ∧ r.acme.result build = .ok acme ∧
    (a.region.readTrailer acme).result build = .ok trailer ∧
    Handle.ofWord? trailer.owner = some h

/-- The list of class `k` ends, and consists of some handles, all of them rightly filed. -/
structure Lines (build : Build) (a : Arena) (k : Nat) (l : List Handle) : Prop where
  path : Path (SizeClasses.LeadsTo build a.headers a.region) a.classes.heads[k]?.join l
  suits : ∀ h ∈ l, a.Suits build k h

theorem of_classOf {c : SizeClasses} {size : Nat} (h : (c.classOf size).result build = .ok k) :
    c.classOf size = pure k := by
  by_cases hpos : 0 < size
  · rw [SizeClasses.classOf_eq hpos, result_pure, Except.ok.injEq] at h
    rw [SizeClasses.classOf_eq hpos, h]
  · obtain rfl : size = 0 := by omega
    obtain ⟨log, hlog, -⟩ := of_result_bind_ok h
    exact absurd hlog (by simp [Word.log2])

/-- A record that an audit does not complain of in class `k`. -/
def Seems (a : Arena) (k : Nat) (h : Handle) : Prop :=
  ∃ r, a.headers.get? h = some r ∧ r.state = .free ∧ a.classes.classOf r.size = pure k

/-- The audit never forgets that it found a chunk filed wrongly. -/
theorem of_auditFiled {soFar soFar' : FiledSoFar}
    (h : (a.auditFiled k soFar g).result build = .ok soFar') :
    soFar'.count = soFar.count + 1 ∧
      (soFar'.verdict = .ok () → soFar.verdict = .ok () ∧ a.Seems k g) := by
  rw [auditFiled] at h
  obtain ⟨r, hget, h⟩ := of_result_bind_ok h
  split at h
  · obtain rfl := Except.ok.inj h
    exact ⟨rfl, fun hok => absurd hok (by simp)⟩
  · rename_i hfree
    obtain ⟨j, hclass, h⟩ := of_result_bind_ok h
    by_cases hj : j = k
    · rw [if_neg (not_not.mpr hj)] at h
      obtain rfl := Except.ok.inj h
      refine ⟨rfl, fun hok => ⟨hok, r, of_ofOption hget, ?_, hj ▸ of_classOf hclass⟩⟩
      simpa [ChunkState.isFree_iff] using hfree
    · rw [if_pos hj] at h
      obtain rfl := Except.ok.inj h
      exact ⟨rfl, fun hok => absurd hok (by simp)⟩

theorem of_foldlM_auditFiled {l : List Handle} {soFar soFar' : FiledSoFar}
    (h : (l.foldlM (a.auditFiled k) soFar).result build = .ok soFar') :
    soFar'.count = soFar.count + l.length ∧
      (soFar'.verdict = .ok () → soFar.verdict = .ok () ∧ ∀ g ∈ l, a.Seems k g) := by
  induction l generalizing soFar with
  | nil =>
      obtain rfl := Except.ok.inj h
      exact ⟨rfl, fun hok => ⟨hok, by simp⟩⟩
  | cons g l ih =>
      rw [List.foldlM_cons] at h
      obtain ⟨mid, hmid, h⟩ := of_result_bind_ok h
      obtain ⟨hcount, hverdict⟩ := of_auditFiled hmid
      obtain ⟨hcount', hverdict'⟩ := ih h
      refine ⟨by rw [hcount', hcount, List.length_cons]; omega, fun hok => ?_⟩
      obtain ⟨hok, hrest⟩ := hverdict' hok
      obtain ⟨hok, hg⟩ := hverdict hok
      exact ⟨hok, List.forall_mem_cons.mpr ⟨hg, hrest⟩⟩

theorem suits_of_leadsTo {next : Option Handle} (hseems : a.Seems k g)
    (hnext : SizeClasses.LeadsTo build a.headers a.region g next) : a.Suits build k g := by
  obtain ⟨r, hget, hfree, hclass⟩ := hseems
  rw [SizeClasses.LeadsTo, SizeClasses.nextOf] at hnext
  cases hlive : a.headers.live? g with
  | none =>
      rw [hlive] at hnext
      exact absurd (Except.ok.inj hnext) (by simp)
  | some r' =>
      rw [hlive] at hnext
      obtain rfl : r = r' := by
        obtain ⟨hget', -⟩ := Option.filter_eq_some_iff.mp hlive
        exact Option.some.inj (hget.symm.trans hget')
      obtain ⟨acme, hacme, hnext⟩ := of_result_bind_ok hnext
      obtain ⟨trailer, htrailer, hnext⟩ := of_result_bind_ok hnext
      split at hnext
      · rename_i howner
        exact ⟨r, acme, trailer, hlive, hfree, hclass, hacme, htrailer, howner⟩
      · exact absurd (Except.ok.inj hnext) (by simp)

theorem of_walk {count : Nat} {soFar : FiledSoFar}
    (h : (a.classes.walk a.headers a.region (a.auditFiled k) k ⟨count, .ok ()⟩).result build =
      .ok (soFar, .ok ()))
    (hverdict : soFar.verdict = .ok ()) :
    ∃ l, a.Lines build k l ∧ soFar.count = count + l.length := by
  obtain ⟨link, hlink, h⟩ := of_result_bind_ok h
  obtain ⟨l, hpath, hfold⟩ := SizeClasses.of_walkFrom h
  obtain ⟨hcount, hseems⟩ := of_foldlM_auditFiled hfold
  refine ⟨l, ⟨?_, fun g hg => ?_⟩, hcount⟩
  · rwa [of_ofOption hlink]
  · obtain ⟨next, hnext⟩ := hpath.exists_next hg
    exact suits_of_leadsTo ((hseems hverdict).2 g hg) hnext

theorem of_passes_auditClasses {ks : List Nat} (hks : ks.Nodup) {count total : Nat}
    (h : Passes build (a.auditClasses ks count) total) :
    ∃ filed : Nat → List Handle, (∀ k ∈ ks, a.Lines build k (filed k)) ∧
      total = count + (ks.flatMap filed).length := by
  induction ks generalizing count with
  | nil =>
      rw [auditClasses, passes_pure] at h
      exact ⟨fun _ => [], by simp, by simp [h]⟩
  | cons k ks ih =>
      obtain ⟨hk, hks⟩ := List.nodup_cons.mp hks
      rw [auditClasses] at h
      simp only [passes_bind, passes_lift, passes_conclude, passes_ensure] at h
      obtain ⟨⟨soFar, walked⟩, hwalk, _, rfl, _, hverdict, _, -, h⟩ := h
      obtain ⟨l, hl, hcount⟩ := of_walk hwalk hverdict
      obtain ⟨filed, hfiled, rfl⟩ := ih hks h
      have hsame : ∀ j ∈ ks, Function.update filed k l j = filed j := fun j hj =>
        Function.update_of_ne (ne_of_mem_of_not_mem hj hk) _ _
      refine ⟨Function.update filed k l, List.forall_mem_cons.mpr ⟨?_, fun j hj => ?_⟩, ?_⟩
      · rwa [Function.update_self]
      · rw [hsame j hj]
        exact hfiled j hj
      · rw [List.flatMap_cons, Function.update_self, List.flatMap_congr hsame, List.length_append]
        simp only [hcount, Nat.add_assoc]

/-! ## The audit as a whole -/

/-- What an audit that finds nothing wrong has seen: `chunks` on the header chain, and the
handles of `filed k` in class `k`. -/
structure Audited (build : Build) (a : Arena) (chunks : List Chunk) (filed : Nat → List Handle) :
    Prop where
  chained : a.headers.Lists a.headers.chain chunks none
  live : ∀ c ∈ chunks, (a.headers.live? c.handle).isSome = true ∧ c.wrapped.isEmpty = false
  tiled : ∃ sorted : List Chunk, sorted.Perm chunks ∧
    auditTiling a.memoryHigh 0 (sorted.map Chunk.wrapped) = .ok ()
  below : a.memoryHigh ≤ a.headerLow
  lines : ∀ k < a.classes.count, a.Lines build k (filed k)
  filed : ((List.range a.classes.count).flatMap filed).length = (frees chunks).length
  recyclable : a.headers.freeRecordList.length + chunks.length = a.headers.capacity
  highest : (a.highestUsed false).result build = .ok a.memoryHigh

theorem exists_audited (h : Passes build a.verify ()) :
    ∃ chunks filed, a.Audited build chunks filed := by
  rw [verify] at h
  simp only [passes_bind, passes_lift, passes_conclude, passes_ensure, decide_eq_true_eq] at h
  obtain ⟨low, hlow, _, hbelow, found, hchain, _, hoverlap, _, htiling, total, hclasses, _, hfiled,
    _, -, _, hrecyclable, top, htop, _, htop', -⟩ := h
  obtain rfl : low = a.headerLow := HeaderTable.eq_low_of_lowest hlow
  obtain ⟨chunks, hlists, rfl, hlive⟩ := of_passes_auditChain hchain
  obtain ⟨filed, hlines, rfl⟩ := of_passes_auditClasses List.nodup_range hclasses
  obtain ⟨sorted, hsorted, hperm, -⟩ :=
    Sorting.exists_mergeSort_map Span.base Chunk.wrapped chunks
  have hspans : (chunks.map fun c => (c.wrapped, c.isFree)).map (·.1) =
      chunks.map Chunk.wrapped := by
    rw [List.map_map]
    rfl
  have hfrees : (chunks.map fun c => (c.wrapped, c.isFree)).countP (·.2) =
      (frees chunks).length := by
    rw [List.countP_map, List.countP_eq_length_filter]
    rfl
  rw [hspans, hsorted] at htiling
  rw [Nat.zero_add, hfrees] at hfiled
  rw [List.length_map] at hrecyclable
  exact ⟨chunks, filed, hlists, hlive, ⟨sorted, hperm, htiling⟩, hbelow,
    fun k hk => hlines k (List.mem_range.mpr hk), hfiled, hrecyclable, htop' ▸ htop⟩

namespace Audited

variable {filed : Nat → List Handle} (haudited : a.Audited build chunks filed)
include haudited

theorem nodup_handles : (handles chunks).Nodup :=
  haudited.chained.nodup

/-- A handle is filed in one class, that of its size. -/
theorem nodup_filed : ((List.range a.classes.count).flatMap filed).Nodup := by
  refine List.nodup_flatMap.mpr ⟨fun k hk => ?_, ?_⟩
  · exact (haudited.lines k (List.mem_range.mp hk)).path.nodup SizeClasses.rightUnique_leadsTo
  · refine List.nodup_range.pairwise_of_forall_ne fun j hj k hk hne h hh hh' => hne ?_
    obtain ⟨r, -, -, hlive, -, hclass, -⟩ := (haudited.lines j (List.mem_range.mp hj)).suits h hh
    obtain ⟨r', -, -, hlive', -, hclass', -⟩ :=
      (haudited.lines k (List.mem_range.mp hk)).suits h hh'
    obtain rfl : r = r' := Option.some.inj (hlive.symm.trans hlive')
    have hresult : (pure j : Act Nat).result build = (pure k : Act Nat).result build := by
      rw [← hclass, ← hclass']
    exact Except.ok.inj hresult

theorem wrapped_eq (hwords : a.headers.Worded) {c : Chunk} (hc : c ∈ chunks) :
    c.wrapped = c.span ∧ 0 < c.size := by
  obtain ⟨r, hget, hdesc⟩ := haudited.chained.get hc
  obtain ⟨haddr, hsize⟩ := hwords.of_get hget
  rw [hdesc.addr] at haddr
  rw [hdesc.size] at hsize
  exact Chunk.wrapped_eq haddr hsize (haudited.live c hc).2

theorem fills (hwords : a.headers.Worded) : Fills chunks a.memoryHigh := by
  obtain ⟨sorted, hperm, htiling⟩ := haudited.tiled
  have hspans : sorted.map Chunk.wrapped = sorted.map Chunk.span :=
    List.map_congr_left fun c hc => (haudited.wrapped_eq hwords (hperm.mem_iff.mp hc)).1
  rw [hspans] at htiling
  exact ⟨sorted, hperm, tiles_of_auditTiling htiling⟩

theorem exists_live (hwords : a.headers.Worded) {c : Chunk} (hc : c ∈ chunks) :
    0 < c.size ∧ ∃ r, a.headers.live? c.handle = some r ∧ r.Describes c := by
  obtain ⟨r, hlive⟩ := Option.isSome_iff_exists.mp (haudited.live c hc).1
  obtain ⟨hget, -⟩ := Option.filter_eq_some_iff.mp hlive
  exact ⟨(haudited.wrapped_eq hwords hc).2, r, hlive, haudited.chained.describes hc hget⟩

/-- The highest record ends at the high-water mark.  Only where a build wraps around can a
record pass that describes no chunk of the chain and ends that far above all words. -/
theorem exists_top (hwords : a.headers.Worded) {h : Handle} (hhighest : a.highest = some h) :
    ∃ r, a.headers.get? h = some r ∧ (r.addr + r.size = a.memoryHigh ∨
      build = .release ∧ h ∉ handles chunks ∧ r.addr + r.size = a.memoryHigh + Word.modulus) := by
  have htop := haudited.highest
  rw [highestUsed, if_neg (by simp), hhighest] at htop
  obtain ⟨r, hget, hacme⟩ := of_result_bind_ok htop
  have hget := of_ofOption hget
  refine ⟨r, hget, ?_⟩
  have hmod : a.memoryHigh = (r.addr + r.size) % Word.modulus := Word.ensures_add _ hacme
  obtain ⟨haddr, hsize⟩ := hwords.of_get hget
  have hword : a.memoryHigh < Word.modulus := hmod ▸ Nat.mod_lt _ (by decide)
  by_cases hsum : r.addr + r.size < Word.modulus
  · left
    rw [hmod, Nat.mod_eq_of_lt hsum]
  right
  refine ⟨?_, fun hh => hsum ?_, ?_⟩
  · cases build with
    | debug =>
        have hsame : a.memoryHigh = r.addr + r.size := Word.ensures_add_debug _ hacme
        omega
    | release => rfl
  · -- the audit of the chain has seen the end of this chunk above its address
    obtain ⟨c, hc, rfl⟩ := mem_handles.mp hh
    have hdesc := haudited.chained.describes hc hget
    have hspan : (c.addr + c.size) % Word.modulus = c.addr + c.size :=
      congrArg Span.acme (haudited.wrapped_eq hwords hc).1
    rw [hdesc.addr, hdesc.size, ← hspan]
    exact Nat.mod_lt _ (by decide)
  · rw [hmod, Nat.mod_eq_sub_mod (Nat.le_of_not_lt hsum), Nat.mod_eq_of_lt (by omega)]
    omega

theorem memoryHigh_eq_zero (hhighest : a.highest = none) : a.memoryHigh = 0 := by
  have htop := haudited.highest
  rw [highestUsed, if_neg (by simp), hhighest] at htop
  exact (Except.ok.inj htop).symm

end Audited

/-- The order that an audit stands for, with `chunks` on the header chain and the handles
of `filed k` in class `k`. -/
structure Arranged (build : Build) (a : Arena) (chunks : List Chunk) (filed : Nat → List Handle) :
    Prop where
  chained : a.headers.Lists a.headers.chain chunks none
  nodup : (handles chunks).Nodup
  live : ∀ c ∈ chunks, 0 < c.size ∧ ∃ r, a.headers.live? c.handle = some r ∧ r.Describes c
  tiled : ∃ sorted, sorted.Perm chunks ∧ Tiles 0 sorted a.memoryHigh
  apart : chunks.Pairwise Chunk.Apart
  below : a.memoryHigh ≤ a.headerLow
  lines : ∀ k < a.classes.count, a.Lines build k (filed k)
  nodup_filed : ((List.range a.classes.count).flatMap filed).Nodup
  bare : a.highest = none → a.memoryHigh = 0
  /-- The end of the highest record is told by words, and only the ends of chunks on the
  chain are known not to wrap around. -/
  topped : ∀ h, a.highest = some h → ∃ r, a.headers.get? h = some r ∧
    (r.addr + r.size = a.memoryHigh ∨
      build = .release ∧ h ∉ handles chunks ∧ r.addr + r.size = a.memoryHigh + Word.modulus)

/-- Whatever the records, links and bytes of an arena may be, an audit finds nothing wrong
only if they are arranged. -/
theorem exists_arranged_of_verify (hwords : a.headers.Worded)
    (hverify : a.verify.run.result build = .ok (.ok ())) :
    ∃ chunks filed, a.Arranged build chunks filed := by
  obtain ⟨chunks, filed, haudited⟩ := exists_audited hverify
  have hfills := haudited.fills hwords
  have hnodup : chunks.Nodup := .of_map _ haudited.nodup_handles
  refine ⟨chunks, filed, ?_⟩
  exact {
    chained := haudited.chained
    nodup := haudited.nodup_handles
    live := fun c hc => haudited.exists_live hwords hc
    tiled := hfills
    apart := hnodup.pairwise_of_forall_ne fun c hc d hd => hfills.disjoint hc hd
    below := haudited.below
    lines := haudited.lines
    nodup_filed := haudited.nodup_filed
    bare := haudited.memoryHigh_eq_zero
    topped := fun h hhighest => haudited.exists_top hwords hhighest }

/-- An arena with a chunk in use and a free one above it. -/
def paired : Arena := { small with
  region := (Region.zeroed 4096).overlay 16 ⟨#[2]⟩
  headers := {
    records := #[⟨0, 16, none, none, .unlocked⟩, ⟨16, 16, some (nth 0), none, .free⟩]
    high := 4096
    chain := some (nth 1)
    freeRecords := none }
  classes := small.classes.setHead 4 (some (nth 1))
  memoryHigh := 32
  highest := some (nth 1) }

theorem exists_arranged_paired :
    paired.headers.Worded ∧ paired.verify.run.result .release = .ok (.ok ()) ∧
      ∃ chunks filed, paired.Arranged .release chunks filed := by
  have hwords : paired.headers.Worded := by decide +kernel
  have hverify : paired.verify.run.result .release = .ok (.ok ()) := by decide +kernel
  exact ⟨hwords, hverify, exists_arranged_of_verify hwords hverify⟩

/-- The same two chunks, and an unused record that the arena takes for the highest one.  Its
end is too large for a word. -/
def phantom : Arena := { paired with
  headers := {
    records := #[⟨0, 16, none, none, .unlocked⟩, ⟨16, 16, some (nth 0), none, .free⟩,
      { Record.unused with size := 33 }]
    high := 4096
    chain := some (nth 1)
    freeRecords := some (nth 2) }
  highest := some (nth 2) }

/-- The audit of a release build passes, although the highest record does not end at the
high-water mark.  A debug build does not get to the end of the audit. -/
theorem verify_phantom :
    phantom.headers.Worded ∧ phantom.verify.run.result .release = .ok (.ok ()) ∧
      phantom.verify.run.result .debug = .error .overflow ∧ phantom.highest = some (nth 2) ∧
      ∃ r, phantom.headers.get? (nth 2) = some r ∧
        r.addr + r.size = phantom.memoryHigh + Word.modulus ∧
        r.addr + r.size ≠ phantom.memoryHigh := by
  refine ⟨by decide +kernel, by decide +kernel, by decide +kernel, rfl, _, rfl, ?_, ?_⟩
  · decide
  · decide

end Arena

end CompactingArena
