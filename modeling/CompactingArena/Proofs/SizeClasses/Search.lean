import CompactingArena.SizeClasses.Search
import CompactingArena.Proofs.Act
import CompactingArena.Proofs.SizeClasses.Stock
/-!
# Searching the free lists

A search takes a large enough chunk out of the lists, or there is none and nothing has
changed.  Chunks that are filed too low make no difference to that: one that is filed
anew belongs to a class that is searched later, or is taken in the end.
-/

namespace CompactingArena.SizeClasses

variable {c c' : SizeClasses} {t : HeaderTable} {region region' : Region}
  {filed filed' : Nat → List Chunk} {chunk : Chunk} {taken : Option Chunk}
  {search : Act Found} {before after : List Chunk} {floor floor' k least limit : Nat}

/-- A search ends with `taken`, and with lists that can be relied on as before. -/
structure Retrieves (t : HeaderTable) (c : SizeClasses) (region : Region)
    (filed : Nat → List Chunk) (search : Act Found) (taken : Option Chunk) (floor : Nat)
    (c' : SizeClasses) (region' : Region) (filed' : Nat → List Chunk) : Prop where
  yields : search.Yields (.ok (taken.map Chunk.handle), c', region')
  stocks : c'.Stocks t region' filed'
  shifts : c.Shifts region filed taken floor c' region' filed'

theorem Retrieves.mono (h : Retrieves t c region filed search taken floor c' region' filed')
    (hle : floor' ≤ floor) : Retrieves t c region filed search taken floor' c' region' filed' :=
  ⟨h.yields, h.stocks, h.shifts.mono hle⟩

/-- The chunk of the lowest class above that of a request, and failing that the first one
of this class that is large enough. -/
def firstFit (c : SizeClasses) (filed : Nat → List Chunk) (least : Nat) : Option Chunk :=
  let natural := c.classFor least
  ((List.range' (natural + 1) (c.count - (natural + 1))).findSome? fun k => (filed k).head?).or
    ((filed natural).find? fun d => least ≤ d.size)

/-- A class above the own class of a request exists only if that is not cut off. -/
theorem lt_of_classFor_lt (hpos : 0 < least) (hk : c.classFor least < k) (hlt : k < c.count) :
    least < 2 ^ k := by
  have hown : c.classFor least = least.log2 := by
    unfold classFor at hk ⊢
    omega
  exact (Nat.log2_lt (by omega)).mp (hown ▸ hk)

/-- What a scan has filed anew last heads the class of its size. -/
def Awaits (c : SizeClasses) (filed : Nat → List Chunk) (k : Nat) (demoted : Option Chunk) :
    Prop :=
  ∀ d ∈ demoted, k < c.classFor d.size ∧ (filed (c.classFor d.size)).head? = some d

theorem scanFrom_none {previous demoted : Option Handle} :
    scanFrom t k least limit previous none demoted c region = takeDemoted t demoted c region := by
  cases limit <;> rfl

namespace Stocks

variable (h : c.Stocks t region filed)
include h

/-- What is looked up of a filed chunk. -/
theorem get_eq (hk : k < c.count) (hchunk : chunk ∈ filed k) :
    0 < chunk.size ∧ ∃ record, t.get chunk.handle = pure record ∧ record.size = chunk.size := by
  have hplaces := h.filable.places chunk (mem_stock.mpr ⟨k, hk, hchunk⟩)
  obtain ⟨record, hget, hdesc⟩ := hplaces.record
  exact ⟨hplaces.pos, record, HeaderTable.get_eq hget, hdesc.size⟩

theorem pop_nil (hk : k < c.count) (hfiled : filed k = []) :
    c.pop t region k = pure (.ok none) := by
  have hlink := h.link_eq hk
  rw [hfiled] at hlink
  rw [pop, head_eq hlink]
  rfl

/-- To pop a class is to take its first chunk out. -/
theorem pop_cons (hk : k < c.count) (hfiled : filed k = chunk :: after)
    (hunlink : c.unlink t region k none chunk.handle = pure (.ok (c', region'))) :
    c.pop t region k = pure (.ok (some (chunk.handle, c', region'))) := by
  have hlink := h.link_eq hk
  rw [hfiled] at hlink
  rw [pop, head_eq hlink]
  simp only [pure_bind, List.head?_cons, Option.map_some, hunlink]

section Pop

variable (hk : k < c.count) (hfiled : filed k = chunk :: after)
include hk hfiled

/-- A first chunk that is filed too low is filed anew. -/
theorem popFit_refiles (hlow : k < c.classFor chunk.size) :
    ∃ c' region' filed', Refiles t c region filed k chunk after c' region' filed' ∧ ∀ limit,
      popFit t k (limit + 1) c region = (do
        Act.log (.demoted chunk.handle chunk.size k)
        popFit t k limit c' region') := by
  have hchunk : chunk ∈ filed k := by simp [hfiled]
  obtain ⟨hpos, record, hget, hsize⟩ := h.get_eq hk hchunk
  obtain ⟨c₁, region₁, c₂, region₂, filed₂, hunlink, hcount, hinsert, hrefiles⟩ :=
    h.refile hk (show filed k = [] ++ chunk :: after from hfiled) hlow
  refine ⟨c₂, region₂, filed₂, hrefiles, fun limit => ?_⟩
  rw [SizeClasses.popFit, h.pop_cons hk hfiled hunlink]
  simp only [pure_bind, hget, hsize, classOf_eq hpos, Nat.one_shiftLeft,
    if_neg (Nat.not_lt.mpr (h.large k hk chunk hchunk)), classFor_congr hcount, if_pos hlow,
    hinsert]

/-- Any other first chunk is taken. -/
theorem popFit_takes (hlow : ¬k < c.classFor chunk.size) (limit : Nat) :
    ∃ c' region' filed', Retrieves t c region filed (popFit t k (limit + 1) c region) (some chunk)
      k c' region' filed' := by
  have hchunk : chunk ∈ filed k := by simp [hfiled]
  obtain ⟨hpos, record, hget, hsize⟩ := h.get_eq hk hchunk
  obtain ⟨c', region', hunlink, hstocks, hshifts⟩ :=
    h.unlink hk (show filed k = [] ++ chunk :: after from hfiled)
  refine ⟨c', region', _, ?_, hstocks, hshifts⟩
  rw [SizeClasses.popFit, h.pop_cons hk hfiled hunlink]
  simp only [pure_bind, hget, hsize, classOf_eq hpos, Nat.one_shiftLeft,
    if_neg (Nat.not_lt.mpr (h.large k hk chunk hchunk)), classFor_congr hshifts.count,
    if_neg hlow]
  exact Act.yields_pure _

end Pop

/-- A class that is not empty serves with its first chunk, unless all its chunks are filed
too low: these are in higher classes then. -/
theorem popFit (hk : k < c.count) (hlimit : (filed k).length ≤ limit) :
    (filed k = [] ∧ popFit t k limit c region = pure (.ok none, c, region)) ∨
      filed k ≠ [] ∧ ∃ taken c' region' filed',
        Retrieves t c region filed (popFit t k limit c region) taken k c' region' filed' ∧
        (taken = none → filed' k = [] ∧ ∃ j, k < j ∧ j < c.count ∧ filed' j ≠ []) ∧
        (∀ d ∈ taken, 2 ^ k ≤ d.size) ∧ (c.Proper filed → taken = (filed k).head?) := by
  induction limit generalizing c region filed with
  | zero =>
      have hnil : filed k = [] := List.eq_nil_of_length_eq_zero (Nat.le_zero.mp hlimit)
      rw [SizeClasses.popFit, h.pop_nil hk hnil, pure_bind]
      exact .inl ⟨hnil, rfl⟩
  | succ limit ih =>
      cases hfiled : filed k with
      | nil =>
          rw [SizeClasses.popFit, h.pop_nil hk hfiled, pure_bind]
          exact .inl ⟨rfl, rfl⟩
      | cons chunk after =>
          refine .inr ⟨List.cons_ne_nil _ _, ?_⟩
          have hchunk : chunk ∈ filed k := by simp [hfiled]
          by_cases hlow : k < c.classFor chunk.size
          · obtain ⟨c₂, region₂, filed₂, hrefiles, hpop⟩ := h.popFit_refiles hk hfiled hlow
            have hcount := hrefiles.shifts.count
            have himproper : ¬c.Proper filed := fun hproper =>
              Nat.ne_of_gt hlow (hproper k hk chunk hchunk)
            rw [hpop limit]
            rw [hfiled] at hlimit
            rcases ih hrefiles.stocks (hcount ▸ hk) (by simpa [hrefiles.stays] using hlimit) with
              ⟨hnil, hrest⟩ | ⟨-, taken, c₃, region₃, filed₃, hretrieves, hnone, hfit, -⟩
            · rw [hrest]
              have hnonempty : filed₂ (c.classFor chunk.size) ≠ [] :=
                List.ne_nil_of_mem (List.mem_of_head? hrefiles.heads)
              exact ⟨none, c₂, region₂, filed₂, ⟨(Act.yields_log _).bind (Act.yields_pure _),
                hrefiles.stocks, hrefiles.shifts⟩, fun _ => ⟨hnil, _, hlow,
                classFor_lt (by omega) _, hnonempty⟩, by simp,
                fun hproper => absurd hproper himproper⟩
            · refine ⟨taken, c₃, region₃, filed₃, ⟨(Act.yields_log _).bind hretrieves.yields,
                hretrieves.stocks, hrefiles.shifts.trans hretrieves.shifts⟩, ?_, hfit,
                fun hproper => absurd hproper himproper⟩
              rwa [hcount] at hnone
          · obtain ⟨c', region', filed', hretrieves⟩ := h.popFit_takes hk hfiled hlow limit
            exact ⟨some chunk, c', region', filed', hretrieves, by simp,
              by simpa using h.large k hk chunk hchunk, fun _ => rfl⟩

/-- Classes from `k` on serve with the first chunk that belongs where it is filed, unless
they are empty. -/
theorem popFirst {n : Nat} (hn : k + n = c.count) :
    ((∀ j, k ≤ j → j < c.count → filed j = []) ∧
        popFirst t (List.range' k n) c region = pure (.ok none, c, region)) ∨
      k < c.count ∧ ∃ d c' region' filed',
        Retrieves t c region filed (popFirst t (List.range' k n) c region) (some d) k c' region'
          filed' ∧
        2 ^ k ≤ d.size ∧
        (c.Proper filed → (List.range' k n).findSome? (fun j => (filed j).head?) = some d) := by
  induction n generalizing c region filed k with
  | zero => exact .inl ⟨fun j hj hlt => absurd hlt (by omega), rfl⟩
  | succ n ih =>
      have hk : k < c.count := by omega
      have hpow : 2 ^ k ≤ 2 ^ (k + 1) := Nat.pow_le_pow_right (by decide) (Nat.le_succ k)
      rw [List.range'_succ, SizeClasses.popFirst]
      rcases h.popFit hk (h.length_filed_le hk) with
        ⟨hnil, hpop⟩ | ⟨hsome, taken, c₁, region₁, filed₁, hpop, hnone, hfit, hproper⟩
      · rw [hpop, pure_bind]
        rcases ih h (show k + 1 + n = c.count by omega) with
          ⟨hempty, hrest⟩ | ⟨-, d, c₁, region₁, filed₁, hretrieves, hlarge, hproper⟩
        · refine .inl ⟨fun j hj hlt => ?_, hrest⟩
          rcases Nat.lt_or_eq_of_le hj with hj | rfl
          · exact hempty j hj hlt
          · exact hnil
        · refine .inr ⟨hk, d, c₁, region₁, filed₁, hretrieves.mono (Nat.le_succ k),
            hpow.trans hlarge, fun hp => ?_⟩
          rw [List.findSome?_cons, hnil]
          exact hproper hp
      · cases taken with
        | none =>
            obtain ⟨-, j, hj, hlt, hne⟩ := hnone rfl
            have hcount := hpop.shifts.count
            rcases ih hpop.stocks (show k + 1 + n = c₁.count by omega) with
              ⟨hempty, -⟩ | ⟨-, d, c₂, region₂, filed₂, hretrieves, hlarge, -⟩
            · exact absurd (hempty j hj (hcount ▸ hlt)) hne
            · refine .inr ⟨hk, d, c₂, region₂, filed₂, ⟨hpop.yields.bind hretrieves.yields,
                hretrieves.stocks, hpop.shifts.trans (hretrieves.shifts.mono (Nat.le_succ k))⟩,
                hpow.trans hlarge, fun hp => ?_⟩
              exact absurd (List.head?_eq_none_iff.mp (hproper hp).symm) hsome
        | some d =>
            refine .inr ⟨hk, d, c₁, region₁, filed₁,
              ⟨hpop.yields.bind (Act.yields_pure _), hpop.stocks, hpop.shifts⟩,
              hfit d rfl, fun hp => ?_⟩
            rw [List.findSome?_cons, ← hproper hp]

theorem takeDemoted (hcount : 0 < c.count)
    (hawaits : c.Awaits filed k (some chunk)) :
    2 ^ c.classFor chunk.size ≤ chunk.size ∧ ∃ c' region' filed', Retrieves t c region filed
      (takeDemoted t (some chunk.handle) c region) (some chunk) k c' region' filed' := by
  obtain ⟨hlow, hhead⟩ := hawaits chunk rfl
  have hlt := classFor_lt hcount chunk.size
  obtain ⟨after, hfiled⟩ := List.head?_eq_some_iff.mp hhead
  have hchunk : chunk ∈ filed (c.classFor chunk.size) := by simp [hfiled]
  obtain ⟨hpos, record, hget, hsize⟩ := h.get_eq hlt hchunk
  have hlink := h.link_eq hlt
  obtain ⟨c', region', hunlink, hstocks, hshifts⟩ :=
    h.unlink hlt (show filed _ = [] ++ chunk :: after from hfiled)
  refine ⟨h.large _ hlt chunk hchunk, c', region', _, ?_, hstocks, hshifts.mono hlow.le⟩
  have hbeq : (some chunk.handle == some chunk.handle) = true := by simp
  rw [hfiled] at hlink
  simp only [SizeClasses.takeDemoted, pure_bind, hget, hsize, classOf_eq hpos, head_eq hlink,
    List.head?_cons, Option.map_some, hbeq, Act.expect_true, h.pop_cons hlt hfiled hunlink]
  exact Act.yields_pure _

section Scan

variable (hk : k < c.count) (hfiled : filed k = before ++ chunk :: after)
include hk hfiled

/-- A scan files a chunk anew that is filed too low. -/
theorem scanFrom_refiles (hlow : k < c.classFor chunk.size) :
    ∃ c' region' filed', Refiles t c region filed k chunk (before ++ after) c' region' filed' ∧
      ∀ least limit demoted,
        scanFrom t k least (limit + 1) (before.getLast?.map Chunk.handle) (some chunk.handle)
          demoted c region =
        scanFrom t k least limit (before.getLast?.map Chunk.handle)
          (after.head?.map Chunk.handle) (some chunk.handle) c' region' := by
  have hchunk : chunk ∈ filed k := by simp [hfiled]
  obtain ⟨hpos, record, hget, hsize⟩ := h.get_eq hk hchunk
  obtain ⟨c₁, region₁, c₂, region₂, filed₂, hunlink, -, hinsert, hrefiles⟩ :=
    h.refile hk hfiled hlow
  refine ⟨c₂, region₂, filed₂, hrefiles, fun least limit demoted => ?_⟩
  simp only [SizeClasses.scanFrom, h.nextOf_eq hk hfiled, pure_bind, hget, hsize,
    classOf_eq hpos, Nat.one_shiftLeft, if_neg (Nat.not_lt.mpr (h.large k hk chunk hchunk)),
    if_pos hlow, hunlink, hinsert]

/-- Any other chunk is taken if it is large enough. -/
theorem scanFrom_takes (hlow : ¬k < c.classFor chunk.size) (hfit : least ≤ chunk.size)
    (limit : Nat) (demoted : Option Handle) :
    ∃ c' region' filed', Retrieves t c region filed
      (scanFrom t k least (limit + 1) (before.getLast?.map Chunk.handle) (some chunk.handle)
        demoted c region) (some chunk) k c' region' filed' := by
  have hchunk : chunk ∈ filed k := by simp [hfiled]
  obtain ⟨hpos, record, hget, hsize⟩ := h.get_eq hk hchunk
  obtain ⟨c', region', hunlink, hstocks, hshifts⟩ := h.unlink hk hfiled
  refine ⟨c', region', _, ?_, hstocks, hshifts⟩
  simp only [SizeClasses.scanFrom, h.nextOf_eq hk hfiled, pure_bind, hget, hsize,
    classOf_eq hpos, Nat.one_shiftLeft, if_neg (Nat.not_lt.mpr (h.large k hk chunk hchunk)),
    if_neg hlow, if_pos hfit, hunlink]
  exact Act.yields_pure _

/-- One that is not is passed. -/
theorem scanFrom_passes (hlow : ¬k < c.classFor chunk.size) (hfit : ¬least ≤ chunk.size)
    (limit : Nat) (previous demoted : Option Handle) :
    scanFrom t k least (limit + 1) previous (some chunk.handle) demoted c region =
      scanFrom t k least limit (some chunk.handle) (after.head?.map Chunk.handle) demoted c
        region := by
  have hchunk : chunk ∈ filed k := by simp [hfiled]
  obtain ⟨hpos, record, hget, hsize⟩ := h.get_eq hk hchunk
  simp only [SizeClasses.scanFrom, h.nextOf_eq hk hfiled, pure_bind, hget, hsize,
    classOf_eq hpos, Nat.one_shiftLeft, if_neg (Nat.not_lt.mpr (h.large k hk chunk hchunk)),
    if_neg hlow, if_neg hfit]

end Scan

/-- A scan takes the first chunk that fits, unless it comes to the end of the class; what
it has filed anew on the way then fits all the more. -/
theorem scanFrom (hcount : 0 < c.count) (hpos : 0 < least) (hk : c.classFor least = k)
    (hfiled : filed k = before ++ after) {demoted : Option Chunk}
    (hawaits : c.Awaits filed k demoted) (hlimit : after.length ≤ limit) :
    (demoted = none ∧ (∀ d ∈ after, d.size < least) ∧
        scanFrom t k least limit (before.getLast?.map Chunk.handle)
          (after.head?.map Chunk.handle) (demoted.map Chunk.handle) c region =
            pure (.ok none, c, region)) ∨
      ∃ d c' region' filed',
        Retrieves t c region filed
          (scanFrom t k least limit (before.getLast?.map Chunk.handle)
            (after.head?.map Chunk.handle) (demoted.map Chunk.handle) c region)
          (some d) k c' region' filed' ∧
        least ≤ d.size ∧
        (c.Proper filed → demoted = none → after.find? (fun d => least ≤ d.size) = some d) := by
  have hlt : k < c.count := hk ▸ classFor_lt hcount least
  induction after generalizing before limit c region filed demoted with
  | nil =>
      cases demoted with
      | none =>
          exact .inl ⟨rfl, by simp, scanFrom_none⟩
      | some chunk =>
          obtain ⟨hlow, -⟩ := hawaits chunk rfl
          obtain ⟨hlarge, c', region', filed', hretrieves⟩ := h.takeDemoted hcount hawaits
          have hleast := lt_of_classFor_lt hpos (hk ▸ hlow) (classFor_lt hcount chunk.size)
          rw [List.head?_nil, Option.map_none, scanFrom_none]
          exact .inr ⟨chunk, c', region', filed', hretrieves, hleast.le.trans hlarge, by simp⟩
  | cons chunk after ih =>
      obtain ⟨limit, rfl⟩ : ∃ n, limit = n + 1 := ⟨limit - 1, by simp at hlimit; omega⟩
      have hrest : after.length ≤ limit := by simpa using hlimit
      rw [List.head?_cons, Option.map_some]
      by_cases hlow : k < c.classFor chunk.size
      · obtain ⟨c₂, region₂, filed₂, hrefiles, hscan⟩ := h.scanFrom_refiles hlt hfiled hlow
        have hcount₂ := hrefiles.shifts.count
        have hclass (size : Nat) : c₂.classFor size = c.classFor size := classFor_congr hcount₂ size
        have hawaits₂ : c₂.Awaits filed₂ k (some chunk) := by
          rintro d hd
          obtain rfl : chunk = d := Option.some.inj hd
          rw [hclass]
          exact ⟨hlow, hrefiles.heads⟩
        rw [hscan]
        rcases ih hrefiles.stocks (hcount₂ ▸ hcount) ((hclass least).trans hk) hrefiles.stays
          hawaits₂ hrest (hcount₂ ▸ hlt) with
          ⟨hnone, -⟩ | ⟨d, c₃, region₃, filed₃, hretrieves, hfit, -⟩
        · exact absurd hnone (by simp)
        · exact .inr ⟨d, c₃, region₃, filed₃, ⟨hretrieves.yields, hretrieves.stocks,
            hrefiles.shifts.trans hretrieves.shifts⟩, hfit,
            fun hproper => absurd (hproper k hlt chunk (by simp [hfiled])) (Nat.ne_of_gt hlow)⟩
      · by_cases hfit : least ≤ chunk.size
        · obtain ⟨c', region', filed', hretrieves⟩ :=
            h.scanFrom_takes hlt hfiled hlow hfit limit (demoted.map Chunk.handle)
          refine .inr ⟨chunk, c', region', filed', hretrieves, hfit, fun _ _ => ?_⟩
          rw [List.find?_cons_of_pos (by simpa using hfit)]
        · have hprevious : some chunk.handle = (before ++ [chunk]).getLast?.map Chunk.handle := by
            simp
          have hfiled' : filed k = before ++ [chunk] ++ after := by simp [hfiled]
          rw [h.scanFrom_passes hlt hfiled hlow hfit, hprevious]
          rcases ih h hcount hk hfiled' hawaits hrest hlt with
            ⟨rfl, hsmall, hscan⟩ | ⟨d, c₁, region₁, filed₁, hretrieves, hfit', hfirst⟩
          · refine .inl ⟨rfl, fun d hd => ?_, hscan⟩
            rcases List.mem_cons.mp hd with rfl | hd
            · exact Nat.lt_of_not_le hfit
            · exact hsmall d hd
          · refine .inr ⟨d, c₁, region₁, filed₁, hretrieves, hfit', fun hp hnone => ?_⟩
            rw [List.find?_cons_of_neg (by simpa using hfit)]
            exact hfirst hp hnone

/-- A search takes a chunk out that is large enough, unless the classes that it looks
through hold none. -/
theorem find (hcount : 0 < c.count) (hpos : 0 < least) :
    ((∀ k, c.classFor least ≤ k → k < c.count → ∀ d ∈ filed k, d.size < least) ∧
        c.firstFit filed least = none ∧
        c.find t region least = pure (.ok none, c, region)) ∨
      ∃ d c' region' filed',
        Retrieves t c region filed (c.find t region least) (some d) (c.classFor least) c' region'
          filed' ∧
        least ≤ d.size ∧ (c.Proper filed → c.firstFit filed least = some d) := by
  have hlt := classFor_lt hcount least
  have hclasses : c.classFor least + 1 + (c.count - (c.classFor least + 1)) = c.count := by omega
  rw [SizeClasses.find, classOf_eq hpos, pure_bind]
  rcases h.popFirst hclasses with
    ⟨hempty, hfirst⟩ | ⟨hlow, d, c', region', filed', hretrieves, hlarge, hproper⟩
  · have hnone : (List.range' (c.classFor least + 1)
        (c.count - (c.classFor least + 1))).findSome? (fun k => (filed k).head?) = none := by
      rw [List.findSome?_eq_none_iff]
      intro k hk
      rw [List.mem_range'_1] at hk
      rw [hempty k (by omega) (by omega)]
      rfl
    simp only [hfirst, pure_bind, head_eq (h.link_eq hlt)]
    rcases h.scanFrom hcount hpos rfl (show filed _ = [] ++ filed _ from rfl)
      (show c.Awaits filed _ none by simp [Awaits]) (h.length_filed_le hlt) with
      ⟨-, hsmall, hscan⟩ | ⟨d, c', region', filed', hretrieves, hfit, hproper⟩
    · refine .inl ⟨fun k hk hlt' d hd => ?_, ?_, hscan⟩
      · rcases Nat.lt_or_eq_of_le hk with hk | rfl
        · rw [hempty k hk hlt'] at hd
          exact absurd hd (by simp)
        · exact hsmall d hd
      · rw [firstFit, hnone, Option.none_or, List.find?_eq_none]
        intro d hd
        simpa using hsmall d hd
    · refine .inr ⟨d, c', region', filed', hretrieves, hfit, fun hp => ?_⟩
      rw [firstFit, hnone, Option.none_or, hproper hp rfl]
  · have hleast := lt_of_classFor_lt hpos (Nat.lt_succ_self _) hlow
    refine .inr ⟨d, c', region', filed', ⟨hretrieves.yields.bind (Act.yields_pure _),
      hretrieves.stocks, hretrieves.shifts.mono (Nat.le_succ _)⟩, hleast.le.trans hlarge,
      fun hp => ?_⟩
    rw [firstFit, hproper hp, Option.some_or]

end Stocks

end CompactingArena.SizeClasses
