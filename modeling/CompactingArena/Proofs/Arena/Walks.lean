import CompactingArena.Proofs.Arena.Audit
import CompactingArena.Proofs.Arena.Framed
import CompactingArena.Proofs.SizeClasses.Course
/-!
# Walks through damaged free lists

The audit and the statistics look up every handle that a walk visits, and only then
does the walk find out whether it was any good.  So they fault at a handle without a
record, and the audit moreover at one whose record is unused; anything else that may
be wrong with the lists is told.  They walk through the classes in ascending order, so
that what matters is which comes first.
-/

namespace CompactingArena

open Act Layout

namespace Audit

variable {α β : Type}

theorem faults_lift_bind {x : Act α} (hx : Faults x) (f : α → Audit β) :
    Faults (liftM x >>= f : Audit β).run := by
  rw [ExceptT.run_bind]
  exact (hx.bind _).bind _

/-- A verdict at the end adds no fault. -/
theorem faults_bind_conclude_iff {x : Audit α} {f : α → Except Violation β} :
    Faults (x >>= fun a => conclude (f a)).run ↔ Faults x.run := by
  by_cases hx : Faults x.run
  · rw [ExceptT.run_bind]
    exact iff_of_true (hx.bind _) hx
  · refine iff_of_false ?_ hx
    obtain ⟨verdict, hverdict⟩ := not_faults_iff.mp hx
    rw [ExceptT.run_bind, faults_bind_iff hverdict]
    cases verdict with
    | error violation => exact not_faults_pure _
    | ok a => exact not_faults_pure _

end Audit

namespace Arena

open Audit

variable {a : Arena} {chunks : List Chunk} {spare : List Handle} {h : Handle}
  {clean bad : Nat → Prop} {k n : Nat} {β : Type}

/-- The handles that a walk through a class visits, and how it ends. -/
def course (a : Arena) (k : Nat) : List Handle × Except Violation Unit :=
  SizeClasses.course a.headers a.region a.headers.capacity a.classes.heads[k]?.join

/-- A walk through the classes in ascending order visits something bad, and all classes
before that one are clean. -/
def ComesUpon (a : Arena) (clean : Nat → Prop) (bad : Handle → Prop) : Prop :=
  ∃ k < a.classes.count, (∀ j < k, clean j) ∧ ∃ h ∈ (a.course k).1, bad h

/-- The list of a class comes to an end. -/
def Closed (a : Arena) (k : Nat) : Prop := (a.course k).2 = .ok ()

/-- A handle is that of a free chunk of class `k`. -/
def Belongs (a : Arena) (k : Nat) (h : Handle) : Prop :=
  ∃ r, a.headers.live? h = some r ∧ r.state.isFree = true ∧ a.classes.classFor r.size = k

/-- An audit finds nothing wrong with a class by itself. -/
structure Tidy (a : Arena) (k : Nat) : Prop where
  closed : a.Closed k
  filed : ∀ h ∈ (a.course k).1, a.Belongs k h

/-- A handle describes no chunk. -/
def Dead (a : Arena) (h : Handle) : Prop := a.headers.live? h = none

/-- A handle names no record. -/
def Beyond (a : Arena) (h : Handle) : Prop := a.headers.capacity ≤ h.index

theorem Laid.walk_eq (hlaid : a.Laid chunks spare) (hk : k < a.classes.count)
    (visit : β → Handle → Act β) (acc : β) :
    a.classes.walk a.headers a.region visit k acc = do
      let acc ← (a.course k).1.foldlM visit acc
      return (acc, (a.course k).2) := by
  obtain ⟨head, hhead⟩ := SizeClasses.exists_head hk
  rw [SizeClasses.walk, SizeClasses.head_eq hhead, pure_bind,
    SizeClasses.walkFrom_eq_course hlaid.charted, course, hhead, Option.join_some]

theorem Laid.filed_eq (hlaid : a.Laid chunks spare) (hk : k < a.classes.count) :
    a.classes.filed a.headers a.region k = pure (a.course k) := by
  obtain ⟨head, hhead⟩ := SizeClasses.exists_head hk
  rw [SizeClasses.filed_eq_course hlaid.charted hhead, course, hhead, Option.join_some]

/-! ## The first class that is bad -/

/-- One of the `n` classes from `k` on is bad, and those before it are clean. -/
def Arises (clean bad : Nat → Prop) (k n : Nat) : Prop :=
  ∃ m, k ≤ m ∧ m < k + n ∧ (∀ j, k ≤ j → j < m → clean j) ∧ bad m

theorem not_arises_zero : ¬Arises clean bad k 0 := by
  rintro ⟨m, hle, hlt, -⟩
  omega

theorem arises_succ :
    Arises clean bad k (n + 1) ↔ bad k ∨ clean k ∧ Arises clean bad (k + 1) n := by
  constructor
  · rintro ⟨m, hle, hlt, hclean, hbad⟩
    rcases Nat.eq_or_lt_of_le hle with rfl | hless
    · exact .inl hbad
    · exact .inr ⟨hclean k (le_refl _) hless, m, hless, by omega,
        fun j hj hjm => hclean j (by omega) hjm, hbad⟩
  · rintro (hbad | ⟨hclean, m, hle, hlt, hcleans, hbad⟩)
    · exact ⟨k, le_refl _, by omega, fun j hj hjk => absurd hj (by omega), hbad⟩
    · refine ⟨m, by omega, by omega, fun j hj hjm => ?_, hbad⟩
      rcases Nat.eq_or_lt_of_le hj with rfl | hless
      · exact hclean
      · exact hcleans j hless hjm

theorem arises_iff_comesUpon {bad : Handle → Prop} :
    Arises clean (fun k => ∃ h ∈ (a.course k).1, bad h) 0 a.classes.count ↔
      a.ComesUpon clean bad := by
  simp [Arises, ComesUpon]

/-! ## Statistics -/

section Statistics

variable {f : β → Nat → Act β} (hf : ∀ acc size, Ends (f acc size) fun _ => True)
include hf

/-- A walk can be folded over if all that it visits have records. -/
theorem ends_foldlM {hs : List Handle} (hhs : ∀ h ∈ hs, ¬a.Beyond h) (acc : β) :
    Ends (hs.foldlM (fun acc h => do f acc (← a.headers.get h).size) acc) fun _ => True := by
  induction hs generalizing acc with
  | nil => exact .of_pure trivial
  | cons h hs ih =>
      have hin : h.index < a.headers.capacity := Nat.lt_of_not_le (hhs h (by simp))
      obtain ⟨r, hget⟩ :=
        Option.isSome_iff_exists.mp ((HeaderTable.get?_isSome_iff a.headers h).mpr hin)
      rw [List.foldlM_cons, HeaderTable.get_eq hget, pure_bind]
      exact (hf acc r.size).bind fun acc' _ _ => ih (fun g hg => hhs g (by simp [hg])) acc'

omit hf in
theorem faults_get (hbeyond : a.Beyond h) : Faults (a.headers.get h) := by
  have hnone : a.headers.get? h = none := by
    rw [← Option.not_isSome_iff_eq_none, HeaderTable.get?_isSome_iff]
    exact Nat.not_lt_of_le hbeyond
  rw [HeaderTable.get, hnone]
  rfl

/-- By induction on the number of classes left: a walk that visits nothing beyond the
table either goes on with the next class or gives up. -/
theorem Laid.faults_foldFreeFrom_iff (hlaid : a.Laid chunks spare) (hn : k + n ≤ a.classes.count)
    (acc : β) : Faults (a.foldFreeFrom f (List.range' k n) acc) ↔
      Arises a.Closed (fun j => ∃ h ∈ (a.course j).1, a.Beyond h) k n := by
  induction n generalizing k acc with
  | zero => exact iff_of_false (not_faults_pure _) not_arises_zero
  | succ n ih =>
      rw [List.range'_succ, foldFreeFrom, hlaid.walk_eq (by omega), bind_assoc, arises_succ]
      by_cases hbad : ∃ h ∈ (a.course k).1, a.Beyond h
      · obtain ⟨h, hh, hbeyond⟩ := id hbad
        refine iff_of_true (Faults.bind (faults_foldlM hh (fun _ => ?_) acc) _) (.inl hbad)
        exact (faults_get hbeyond).bind _
      · obtain ⟨acc', hfold, -⟩ := ends_iff.mp
          (ends_foldlM hf (fun h hh hbeyond => hbad ⟨h, hh, hbeyond⟩) acc)
        rw [faults_bind_iff hfold, pure_bind, or_iff_right hbad]
        cases hended : (a.course k).2 with
        | ok _ => exact (ih (by omega) acc').trans (and_iff_right hended).symm
        | error violation =>
            have hopen : ¬a.Closed k := by simp [Closed, hended]
            rw [faults_bind_iff (result_violate_release violation)]
            exact iff_of_false (not_faults_pure _) fun h => hopen h.1

theorem Laid.faults_foldFree_iff (hlaid : a.Laid chunks spare) (acc : β) :
    Faults (a.foldFree f acc) ↔ a.ComesUpon a.Closed a.Beyond := by
  rw [foldFree, List.range_eq_range', hlaid.faults_foldFreeFrom_iff hf (by omega),
    arises_iff_comesUpon]

end Statistics

/-! ## The audit -/

theorem Laid.exists_auditFiled (hlaid : a.Laid chunks spare) (hh : ¬a.Dead h) (k : Nat)
    (soFar : FiledSoFar) : ∃ verdict, a.auditFiled k soFar h = pure ⟨soFar.count + 1, verdict⟩ ∧
      (verdict = .ok () ↔ soFar.verdict = .ok () ∧ a.Belongs k h) := by
  obtain ⟨r, hlive⟩ := Option.ne_none_iff_exists'.mp hh
  obtain ⟨c, hc, rfl, -, hdesc⟩ := hlaid.live?_eq_some_iff.mp hlive
  have hbelongs : a.Belongs k c.handle ↔ c.isFree = true ∧ a.classes.classFor c.size = k := by
    simp [Belongs, hlive, hdesc.state, hdesc.size, Chunk.isFree]
  refine ⟨_, hlaid.auditFiled hc k soFar, ?_⟩
  rw [hbelongs]
  split_ifs with hused hclass
  · simp [hused]
  · simp [hclass]
  · simp [hused, not_not.mp hclass]

theorem Laid.exists_foldlM_auditFiled (hlaid : a.Laid chunks spare) (k : Nat) {hs : List Handle}
    (hhs : ∀ h ∈ hs, ¬a.Dead h) (soFar : FiledSoFar) :
    ∃ verdict, hs.foldlM (a.auditFiled k) soFar = pure ⟨soFar.count + hs.length, verdict⟩ ∧
      (verdict = .ok () ↔ soFar.verdict = .ok () ∧ ∀ h ∈ hs, a.Belongs k h) := by
  induction hs generalizing soFar with
  | nil => exact ⟨soFar.verdict, rfl, by simp⟩
  | cons h hs ih =>
      obtain ⟨verdict, haudit, hverdict⟩ := hlaid.exists_auditFiled (hhs h (by simp)) k soFar
      obtain ⟨verdict', hrest, hverdict'⟩ :=
        ih (fun g hg => hhs g (by simp [hg])) ⟨soFar.count + 1, verdict⟩
      refine ⟨verdict', ?_, ?_⟩
      · rw [List.foldlM_cons, haudit, pure_bind, hrest, List.length_cons]
        congr 2
        exact Nat.add_right_comm _ _ _
      · rw [hverdict', hverdict, List.forall_mem_cons, and_assoc]

/-- An unused record is filed under no class: it has no size. -/
theorem Laid.faults_auditFiled (hlaid : a.Laid chunks spare) (hh : a.Dead h) (k : Nat)
    (soFar : FiledSoFar) : Faults (a.auditFiled k soFar h) := by
  rw [Arena.auditFiled]
  by_cases hbeyond : a.Beyond h
  · exact (faults_get hbeyond).bind _
  · have hout := hlaid.live?_eq_none_iff.mp hh
    have hmem := hlaid.kept.mem_iff.mpr (Nat.lt_of_not_le hbeyond)
    have hspare := (List.mem_append.mp hmem).resolve_left hout
    obtain ⟨r, hget, hblank⟩ := hlaid.kept.recycled.blank hspare
    simp only [HeaderTable.get_eq hget, pure_bind, hblank.state, hblank.size]
    rfl

/-- The handles filed in the classes below `k`. -/
def filedUpTo (a : Arena) (k : Nat) : List Handle := (List.range k).flatMap fun j => (a.course j).1

theorem filedUpTo_succ (a : Arena) (k : Nat) :
    a.filedUpTo (k + 1) = a.filedUpTo k ++ (a.course k).1 := by
  rw [filedUpTo, filedUpTo, List.range_succ, List.flatMap_append, List.flatMap_singleton]

theorem belongs_of_filedUpTo (htidy : ∀ j < k, a.Tidy j) (hh : h ∈ a.filedUpTo k) :
    ∃ j < k, a.Belongs j h := by
  obtain ⟨j, hj, hh⟩ := List.mem_flatMap.mp hh
  exact ⟨j, List.mem_range.mp hj, (htidy j (List.mem_range.mp hj)).filed h hh⟩

/-- In tidy classes, nothing is filed twice. -/
theorem nodup_filedUpTo (htidy : ∀ j < k, a.Tidy j) : (a.filedUpTo k).Nodup := by
  induction k with
  | zero => exact List.nodup_nil
  | succ k ih =>
      have hbelow : ∀ j < k, a.Tidy j := fun j hj => htidy j (by omega)
      have htop := htidy k (Nat.lt_succ_self k)
      rw [filedUpTo_succ, List.nodup_append]
      refine ⟨ih hbelow, SizeClasses.nodup_course htop.closed, ?_⟩
      rintro h hh g hg rfl
      obtain ⟨j, hj, r, hlive, -, hclass⟩ := belongs_of_filedUpTo hbelow hh
      obtain ⟨r', hlive', -, hclass'⟩ := htop.filed h hg
      obtain rfl : r = r' := Option.some.inj (hlive.symm.trans hlive')
      omega

/-- So the check of their number has nothing left to find. -/
theorem Laid.length_filedUpTo_le (hlaid : a.Laid chunks spare) (htidy : ∀ j < k, a.Tidy j) :
    (a.filedUpTo k).length ≤ a.headers.capacity := by
  have hsub : a.filedUpTo k ⊆ handles chunks := by
    intro h hh
    obtain ⟨j, -, r, hlive, -⟩ := belongs_of_filedUpTo htidy hh
    obtain ⟨c, hc, rfl, -⟩ := hlaid.live?_eq_some_iff.mp hlive
    exact handle_mem hc
  calc (a.filedUpTo k).length
    _ ≤ (handles chunks).length := ((nodup_filedUpTo htidy).subperm hsub).length_le
    _ = chunks.length := length_handles chunks
    _ ≤ a.headers.capacity := hlaid.length_le

/-- By induction on the number of classes left, as for the statistics. -/
theorem Laid.faults_auditClasses_iff (hlaid : a.Laid chunks spare)
    (hn : k + n ≤ a.classes.count) (htidy : ∀ j < k, a.Tidy j) :
    Faults (a.auditClasses (List.range' k n) (a.filedUpTo k).length).run ↔
      Arises a.Tidy (fun j => ∃ h ∈ (a.course j).1, a.Dead h) k n := by
  induction n generalizing k with
  | zero => exact iff_of_false (not_faults_pure _) not_arises_zero
  | succ n ih =>
      rw [List.range'_succ, Arena.auditClasses, hlaid.walk_eq (by omega), arises_succ]
      by_cases hbad : ∃ h ∈ (a.course k).1, a.Dead h
      · obtain ⟨h, hh, hdead⟩ := id hbad
        refine iff_of_true (faults_lift_bind (Faults.bind ?_ _) _) (.inl hbad)
        exact faults_foldlM hh (hlaid.faults_auditFiled hdead k) _
      · obtain ⟨verdict, hfold, hverdict⟩ := hlaid.exists_foldlM_auditFiled k
          (fun h hh hdead => hbad ⟨h, hh, hdead⟩) ⟨(a.filedUpTo k).length, .ok ()⟩
        rw [hfold, pure_bind, liftM_pure, pure_bind, or_iff_right hbad]
        have hclosed : (a.course k).2 = .ok () ↔ a.Closed k := Iff.rfl
        cases hended : (a.course k).2 with
        | error violation =>
            rw [hended] at hclosed
            exact iff_of_false (not_faults_pure _) fun h =>
              absurd (hclosed.mpr h.1.closed) (by simp)
        | ok _ =>
            cases verdict with
            | error violation =>
                exact iff_of_false (not_faults_pure _) fun h =>
                  absurd (hverdict.mpr ⟨rfl, h.1.filed⟩) (by simp)
            | ok _ =>
                have htop : a.Tidy k := ⟨hended, (hverdict.mp rfl).2⟩
                have htidy' : ∀ j < k + 1, a.Tidy j := fun j hj =>
                  (Nat.lt_succ_iff_lt_or_eq.mp hj).elim (htidy j) fun h => h ▸ htop
                have hlength : (a.filedUpTo k).length + (a.course k).1.length =
                    (a.filedUpTo (k + 1)).length := by
                  rw [filedUpTo_succ, List.length_append]
                have hle := hlaid.length_filedUpTo_le htidy'
                simp only [hlength, hle, decide_true]
                exact (ih (by omega) htidy').trans (and_iff_right htop).symm

/-- What an audit does not survive is a handle that describes no chunk, unless it finds a
broken list or a chunk filed wrongly in a class before. -/
theorem Framed.faults_verify_iff (hframed : a.Framed chunks spare) :
    Faults a.verify.run ↔ a.ComesUpon a.Tidy a.Dead := by
  have hclasses := hframed.toLaid.faults_auditClasses_iff (k := 0) (n := a.classes.count)
    (by omega) (by simp)
  rw [arises_iff_comesUpon, ← List.range_eq_range'] at hclasses
  rw [hframed.toLaid.verify_eq hframed.topped, ← hclasses]
  exact faults_bind_conclude_iff

end Arena

end CompactingArena
