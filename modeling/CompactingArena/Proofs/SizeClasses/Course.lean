import CompactingArena.Proofs.Path
import CompactingArena.Proofs.SizeClasses.Damaged
/-!
# The course of a walk

A walk along a list visits a handle first and looks whether it is any good only when it
goes on from there.  `SizeClasses.course` is the list of the handles that it visits, so
that the last of them may be anything; the others are live.  A walk that comes to the end
of a list visits no handle twice.
-/

namespace CompactingArena.SizeClasses

open Layout

variable {c : SizeClasses} {t : HeaderTable} {region : Region} {l : List Chunk}
  {link : Option Handle} {h : Handle} {limit k : Nat} {β : Type}

/-- The handles that a walk from a link on visits, at most `limit` of them, and how it
ends. -/
def course (t : HeaderTable) (region : Region) :
    Nat → Option Handle → List Handle × Except Violation Unit
  | _, none => ([], .ok ())
  | 0, some _ => ([], .error .cycleDetected)
  | limit + 1, some h =>
      match linkOf t region h with
      | .error violation => ([h], .error violation)
      | .ok next =>
          let rest := course t region limit next
          (h :: rest.1, rest.2)

theorem course_cons {next : Option Handle} (hnext : linkOf t region h = .ok next) (limit : Nat) :
    course t region (limit + 1) (some h) =
      (h :: (course t region limit next).1, (course t region limit next).2) := by
  rw [course, hnext]

/-- A walk is a fold along its course. -/
theorem walkFrom_eq_course (hchart : t.Charted region l) (visit : β → Handle → Act β)
    (limit : Nat) (link : Option Handle) (acc : β) :
    walkFrom t region visit limit link acc = do
      let acc ← (course t region limit link).1.foldlM visit acc
      return (acc, (course t region limit link).2) := by
  induction limit generalizing link acc with
  | zero => cases link <;> rfl
  | succ limit ih =>
      cases link with
      | none => rfl
      | some h =>
          rw [walkFrom]
          cases hlink : linkOf t region h with
          | error violation =>
              rw [course, hlink]
              simp only [nextOf_eq_linkOf hchart, hlink, pure_bind, List.foldlM_cons,
                List.foldlM_nil, bind_pure]
          | ok next =>
              rw [course_cons hlink]
              simp only [nextOf_eq_linkOf hchart, hlink, pure_bind, ih, List.foldlM_cons, bind_assoc]

theorem filed_eq_course (hchart : t.Charted region l) (hlink : c.heads[k]? = some link) :
    c.filed t region k = pure (course t region t.capacity link) := by
  rw [filed, walk, head_eq hlink, pure_bind, walkFrom_eq_course hchart, List.foldlM_pure,
    pure_bind, pure_bind, List.foldl_flip_cons_eq_append', List.append_nil]
  simp only [List.reverse_reverse]

/-- A walk that comes to the end of a list goes on from every handle that it visits. -/
theorem path_course (hended : (course t region limit link).2 = .ok ()) :
    Path (fun h next => linkOf t region h = .ok next) link (course t region limit link).1 := by
  induction limit generalizing link with
  | zero =>
      cases link with
      | none => rfl
      | some h => exact absurd hended (by simp [course])
  | succ limit ih =>
      cases link with
      | none => rfl
      | some h =>
          cases hlink : linkOf t region h with
          | error violation =>
              rw [course, hlink] at hended
              exact absurd hended (by simp)
          | ok next =>
              rw [course_cons hlink] at hended ⊢
              exact ⟨rfl, next, hlink, ih hended⟩

/-- A walk that comes to the end of a list visits no handle twice, or it would run in a circle. -/
theorem nodup_course (hended : (course t region limit link).2 = .ok ()) :
    (course t region limit link).1.Nodup :=
  (path_course hended).nodup fun _ _ _ hnext hnext' => Except.ok.inj (hnext.symm.trans hnext')

end CompactingArena.SizeClasses
