import DistributedMemory.Library.Run
import DistributedMemory.Storage.Ownership

/-!
# Safety of the lock table

The lock manager as a system of its own: any transactions call any of its five
methods in any order, granted or not, on a table that starts empty.  Whatever
was called, every entry stays sound, and `acquire` answers `True` exactly when
it leaves the caller with a lock that covers the request.
-/

namespace DistributedMemory.Storage

open DistributedMemory.Library

/-- A call of the lock manager.  `order` is the iteration of the recorded set
that the two bulk methods make. -/
inductive LockCall where
  | acquire (t : TxnId) (r : Resource) (lt : LockType)
  | release (t : TxnId) (r : Resource)
  | releaseAll (t : TxnId) (order : List Resource)
  | transferLocks (source target : TxnId) (order : List Resource)
  | upgrade (t : TxnId) (r : Resource)
  deriving DecidableEq, Repr

namespace LockManager

def Iterates (lm : LockManager) (t : TxnId) (order : List Resource) : Prop :=
  order.Nodup ∧ order.toFinset = lm.recorded t

instance (lm : LockManager) (t : TxnId) (order : List Resource) :
    Decidable (lm.Iterates t order) :=
  inferInstanceAs (Decidable (_ ∧ _))

def step (lm : LockManager) : LockCall → Option LockManager
  | .acquire t r lt => some (lm.acquire t r lt).1
  | .release t r => some (lm.release t r)
  | .releaseAll t order =>
      if lm.Iterates t order then some (lm.releaseAll t order).1 else none
  | .transferLocks source target order =>
      if lm.Iterates source order then
        some (lm.transferLocks source target order)
      else none
  | .upgrade t r => some (lm.upgrade t r).1

/-! ## The two methods on a single resource -/

section Single

variable {lm : LockManager}

theorem Valid.release (hvalid : lm.Valid) (t : TxnId) (r : Resource) :
    (lm.release t r).Valid := by
  have hentry := release_entry hvalid.keyed t r
  refine ⟨fun r' => ?_, fun r' => ?_⟩
  · rw [hentry]
    split
    · next heq => rw [LockEntry.drop_resource, hvalid.keyed, heq]
    · exact hvalid.keyed r'
  · rw [hentry]
    split
    · exact (hvalid.sound r).drop t
    · exact hvalid.sound r'

theorem Valid.upgrade (hvalid : lm.Valid) (t : TxnId) (r : Resource) :
    (lm.upgrade t r).1.Valid := by
  rcases lm.upgrade_spec t r with ⟨e, granted, hacq, hrw, -, -⟩ | ⟨hsame, -⟩
  · exact hvalid.acquires hacq hrw
  · rw [hsame]
    exact hvalid

end Single

/-! ## The answer of `acquire` -/

private theorem not_covers_of_queued {e e' : LockEntry} {t : TxnId} {lt : LockType}
    {granted : List TxnId} (h : Acquires e t lt e' granted false) :
    ¬ e'.Covers t lt := by
  cases h with
  | queued busy blocked =>
      intro hcovers
      have held : t ∈ e.holders := by simpa using hcovers.held
      apply blocked
      cases lt with
      | shared => exact ⟨held, .inr (.inl rfl)⟩
      | exclusive => exact ⟨held, .inl (by simpa using hcovers.mode rfl)⟩

private theorem acquire_eq_true_iff (lm : LockManager) (t : TxnId) (r : Resource)
    (lt : LockType) :
    (lm.acquire t r lt).2 = true ↔ (lm.acquire t r lt).1.Holds t r lt := by
  obtain ⟨e, granted, hacq, hrw⟩ := lm.acquire_spec t r lt
  unfold Holds
  rw [hrw.here]
  cases hanswer : (lm.acquire t r lt).2 with
  | true =>
      rw [hanswer] at hacq
      exact iff_of_true rfl hacq.covers
  | false =>
      rw [hanswer] at hacq
      exact iff_of_false Bool.false_ne_true (not_covers_of_queued hacq)

/-! ## Every sequence of calls -/

theorem Valid.step {lm lm' : LockManager} {call : LockCall} (hvalid : lm.Valid)
    (hstep : lm.step call = some lm') : lm'.Valid := by
  cases call with
  | acquire t r lt =>
      obtain ⟨e, granted, hacq, hrw⟩ := lm.acquire_spec t r lt
      obtain rfl := Option.some.inj hstep
      exact hvalid.acquires hacq hrw
  | release t r =>
      obtain rfl := Option.some.inj hstep
      exact hvalid.release t r
  | releaseAll t order =>
      obtain ⟨horder, heq⟩ := Option.ite_none_right_eq_some.mp hstep
      obtain rfl := Option.some.inj heq
      exact hvalid.releaseAll horder.1
  | transferLocks source target order =>
      obtain ⟨horder, heq⟩ := Option.ite_none_right_eq_some.mp hstep
      obtain rfl := Option.some.inj heq
      exact hvalid.transferLocks horder.1
  | upgrade t r =>
      obtain rfl := Option.some.inj hstep
      exact hvalid.upgrade t r

/--
Whatever was called on a lock manager that started empty, an exclusive lock has
exactly one holder, the mode of an entry is unset exactly when it has no holder,
nobody waits for a resource without a holder, and the next `acquire` answers
`True` exactly when the caller then holds the resource in a covering mode.
-/
theorem run_lockSafety {lm : LockManager} {calls : List LockCall}
    (hrun : run step new calls = some lm) :
    (∀ r e, lm.locks.get? r = some e →
      (e.lockType = some .exclusive → ∃ t, e.holders = {t}) ∧
        (e.lockType = none ↔ e.holders = ∅) ∧
        (e.holders = ∅ → e.waitQueue = [])) ∧
      ∀ t r lt, (lm.acquire t r lt).2 = true ↔
        (lm.acquire t r lt).1.Holds t r lt := by
  have hvalid : lm.Valid :=
    run_preserves (fun _ _ _ h hs => Valid.step h hs) valid_new hrun
  refine ⟨fun r e hget => ?_, fun t r lt => acquire_eq_true_iff lm t r lt⟩
  have hsound := hvalid.sound r
  rw [entry_of_get? hget] at hsound
  exact ⟨hsound.exclusive, hsound.free, hsound.idle⟩

/-- A reader asks for the exclusive lock, a writer queues behind it, and the
first reader leaves. -/
def upgradeCalls : List LockCall :=
  [.acquire "a" "x" .shared, .acquire "b" "x" .shared,
    .acquire "b" "x" .exclusive, .acquire "c" "x" .exclusive,
    .release "a" "x", .upgrade "b" "x", .releaseAll "b" ["x"]]

theorem upgradeCalls_lockSafety :
    ∃ lm, run step new upgradeCalls = some lm ∧
      (∀ r e, lm.locks.get? r = some e →
        (e.lockType = some .exclusive → ∃ t, e.holders = {t}) ∧
          (e.lockType = none ↔ e.holders = ∅) ∧
          (e.holders = ∅ → e.waitQueue = [])) ∧
        ∀ t r lt, (lm.acquire t r lt).2 = true ↔
          (lm.acquire t r lt).1.Holds t r lt := by
  have hruns : (run step new upgradeCalls).isSome = true := by
    decide +kernel
  obtain ⟨lm, hrun⟩ := Option.isSome_iff_exists.mp hruns
  exact ⟨lm, hrun, run_lockSafety hrun⟩

end LockManager

end DistributedMemory.Storage
