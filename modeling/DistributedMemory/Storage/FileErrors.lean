import DistributedMemory.Library.Run
import DistributedMemory.Storage.LockInvariant

/-!
# Calls that raise

Every call of the transaction manager reads or writes files, and an access may raise: a
record does not parse, a value cannot be encoded, the disk is full.  The exception leaves
the call where it is.  What the access has left of the log and of the stored records is
part of the fault, so nothing is assumed about it.
-/

namespace DistributedMemory.Storage

open DistributedMemory.Library DistributedMemory.Recovery

/-- A call that raises.  `wal` and `store` are what it leaves of the files. -/
inductive TxnFault where
  | begin (parent : Option TxnId) (wal : WriteAheadLog)
  | call (i : ThreadId) (wal : WriteAheadLog)
  | commit (t : TxnId) (wal : WriteAheadLog) (store : Store)
  | abort (t : TxnId) (wal : WriteAheadLog)

/-- A step of a thread with the manager: it does what it should, or raises. -/
inductive ManagerStep where
  | ran (a : TxnAction)
  | raised (f : TxnFault)

namespace TransactionManager

/-- The locks that `read` and `write` note before they touch a file. -/
def noteLock (txn : Transaction) : Op → Transaction
  | .read resource _ =>
      { txn with
        locksHeld := insert (resource, .shared) txn.locksHeld }
  | .write resource _ _ =>
      { txn with
        locksHeld := insert (resource, .exclusive)
          (txn.locksHeld.erase (resource, .shared)) }

/-- A `read` or `write` raises once its lock is held; `begin`, `commit` and `abort` raise
before they have touched the lock table. -/
def raise (m : TransactionManager) : TxnFault → Option TransactionManager
  | .begin parent wal => some ((m.begin parent).1.log fun _ => wal)
  | .call i wal =>
      match m.threads i with
      | .running call =>
          if call.phase = .granted then
            (m.transactions.get? call.txnId).map fun txn =>
              ((m.log fun _ => wal).putTxn call.txnId
                (noteLock txn call.op)).setThread i .idle
          else none
      | _ => none
  | .commit t wal store =>
      (m.getActive t).map fun _ => { m.log (fun _ => wal) with store := store }
  | .abort t wal => (m.getActive t).map fun _ => m.log fun _ => wal

def act (m : TransactionManager) : ManagerStep → Option TransactionManager
  | .ran a => m.step a
  | .raised f => m.raise f

variable {m m' : TransactionManager}

/-- Where nothing raises, the manager makes its own steps. -/
theorem run_step_of_act {actions : List TxnAction}
    (h : run act m (actions.map .ran) = some m') : run step m actions = some m' := by
  induction actions generalizing m with
  | nil => exact h
  | cons a rest ih =>
      obtain ⟨next, hstep, hrest⟩ := run_cons.mp h
      exact run_cons.mpr ⟨next, hstep, ih hrest⟩

theorem raise_call {i : ThreadId} {wal : WriteAheadLog}
    (h : m.raise (.call i wal) = some m') :
    ∃ call txn, m.threads i = .running call ∧ call.phase = .granted ∧
      m.transactions.get? call.txnId = some txn ∧
      m' = ((m.log fun _ => wal).putTxn call.txnId
        (noteLock txn call.op)).setThread i .idle := by
  simp only [raise] at h
  split at h
  · next call hrunning =>
    obtain ⟨hphase, hmap⟩ := Option.ite_none_right_eq_some.mp h
    obtain ⟨txn, hknown, rfl⟩ := Option.map_eq_some_iff.mp hmap
    exact ⟨call, txn, hrunning, hphase, hknown, rfl⟩
  · cases h

theorem threads_raise {f : TxnFault} {c : ThreadId} (h : m.raise f = some m')
    (hc : ∀ wal, f ≠ .call c wal) : m'.threads c = m.threads c := by
  cases f with
  | begin parent wal =>
      obtain rfl := Option.some.inj h
      rfl
  | call i wal =>
      obtain ⟨call, txn, -, -, -, rfl⟩ := raise_call h
      rw [threads_setThread, if_neg fun heq => hc wal (by rw [heq])]
      rfl
  | commit t wal store =>
      obtain ⟨txn, -, rfl⟩ := Option.map_eq_some_iff.mp h
      rfl
  | abort t wal =>
      obtain ⟨txn, -, rfl⟩ := Option.map_eq_some_iff.mp h
      rfl

theorem LockInv.raise {f : TxnFault} (h : m.LockInv) (hraise : m.raise f = some m') :
    m'.LockInv := by
  cases f with
  | begin parent wal =>
      obtain rfl := Option.some.inj hraise
      have hbegun := h.begin parent
      exact hbegun.frame hbegun.valid (fun _ => id) (fun _ => rfl) rfl rfl hbegun.known
  | call i wal =>
      obtain ⟨call, txn, hrunning, -, hknown, rfl⟩ := raise_call hraise
      refine h.frame h.valid (fun _ => id) (fun u => ?_) rfl rfl (fun j other hrun => ?_)
      · change ((m.log fun _ => wal).putTxn call.txnId (noteLock txn call.op)).statusOf u =
          m.statusOf u
        rw [statusOf_putTxn]
        split
        · next heq =>
          subst heq
          cases hop : call.op <;> simp [statusOf, hknown, noteLock]
        · rfl
      · rw [threads_setThread] at hrun
        split at hrun
        · cases hrun
        · exact h.known j other hrun
  | commit t wal store =>
      obtain ⟨txn, -, rfl⟩ := Option.map_eq_some_iff.mp hraise
      exact h.frame h.valid (fun _ => id) (fun _ => rfl) rfl rfl h.known
  | abort t wal =>
      obtain ⟨txn, -, rfl⟩ := Option.map_eq_some_iff.mp hraise
      exact h.frame h.valid (fun _ => id) (fun _ => rfl) rfl rfl h.known

theorem LockInv.act {b : ManagerStep} (h : m.LockInv) (hact : m.act b = some m') :
    m'.LockInv := by
  cases b with
  | ran a => exact h.step hact
  | raised f => exact h.raise hact

end TransactionManager

end DistributedMemory.Storage
