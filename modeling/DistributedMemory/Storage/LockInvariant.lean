import DistributedMemory.Storage.Ownership

/-!
# The lock table along a run

What holds of the lock table in every state a run reaches, whatever the calls
are: it is valid, and its index knows every lock of a transaction that has not
ended.  The first part of the file says what each step does to the status of a
transaction and to its locks.
-/

namespace DistributedMemory.Storage

open DistributedMemory.Library

namespace TransactionManager

def statusOf (m : TransactionManager) (t : TxnId) : Option TransactionStatus :=
  (m.transactions.get? t).map Transaction.status

def Finished (m : TransactionManager) (t : TxnId) : Prop :=
  m.statusOf t = some .committed ∨ m.statusOf t = some .aborted

theorem statusOf_of_getActive {m : TransactionManager} {t : TxnId}
    {txn : Transaction} (h : m.getActive t = some txn) :
    m.statusOf t = some .active := by
  obtain ⟨hget, hactive⟩ := getActive_eq_some.mp h
  simp [statusOf, hget, hactive]

theorem not_finished_of_getActive {m : TransactionManager} {t : TxnId}
    {txn : Transaction} (h : m.getActive t = some txn) : ¬ m.Finished t := by
  simp [Finished, statusOf_of_getActive h]

theorem statusOf_putTxn (m : TransactionManager) (t u : TxnId)
    (txn : Transaction) :
    (m.putTxn t txn).statusOf u =
      if u = t then some txn.status else m.statusOf u := by
  simp only [statusOf, transactions_putTxn]
  split <;> rfl

theorem getActive_putTxn (m : TransactionManager) (t u : TxnId)
    (txn : Transaction) :
    (m.putTxn t txn).getActive u =
      if u = t then (if txn.status = .active then some txn else none)
      else m.getActive u := by
  simp only [getActive, transactions_putTxn]
  by_cases h : u = t <;> simp [h]

/-! ## The rest of a granted call -/

def bookedTxn (store : Store) (txn : Transaction) : Op → Transaction
  | .read resource key =>
      { txn with
        locksHeld := insert (resource, .shared) txn.locksHeld
        readSet := txn.readSet.set (bufKey resource key)
          (readRecord store resource key) }
  | .write resource key value =>
      { txn with
        locksHeld := insert (resource, .exclusive)
          (txn.locksHeld.erase (resource, .shared))
        writeBuffer := txn.writeBuffer.set (bufKey resource key) value }

theorem finish_transactions (m : TransactionManager) (i : ThreadId) (t : TxnId)
    (txn : Transaction) (op : Op) :
    (m.finish i t txn op).transactions =
      (m.putTxn t (bookedTxn m.store txn op)).transactions := by
  cases op <;> rfl

theorem bookedTxn_status (store : Store) (txn : Transaction) (op : Op) :
    (bookedTxn store txn op).status = txn.status := by
  cases op <;> rfl

/-! ## The end of a transaction -/

section PassLocks

variable (m : TransactionManager) (t : TxnId) (txn : Transaction)
  (order : List Resource)

theorem passLocks_store : (m.passLocks t txn order).store = m.store := by
  unfold passLocks
  split <;> rfl

private theorem passLocks_commits : (m.passLocks t txn order).commits = m.commits := by
  unfold passLocks
  split <;> rfl

private theorem passLocks_threads : (m.passLocks t txn order).threads = m.threads := by
  unfold passLocks
  split <;> rfl

theorem passLocks_seq : (m.passLocks t txn order).seq = m.seq := by
  unfold passLocks
  split <;> rfl

theorem passLocks_nodeId : (m.passLocks t txn order).nodeId = m.nodeId := by
  unfold passLocks
  split <;> rfl

theorem passLocks_wal : (m.passLocks t txn order).wal = m.wal := by
  unfold passLocks
  split <;> rfl

theorem heir_known {m : TransactionManager} {txn : Transaction} {p : TxnId}
    {parent : Transaction} (h : m.heir txn = some (p, parent)) :
    m.transactions.get? p = some parent := by
  unfold heir at h
  split at h
  · cases h
  · split at h
    · cases h
    · obtain ⟨parent', hget, heq⟩ := Option.map_eq_some_iff.mp h
      obtain ⟨rfl, rfl⟩ := Prod.mk.inj heq
      exact hget

theorem passLocks_transactions (u : TxnId) :
    ∃ extra, (m.passLocks t txn order).transactions.get? u =
        (m.transactions.get? u).map (fun x =>
          { x with locksHeld := x.locksHeld ∪ extra }) ∧
      (extra ≠ ∅ → extra = txn.locksHeld ∧ ∃ parent,
        m.heir txn = some (u, parent)) := by
  have hkeep : (m.transactions.get? u).map (fun x =>
      { x with locksHeld := x.locksHeld ∪ (∅ : Finset (Resource × LockType)) })
      = m.transactions.get? u := by
    cases m.transactions.get? u <;> simp
  unfold passLocks
  split
  · next p parent hheir =>
    rw [transactions_putTxn]
    split
    · next heq =>
      subst heq
      exact ⟨txn.locksHeld, by simp [heir_known hheir], fun _ => ⟨rfl, parent,
        hheir⟩⟩
    · exact ⟨∅, hkeep.symm, fun h => absurd rfl h⟩
  · exact ⟨∅, hkeep.symm, fun h => absurd rfl h⟩

end PassLocks

/-- The manager in the middle of `commit`, before the locks are passed on. -/
def installed (m : TransactionManager) (t : TxnId) (txn : Transaction) :
    TransactionManager :=
  { m.log (·.logCommit t) with
    store := install m.store txn.writeBuffer.items
    commits := m.commits ++ [t] }.putTxn t { txn with status := .committed }

theorem commit_eq {m : TransactionManager} {t : TxnId} {txn : Transaction}
    (h : m.getActive t = some txn) (order : List Resource) :
    (m.commit t order).1 = (m.installed t txn).passLocks t txn order := by
  simp only [commit, h]
  rfl

theorem abort_eq {m : TransactionManager} {t : TxnId} {txn : Transaction}
    (h : m.getActive t = some txn) (order : List Resource) :
    m.abort t order = ((m.log (·.logAbort t)).putTxn t
      { txn with writeBuffer := .empty, status := .aborted }).releaseAll t
        order := by
  simp only [abort, h]

section Ending

variable {m : TransactionManager} {t : TxnId} {txn : Transaction}
  (h : m.getActive t = some txn) (order : List Resource)

include h

theorem commit_lockManager :
    (∃ p parent, (m.installed t txn).heir txn = some (p, parent) ∧
      (m.commit t order).1.lockManager =
        m.lockManager.transferLocks t p order) ∨
    ((m.installed t txn).heir txn = none ∧
      (m.commit t order).1.lockManager =
        (m.lockManager.releaseAll t order).1) := by
  rw [commit_eq h]
  unfold passLocks
  split
  · next p parent hheir => exact .inl ⟨p, parent, hheir, rfl⟩
  · next hheir => exact .inr ⟨hheir, rfl⟩

theorem abort_lockManager : (m.abort t order).lockManager =
    (m.lockManager.releaseAll t order).1 := by
  rw [abort_eq h]
  rfl

theorem commit_transactions (u : TxnId) :
    ∃ extra, (m.commit t order).1.transactions.get? u =
        ((m.installed t txn).transactions.get? u).map (fun x =>
          { x with locksHeld := x.locksHeld ∪ extra }) ∧
      (extra ≠ ∅ → extra = txn.locksHeld ∧ ∃ parent,
        (m.installed t txn).heir txn = some (u, parent)) := by
  rw [commit_eq h]
  exact passLocks_transactions _ t txn order u

theorem commit_statusOf (u : TxnId) :
    (m.commit t order).1.statusOf u =
      if u = t then some .committed else m.statusOf u := by
  obtain ⟨extra, hget, -⟩ := commit_transactions h order u
  simp only [statusOf, hget, installed, transactions_putTxn, log_transactions]
  by_cases hu : u = t <;> simp [hu, Function.comp_def]

theorem abort_statusOf (u : TxnId) :
    (m.abort t order).statusOf u =
      if u = t then some .aborted else m.statusOf u := by
  rw [abort_eq h]
  simp only [statusOf, releaseAll_transactions, transactions_putTxn,
    log_transactions]
  by_cases hu : u = t <;> simp [hu]

theorem commit_threads : (m.commit t order).1.threads = m.threads := by
  rw [commit_eq h, passLocks_threads]
  rfl

theorem commit_seq : (m.commit t order).1.seq = m.seq := by
  rw [commit_eq h, passLocks_seq]
  rfl

theorem commit_nodeId : (m.commit t order).1.nodeId = m.nodeId := by
  rw [commit_eq h, passLocks_nodeId]
  rfl

theorem commit_store : (m.commit t order).1.store =
    install m.store txn.writeBuffer.items := by
  rw [commit_eq h, passLocks_store]
  rfl

theorem commit_commits : (m.commit t order).1.commits = m.commits ++ [t] := by
  rw [commit_eq h, passLocks_commits]
  rfl

theorem commit_wal : (m.commit t order).1.wal = m.wal.map (·.logCommit t) := by
  rw [commit_eq h, passLocks_wal]
  rfl

theorem abort_threads : (m.abort t order).threads = m.threads := by
  rw [abort_eq h]
  rfl

theorem abort_seq : (m.abort t order).seq = m.seq := by
  rw [abort_eq h]
  rfl

theorem abort_nodeId : (m.abort t order).nodeId = m.nodeId := by
  rw [abort_eq h]
  rfl

end Ending

theorem finish_statusOf {m : TransactionManager} {t : TxnId}
    {txn : Transaction} (hget : m.transactions.get? t = some txn)
    (i : ThreadId) (op : Op) (u : TxnId) :
    (m.finish i t txn op).statusOf u = m.statusOf u := by
  rw [statusOf, finish_transactions, ← statusOf, statusOf_putTxn,
    bookedTxn_status]
  split
  · next heq => rw [heq, statusOf, hget, Option.map_some]
  · rfl

theorem finish_threads (m : TransactionManager) (i : ThreadId) (t : TxnId)
    (txn : Transaction) (op : Op) {j : ThreadId} {call : Call}
    (h : (m.finish i t txn op).threads j = .running call) :
    m.threads j = .running call := by
  cases op <;>
    simp only [finish, finishRead, finishWrite, threads_setThread] at h <;>
    (split at h
     · cases h
     · exact h)

theorem begin_statusOf (m : TransactionManager) (parent : Option TxnId)
    (u : TxnId) : (m.begin parent).1.statusOf u =
      if u = txnName m.nodeId (m.seq + 1) then some .active
      else m.statusOf u := by
  simp only [TransactionManager.begin, statusOf, log_transactions,
    transactions_putTxn]
  split <;> rfl

theorem step_nodeId {m m' : TransactionManager} {a : TxnAction}
    (hstep : m.step a = some m') : m'.nodeId = m.nodeId := by
  cases step_spec hstep with
  | finished i call txn => cases call.op <;> rfl
  | committed t order txn active => exact commit_nodeId active order
  | aborted t order txn active => exact abort_nodeId active order
  | _ => rfl

theorem step_seq {m m' : TransactionManager} {a : TxnAction}
    (hstep : m.step a = some m') : m.seq ≤ m'.seq := by
  cases step_spec hstep with
  | began parent => exact Nat.le_succ m.seq
  | finished i call txn => cases call.op <;> exact le_rfl
  | committed t order txn active => exact (commit_seq active order).ge
  | aborted t order txn active => exact (abort_seq active order).ge
  | _ => exact le_rfl

theorem step_statusOf {m m' : TransactionManager} {a : TxnAction}
    (hstep : m.step a = some m') {t : TxnId}
    (hfresh : t ≠ txnName m.nodeId (m.seq + 1)) :
    m'.statusOf t = m.statusOf t ∨ m.statusOf t = some .active ∧
      ((∃ order, a = .commit t order) ∨
        (∃ order, a = .abort t order) ∧ m'.statusOf t = some .aborted) := by
  cases step_spec hstep with
  | began parent =>
      rw [begin_statusOf, if_neg hfresh]
      exact .inl rfl
  | finished i call txn running granted known =>
      exact .inl (finish_statusOf known i call.op t)
  | committed u order txn active =>
      rw [commit_statusOf active order]
      split
      · next heq =>
        subst heq
        exact .inr ⟨statusOf_of_getActive active, .inl ⟨order, rfl⟩⟩
      · exact .inl rfl
  | aborted u order txn active =>
      rw [abort_statusOf active order]
      split
      · next heq =>
        subst heq
        exact .inr ⟨statusOf_of_getActive active, .inr ⟨⟨order, rfl⟩, rfl⟩⟩
      · exact .inl rfl
  | _ => exact .inl rfl

/-! ## The invariant -/

structure LockInv (m : TransactionManager) : Prop where
  valid : m.lockManager.Valid
  named : ∀ t x, m.statusOf t = some x →
    ∃ i, i ≤ m.seq ∧ t = txnName m.nodeId i
  indexed : ∀ t, ¬ m.Finished t → m.lockManager.Indexed t
  known : ∀ i call, m.threads i = .running call →
    m.statusOf call.txnId ≠ none

theorem lockInv_new (nodeId : Nat) (wal : Option Recovery.WriteAheadLog)
    (store : Store) : (new nodeId wal store).LockInv where
  valid := LockManager.valid_new
  named := by simp [new, statusOf]
  indexed := by simp [new, LockManager.Indexed, LockEntry.new]
  known := by simp [new]

theorem LockInv.fresh {m : TransactionManager} (h : m.LockInv) :
    m.statusOf (txnName m.nodeId (m.seq + 1)) = none := by
  cases hget : m.statusOf (txnName m.nodeId (m.seq + 1)) with
  | none => rfl
  | some x =>
      obtain ⟨i, hle, hname⟩ := h.named _ _ hget
      have := txnName_injective hname
      omega

theorem LockInv.frame {m m' : TransactionManager} (h : m.LockInv)
    (hvalid : m'.lockManager.Valid)
    (hindexed : ∀ u, m.lockManager.Indexed u → m'.lockManager.Indexed u)
    (hstatus : ∀ u, m'.statusOf u = m.statusOf u) (hseq : m'.seq = m.seq)
    (hnode : m'.nodeId = m.nodeId)
    (hthreads : ∀ j call, m'.threads j = .running call →
      m.statusOf call.txnId ≠ none) : m'.LockInv where
  valid := hvalid
  named t x hx := by
    rw [hseq, hnode]
    exact h.named t x (hstatus t ▸ hx)
  indexed t ht := hindexed t (h.indexed t (by simpa [Finished, hstatus] using ht))
  known j call hrun := by
    rw [hstatus]
    exact hthreads j call hrun

theorem LockInv.ending {m m' : TransactionManager} (h : m.LockInv) {t : TxnId}
    {x : TransactionStatus} (hactive : m.statusOf t ≠ none)
    (hx : x = .committed ∨ x = .aborted)
    (hvalid : m'.lockManager.Valid)
    (hindexed : ∀ u, u ≠ t → m.lockManager.Indexed u →
      m'.lockManager.Indexed u)
    (hstatus : ∀ u, m'.statusOf u = if u = t then some x else m.statusOf u)
    (hseq : m'.seq = m.seq) (hnode : m'.nodeId = m.nodeId)
    (hthreads : m'.threads = m.threads) : m'.LockInv where
  valid := hvalid
  named u y hy := by
    rw [hseq, hnode]
    rw [hstatus] at hy
    split at hy
    · next heq =>
      obtain ⟨z, hz⟩ := Option.ne_none_iff_exists'.mp hactive
      exact heq ▸ h.named t z hz
    · exact h.named u y hy
  indexed u hu := by
    have hne : u ≠ t := by
      rintro rfl
      refine hu ?_
      rw [Finished, hstatus, if_pos rfl]
      rcases hx with rfl | rfl <;> simp
    exact hindexed u hne
      (h.indexed u (by simpa only [Finished, hstatus, if_neg hne] using hu))
  known j call hrun := by
    rw [hstatus]
    split
    · simp
    · exact h.known j call (hthreads ▸ hrun)

theorem LockInv.begin {m : TransactionManager} (h : m.LockInv)
    (parent : Option TxnId) : (m.begin parent).1.LockInv where
  valid := h.valid
  named u x hx := by
    change ∃ i, i ≤ m.seq + 1 ∧ u = txnName m.nodeId i
    rw [begin_statusOf] at hx
    split at hx
    · next heq => exact ⟨m.seq + 1, le_rfl, heq⟩
    · obtain ⟨i, hle, hname⟩ := h.named u x hx
      exact ⟨i, by omega, hname⟩
  indexed u hu := by
    refine h.indexed u fun hfinished => hu ?_
    have hne : u ≠ txnName m.nodeId (m.seq + 1) := by
      rintro rfl
      simp [Finished, h.fresh] at hfinished
    simpa only [Finished, begin_statusOf, if_neg hne] using hfinished
  known j call hrun := by
    rw [begin_statusOf]
    split
    · simp
    · exact h.known j call hrun

theorem LockInv.commit {m : TransactionManager} (h : m.LockInv) {t : TxnId}
    {txn : Transaction} {order : List Resource}
    (hactive : m.getActive t = some txn) (hiter : m.Iterates t order) :
    (m.commit t order).1.LockInv := by
  have hlocks : (m.commit t order).1.lockManager.Valid ∧ ∀ u, u ≠ t →
      m.lockManager.Indexed u →
      (m.commit t order).1.lockManager.Indexed u := by
    rcases commit_lockManager hactive order with ⟨p, _, _, hlm⟩ | ⟨_, hlm⟩
    · rw [hlm]
      exact ⟨h.valid.transferLocks hiter.1,
        fun u hu => LockManager.Indexed.transferLocks hiter.1 hu⟩
    · rw [hlm]
      exact ⟨h.valid.releaseAll hiter.1,
        fun u hu => LockManager.Indexed.releaseAll h.valid hiter.1 hu⟩
  exact h.ending (by simp [statusOf_of_getActive hactive]) (.inl rfl) hlocks.1
    hlocks.2 (commit_statusOf hactive order) (commit_seq hactive order)
    (commit_nodeId hactive order) (commit_threads hactive order)

theorem LockInv.abort {m : TransactionManager} (h : m.LockInv) {t : TxnId}
    {txn : Transaction} {order : List Resource}
    (hactive : m.getActive t = some txn) (hiter : m.Iterates t order) :
    (m.abort t order).LockInv := by
  refine h.ending (by simp [statusOf_of_getActive hactive]) (.inr rfl) ?_ ?_
    (abort_statusOf hactive order) (abort_seq hactive order)
    (abort_nodeId hactive order) (abort_threads hactive order)
  · rw [abort_lockManager hactive]
    exact h.valid.releaseAll hiter.1
  · rw [abort_lockManager hactive]
    exact fun u hu => LockManager.Indexed.releaseAll h.valid hiter.1 hu

theorem LockInv.step {m m' : TransactionManager} {a : TxnAction}
    (h : m.LockInv) (hstep : m.step a = some m') : m'.LockInv := by
  -- Only thread `i` changes, to a call of a known transaction.
  have hset : ∀ {n : TransactionManager} {i : ThreadId} {thread : Thread},
      n.threads = m.threads →
      (∀ c, thread = .running c → m.statusOf c.txnId ≠ none) →
      ∀ j call, (n.setThread i thread).threads j = .running call →
        m.statusOf call.txnId ≠ none := by
    intro n i thread hn hthread j call hrun
    rw [threads_setThread] at hrun
    split at hrun
    · exact hthread call hrun
    · exact h.known j call (hn ▸ hrun)
  cases step_spec hstep with
  | began parent => exact h.begin parent
  | answered i t op reply =>
      exact h.frame h.valid (fun _ => id) (fun _ => rfl) rfl rfl
        (hset rfl (by simp))
  | started i t op phase txn active covered =>
      refine h.frame h.valid (fun _ => id) (fun _ => rfl) rfl rfl
        (hset rfl ?_)
      rintro c ⟨⟩
      simp [statusOf_of_getActive active]
  | locked i call lt lm e granted answer thread running attempt mode acquires
      rewrites next =>
      refine h.frame (h.valid.acquires acquires rewrites)
        (fun u hu => hu.acquires acquires rewrites) (fun _ => rfl) rfl rfl
        (hset rfl ?_)
      rintro c rfl
      rcases next with ⟨-, heq⟩ | ⟨-, -, hsame⟩
      · obtain rfl := Thread.running.inj heq
        exact h.known i call running
      · rw [(hsame c rfl).1]
        exact h.known i call running
  | moved i call _ thread events signalled running action unattempted ungranted
      same =>
      refine h.frame h.valid (fun _ => id) (fun _ => rfl) rfl rfl
        (hset rfl ?_)
      rintro c rfl
      rw [(same c rfl).1]
      exact h.known i call running
  | finished i call txn running granted known =>
      refine h.frame ?_ ?_ (finish_statusOf known i call.op) ?_ ?_
        (fun j c hrun => h.known j c (finish_threads m i _ txn call.op hrun))
      · cases call.op <;> exact h.valid
      · cases call.op <;> exact fun _ => id
      · cases call.op <;> rfl
      · cases call.op <;> rfl
  | committed t order txn active iterates => exact h.commit active iterates
  | aborted t order txn active iterates => exact h.abort active iterates
  | refused => exact h

end TransactionManager

end DistributedMemory.Storage
