import DistributedMemory.Storage.TransactionStep

/-!
# A transaction that runs alone

With no other transaction in the lock table every lock is granted at the first
attempt, so a call goes from its start to its return without a wait.  `perform`
takes the steps of one call, and the lemmas here say what the call has done: a
write adds a record to the log and an item to the buffer, a read looks the buffer
up under the flattened name first and the store after that.
-/

namespace DistributedMemory.Storage

open DistributedMemory.Library DistributedMemory.Recovery

namespace LockManager

def OnlyHolder (lm : LockManager) (t : TxnId) : Prop :=
  ∀ r, (lm.entry r).holders ⊆ {t}

theorem onlyHolder_new (t : TxnId) : new.OnlyHolder t := fun _ => by
  simp [entry, new, LockEntry.new]

section OnlyHolder

variable {lm : LockManager} {t : TxnId}

theorem OnlyHolder.rewrites (h : lm.OnlyHolder t) {lm' : LockManager}
    {r : Resource} {e : LockEntry} {granted : List TxnId}
    (hrewrites : Rewrites lm lm' r e granted) (he : e.holders ⊆ {t}) :
    lm'.OnlyHolder t := by
  intro r'
  by_cases hr : r' = r
  · rw [hr, hrewrites.here]
    exact he
  · rw [hrewrites.elsewhere hr]
    exact h r'

theorem OnlyHolder.acquires (h : lm.OnlyHolder t) {r : Resource} {lt : LockType}
    {e : LockEntry} {granted : List TxnId} {ok : Bool}
    (hacquires : Acquires (lm.entry r) t lt e granted ok) :
    ok = true ∧ e.holders ⊆ {t} := by
  have hholders := h r
  have hinsert : insert t (lm.entry r).holders ⊆ {t} :=
    Finset.insert_subset (Finset.mem_singleton_self t) hholders
  cases hacquires with
  | covered held mode => exact ⟨rfl, hholders⟩
  | upgraded held alone mode => exact ⟨rfl, hholders⟩
  | first free => exact ⟨rfl, hinsert⟩
  | joined fresh mode shared => exact ⟨rfl, hinsert⟩
  | queued busy blocked =>
      -- the holder would be `t`, which is then alone
      have hself : (lm.entry r).holders = {t} :=
        (Finset.subset_singleton_iff.mp hholders).resolve_left busy
      refine absurd ⟨?_, .inr (.inr ?_)⟩ blocked
      · rw [hself]
        exact Finset.mem_singleton_self t
      · rw [hself]
        exact Finset.card_singleton t

theorem OnlyHolder.acquire (h : lm.OnlyHolder t) (r : Resource) (lt : LockType) :
    (lm.acquire t r lt).1.OnlyHolder t ∧ (lm.acquire t r lt).2 = true := by
  obtain ⟨e, granted, hacquires, hrewrites⟩ := lm.acquire_spec t r lt
  obtain ⟨hok, he⟩ := h.acquires hacquires
  exact ⟨h.rewrites hrewrites he, hok⟩

theorem OnlyHolder.upgrade (h : lm.OnlyHolder t) (r : Resource) :
    (lm.upgrade t r).1.OnlyHolder t := by
  rcases lm.upgrade_spec t r with ⟨e, granted, hacquires, hrewrites, -, -⟩ | ⟨heq, -⟩
  · exact h.rewrites hrewrites (h.acquires hacquires).2
  · rw [heq]
    exact h

end OnlyHolder

end LockManager

namespace TransactionManager

def await : Nat → TransactionManager → ThreadId → Option TransactionManager
  | 0, m, i => if (m.threads i).isRunning then none else some m
  | fuel + 1, m, i =>
      if (m.threads i).isRunning then
        (m.step (.advance i)).bind fun m => await fuel m i
      else some m

/-- A call of thread `i` from its start to its return, when it need not wait. -/
def perform (m : TransactionManager) (i : ThreadId) (t : TxnId) (op : Op) :
    Option TransactionManager :=
  (m.step (.call i t op)).bind fun m => await 3 m i

/-- Thread `i` is free and `t` is active, with `txn` as its entry, and alone. -/
structure Alone (m : TransactionManager) (i : ThreadId) (t : TxnId)
    (txn : Transaction) : Prop where
  active : m.getActive t = some txn
  free : (m.threads i).isRunning = false
  holders : m.lockManager.OnlyHolder t

structure Unlogged (m m' : TransactionManager) : Prop where
  transactions : m'.transactions = m.transactions
  store : m'.store = m.store
  wal : m'.wal = m.wal

section Alone

variable {m : TransactionManager} {i : ThreadId} {t : TxnId} {txn : Transaction}

theorem await_free (h : (m.threads i).isRunning = false) (fuel : Nat) :
    await fuel m i = some m := by
  cases fuel with
  | zero => rw [await, h, if_neg Bool.false_ne_true]
  | succ fuel => rw [await, h, if_neg Bool.false_ne_true]

theorem await_advance {m' : TransactionManager} {call : Call}
    (hthread : m.threads i = .running call) (hadvance : m.advance i = some m')
    (fuel : Nat) : await (fuel + 1) m i = await fuel m' i := by
  have hrunning : (m.threads i).isRunning = true := by
    rw [hthread]
    rfl
  rw [await, if_pos hrunning, step, hadvance, Option.bind_some]

theorem isRunning_finish (op : Op) :
    ((m.finish i t txn op).threads i).isRunning = false := by
  cases op with
  | read resource key => simp [finish, finishRead, setThread, Thread.isRunning]
  | write resource key value =>
      simp [finish, finishWrite, setThread, Thread.isRunning]

theorem await_granted {op : Op}
    (hthread : m.threads i = .running ⟨t, op, .granted⟩)
    (htxn : m.transactions.get? t = some txn) (fuel : Nat) :
    await (fuel + 1) m i = some (m.finish i t txn op) := by
  have hadvance : m.advance i = some (m.finish i t txn op) := by
    simp only [advance, hthread, htxn]
  rw [await_advance hthread hadvance, await_free (isRunning_finish op)]

theorem await_acquiring {op : Op}
    (hthread : m.threads i = .running ⟨t, op, .acquiring⟩)
    (htxn : m.transactions.get? t = some txn)
    (hholders : m.lockManager.OnlyHolder t) (fuel : Nat) :
    ∃ m', await (fuel + 2) m i = some (m'.finish i t txn op) ∧ Unlogged m m' ∧
      m'.lockManager.OnlyHolder t := by
  obtain ⟨honly, hgranted⟩ := hholders.acquire op.resource op.mode
  have hadvance : m.advance i = some (m.attempt i ⟨t, op, .acquiring⟩
      (.running ⟨t, op, .denied⟩)) := by
    simp only [advance, hthread]
  have hthread' : (m.attempt i ⟨t, op, .acquiring⟩
      (.running ⟨t, op, .denied⟩)).threads i = .running ⟨t, op, .granted⟩ := by
    simp [attempt, hgranted, setThread]
  rw [await_advance hthread hadvance]
  exact ⟨_, await_granted hthread' htxn fuel, ⟨rfl, rfl, rfl⟩, honly⟩

private theorem await_upgrading {op : Op}
    (hthread : m.threads i = .running ⟨t, op, .upgrading⟩)
    (htxn : m.transactions.get? t = some txn)
    (hholders : m.lockManager.OnlyHolder t) :
    ∃ m', await 3 m i = some (m'.finish i t txn op) ∧ Unlogged m m' ∧
      m'.lockManager.OnlyHolder t := by
  have honly := hholders.upgrade op.resource
  have hadvance : m.advance i = some (m.tryUpgrade i ⟨t, op, .upgrading⟩) := by
    simp only [advance, hthread]
  rw [await_advance hthread hadvance]
  cases hupgraded : (m.lockManager.upgrade t op.resource).2 with
  | true =>
      have hthread' : (m.tryUpgrade i ⟨t, op, .upgrading⟩).threads i =
          .running ⟨t, op, .granted⟩ := by
        simp [tryUpgrade, hupgraded, setThread]
      exact ⟨_, await_granted hthread' htxn 1, ⟨rfl, rfl, rfl⟩, honly⟩
  | false =>
      have hthread' : (m.tryUpgrade i ⟨t, op, .upgrading⟩).threads i =
          .running ⟨t, op, .acquiring⟩ := by
        simp [tryUpgrade, hupgraded, setThread]
      obtain ⟨m', hawait, hsame, honly'⟩ :=
        await_acquiring hthread' htxn honly 0
      exact ⟨m', hawait, ⟨hsame.transactions, hsame.store, hsame.wal⟩, honly'⟩

/-! ## One call -/

theorem await_running {op : Op} {phase : Phase}
    (hphase : phase = .granted ∨ phase = .acquiring ∨ phase = .upgrading)
    (hthread : m.threads i = .running ⟨t, op, phase⟩)
    (htxn : m.transactions.get? t = some txn)
    (hholders : m.lockManager.OnlyHolder t) :
    ∃ m', await 3 m i = some (m'.finish i t txn op) ∧ Unlogged m m' ∧
      m'.lockManager.OnlyHolder t := by
  rcases hphase with rfl | rfl | rfl
  · exact ⟨m, await_granted hthread htxn 2, ⟨rfl, rfl, rfl⟩, hholders⟩
  · exact await_acquiring hthread htxn hholders 1
  · exact await_upgrading hthread htxn hholders

theorem perform_write (h : Alone m i t txn) (resource key value : String) :
    ∃ m' txn', m.perform i t (.write resource key value) = some m' ∧
      Alone m' i t txn' ∧ m'.threads i = .returned (.success true) ∧
      txn'.writeBuffer = txn.writeBuffer.set (bufKey resource key) value ∧
      m'.store = m.store ∧
      m'.wal = m.wal.map (·.logWrite t (bufKey resource key)
        ((m.store (resource, key)).getD "") value) := by
  obtain ⟨htxn, hactive⟩ := getActive_eq_some.mp h.active
  obtain ⟨phase, hphase, hstart⟩ : ∃ phase : Phase,
      (phase = .granted ∨ phase = .acquiring ∨ phase = .upgrading) ∧
        m.start i t (.write resource key value) =
          m.setThread i (.running ⟨t, .write resource key value, phase⟩) := by
    simp only [start, write, h.active]
    split
    · exact ⟨_, .inr (.inr rfl), rfl⟩
    · split
      · exact ⟨_, .inr (.inl rfl), rfl⟩
      · exact ⟨_, .inl rfl, rfl⟩
  have hthread : (m.setThread i
      (.running ⟨t, .write resource key value, phase⟩)).threads i =
        .running ⟨t, .write resource key value, phase⟩ := by
    simp [setThread]
  obtain ⟨m', hawait, hsame, honly⟩ :=
    await_running hphase hthread htxn h.holders
  refine ⟨m'.finish i t txn (.write resource key value),
    { txn with
      locksHeld := insert (resource, .exclusive)
        (txn.locksHeld.erase (resource, .shared))
      writeBuffer := txn.writeBuffer.set (bufKey resource key) value },
    ?_, ⟨getActive_eq_some.mpr ⟨?_, hactive⟩, isRunning_finish _, honly⟩, ?_, rfl,
    hsame.store, ?_⟩
  · rw [perform, step, h.free, if_neg Bool.false_ne_true, Option.bind_some, hstart,
      hawait]
  · exact (transactions_putTxn _ t t _).trans (if_pos rfl)
  · simp [finish, finishWrite, setThread]
  · simp only [finish, finishWrite, setThread_wal, putTxn_wal, log_wal, hsame.wal,
      readRecord, hsame.store]
    rfl

theorem perform_read (h : Alone m i t txn) (resource key : String) :
    ∃ m' txn', m.perform i t (.read resource key) = some m' ∧
      Alone m' i t txn' ∧
      m'.threads i = .returned (.value
        ((txn.writeBuffer.get? (bufKey resource key)).or
          (m.store (resource, key)))) ∧
      txn'.writeBuffer = txn.writeBuffer ∧ m'.store = m.store ∧
      m'.wal = m.wal := by
  obtain ⟨htxn, hactive⟩ := getActive_eq_some.mp h.active
  cases hbuffer : txn.writeBuffer.get? (bufKey resource key) with
  | some v =>
      have hstart : m.start i t (.read resource key) =
          m.setThread i (.returned (.value (some v))) := by
        simp only [start, read, h.active, hbuffer]
      have hfree : ((m.setThread i (.returned (.value (some v)))).threads
          i).isRunning = false := by
        simp [setThread, Thread.isRunning]
      refine ⟨m.setThread i (.returned (.value (some v))), txn, ?_,
        ⟨h.active, hfree, h.holders⟩, ?_, rfl, rfl, rfl⟩
      · rw [perform, step, h.free, if_neg Bool.false_ne_true, Option.bind_some,
          hstart, await_free hfree]
      · simp [setThread]
  | none =>
      have hstart : m.start i t (.read resource key) =
          m.setThread i (.running ⟨t, .read resource key, .acquiring⟩) := by
        simp only [start, read, h.active, hbuffer]
      have hthread : (m.setThread i
          (.running ⟨t, .read resource key, .acquiring⟩)).threads i =
            .running ⟨t, .read resource key, .acquiring⟩ := by
        simp [setThread]
      obtain ⟨m', hawait, hsame, honly⟩ :=
        await_running (.inr (.inl rfl)) hthread htxn h.holders
      refine ⟨m'.finish i t txn (.read resource key),
        { txn with
          locksHeld := insert (resource, .shared) txn.locksHeld
          readSet := txn.readSet.set (bufKey resource key)
            (readRecord m'.store resource key) },
        ?_, ⟨getActive_eq_some.mpr ⟨?_, hactive⟩, isRunning_finish _, honly⟩, ?_,
        rfl, hsame.store, hsame.wal⟩
      · rw [perform, step, h.free, if_neg Bool.false_ne_true, Option.bind_some,
          hstart, hawait]
      · exact (transactions_putTxn _ t t _).trans (if_pos rfl)
      · have hstore : m'.store = m.store := hsame.store
        simp [finish, finishRead, setThread, readRecord, hstore]

end Alone

end TransactionManager

end DistributedMemory.Storage
