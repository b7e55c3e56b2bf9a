import DistributedMemory.Library.Run
import DistributedMemory.Recovery.Recovery
import DistributedMemory.Storage.LockInvariant

/-!
# What a transaction manager logs

A step of the manager logs nothing, or one record that marks a status, or the
WRITE of a transaction that it knows.  From this the records that a manager has
added to the log it was given tell the status of each of its transactions.
-/

namespace DistributedMemory.Recovery

open DistributedMemory.Storage

theorem records_logEntry {wal : Option WriteAheadLog} (hopened : wal ≠ none)
    (types : List EntryType) (t u : TxnId) (type : EntryType)
    (resource before after : String) :
    Records types (entriesOf (wal.map (·.logEntry t type resource before after)))
        u ↔ Records types (entriesOf wal) u ∨ type ∈ types ∧ t = u := by
  obtain ⟨w, rfl⟩ := Option.ne_none_iff_exists'.mp hopened
  simp only [entriesOf, Option.map_some, WriteAheadLog.logEntry]
  rw [records_append, records_singleton]

end DistributedMemory.Recovery

namespace DistributedMemory.Storage

open DistributedMemory.Library DistributedMemory.Recovery

namespace TransactionManager

theorem step_wal {m m' : TransactionManager} {a : TxnAction}
    (hstep : m.step a = some m') : m'.wal = m.wal ∨
      ∃ t type resource before after,
        type ∈ [EntryType.begin, .write, .commit, .abort] ∧
          m'.wal = m.wal.map (·.logEntry t type resource before after) := by
  cases step_spec hstep with
  | began parent => exact .inr ⟨_, .begin, "", "", "", by simp, rfl⟩
  | answered => exact .inl rfl
  | started => exact .inl rfl
  | locked => exact .inl rfl
  | moved => exact .inl rfl
  | finished i call txn running granted known =>
      cases call.op with
      | read resource key => exact .inl rfl
      | write resource key value =>
          exact .inr ⟨_, .write, _, _, _, by simp, rfl⟩
  | committed t order txn active iterates =>
      exact .inr ⟨t, .commit, "", "", "", by simp, commit_wal active order⟩
  | aborted t order txn active iterates =>
      refine .inr ⟨t, .abort, "", "", "", by simp, ?_⟩
      rw [abort_eq active]
      rfl
  | refused => exact .inl rfl

def logged (m : TransactionManager) : List LogEntry := entriesOf m.wal

theorem logged_of_some {m : TransactionManager} {wal : WriteAheadLog}
    (h : m.wal = some wal) : m.logged = wal.entries := by
  rw [logged, h]
  rfl

theorem logged_of_wal {m n : TransactionManager} {t : TxnId} {type : EntryType}
    {resource before after : String} (hopened : m.wal ≠ none)
    (hwal : n.wal = m.wal.map fun wal =>
      wal.logEntry t type resource before after) :
    ∃ lsn, n.logged =
      m.logged ++ [⟨lsn, t, type, resource, before, after⟩] := by
  obtain ⟨wal, hm⟩ := Option.ne_none_iff_exists'.mp hopened
  refine ⟨wal.nextLsn, ?_⟩
  simp only [logged, hwal, hm, Option.map_some]
  rfl

inductive Marks (m : TransactionManager) (t : TxnId) :
    EntryType → TransactionStatus → Prop where
  | begin (fresh : m.statusOf t = none) : Marks m t .begin .active
  | commit (active : m.statusOf t = some .active) :
      Marks m t .commit .committed
  | abort (active : m.statusOf t = some .active) : Marks m t .abort .aborted

inductive Logs (m m' : TransactionManager) : Prop where
  | silent (log : m'.logged = m.logged)
      (status : ∀ u, m'.statusOf u = m.statusOf u)
  | mark (lsn : Nat) (t : TxnId) (type : EntryType) (x : TransactionStatus)
      (marks : m.Marks t type x)
      (log : m'.logged = m.logged ++ [⟨lsn, t, type, "", "", ""⟩])
      (status : ∀ u, m'.statusOf u = if u = t then some x else m.statusOf u)
  | write (lsn : Nat) (t : TxnId) (resource before after : String)
      (known : m.statusOf t ≠ none)
      (log : m'.logged =
        m.logged ++ [⟨lsn, t, .write, resource, before, after⟩])
      (status : ∀ u, m'.statusOf u = m.statusOf u)

private theorem step_logs {m m' : TransactionManager} {a : TxnAction}
    (hlock : m.LockInv) (hopened : m.wal ≠ none) (hstep : m.step a = some m') :
    m.Logs m' ∧ m'.wal ≠ none := by
  cases step_spec hstep with
  | began parent =>
      obtain ⟨lsn, hlog⟩ := logged_of_wal (n := (m.begin parent).1) hopened rfl
      refine ⟨.mark lsn _ .begin .active (.begin hlock.fresh) hlog
        (begin_statusOf m parent), ?_⟩
      simpa [TransactionManager.begin] using hopened
  | answered => exact ⟨.silent rfl fun _ => rfl, hopened⟩
  | started => exact ⟨.silent rfl fun _ => rfl, hopened⟩
  | locked => exact ⟨.silent rfl fun _ => rfl, hopened⟩
  | moved => exact ⟨.silent rfl fun _ => rfl, hopened⟩
  | finished i call txn running granted known =>
      have hstatus := finish_statusOf known i call.op
      have hknown := hlock.known i call running
      cases hop : call.op with
      | read resource key =>
          rw [hop] at hstatus
          exact ⟨.silent rfl hstatus, hopened⟩
      | write resource key value =>
          rw [hop] at hstatus
          obtain ⟨lsn, hlog⟩ := logged_of_wal
            (n := m.finish i call.txnId txn (.write resource key value))
            hopened rfl
          refine ⟨.write lsn _ _ _ _ hknown hlog hstatus, ?_⟩
          simpa [finish, finishWrite] using hopened
  | committed t order txn active iterates =>
      have hwal := commit_wal active order
      obtain ⟨lsn, hlog⟩ := logged_of_wal hopened hwal
      refine ⟨.mark lsn t .commit .committed
        (.commit (statusOf_of_getActive active)) hlog
        (commit_statusOf active order), ?_⟩
      rw [hwal]
      simpa using hopened
  | aborted t order txn active iterates =>
      have hwal : (m.abort t order).wal = m.wal.map (·.logAbort t) := by
        rw [abort_eq active]
        rfl
      obtain ⟨lsn, hlog⟩ := logged_of_wal hopened hwal
      refine ⟨.mark lsn t .abort .aborted
        (.abort (statusOf_of_getActive active)) hlog
        (abort_statusOf active order), ?_⟩
      rw [hwal]
      simpa using hopened
  | refused => exact ⟨.silent rfl fun _ => rfl, hopened⟩

/-- What the records `own`, added to the log `found`, tell of the manager. -/
structure Traced (found own : List LogEntry) (m : TransactionManager) :
    Prop where
  lock : m.LockInv
  opened : m.wal ≠ none
  log : m.logged = found ++ own
  types : ∀ e ∈ own, e.entryType ∈
    [EntryType.begin, .write, .commit, .abort]
  known : ∀ e ∈ own, m.statusOf e.txnId ≠ none
  commit : ∀ t, Records [.commit] own t ↔ m.statusOf t = some .committed

private theorem traced_new (nodeId : Nat) (wal : WriteAheadLog) (store : Store) :
    Traced wal.entries [] (new nodeId (some wal) store) where
  lock := lockInv_new nodeId (some wal) store
  opened := by simp [new]
  log := by simp [logged, entriesOf, new]
  types := by simp
  known := by simp
  commit := by simp [new, statusOf]

theorem Traced.step {found own : List LogEntry} {m m' : TransactionManager}
    {a : TxnAction} (h : Traced found own m) (hstep : m.step a = some m') :
    ∃ own', Traced found own' m' := by
  have hlock := h.lock.step hstep
  obtain ⟨hlogs, hopened⟩ := step_logs h.lock h.opened hstep
  cases hlogs with
  | silent log status =>
      exact ⟨own, hlock, hopened, log.trans h.log, h.types,
        fun e he => status e.txnId ▸ h.known e he,
        fun t => status t ▸ h.commit t⟩
  | mark lsn t type x marks log status =>
      refine ⟨own ++ [⟨lsn, t, type, "", "", ""⟩], hlock, hopened,
        by rw [log, h.log, List.append_assoc], fun e he => ?_, fun e he => ?_,
        fun u => ?_⟩
      · rcases List.mem_append.mp he with he | he
        · exact h.types e he
        · obtain rfl := List.mem_singleton.mp he
          cases marks <;> simp
      · rw [status]
        split
        · simp
        · next hne =>
          rcases List.mem_append.mp he with he | he
          · exact h.known e he
          · obtain rfl := List.mem_singleton.mp he
            exact absurd rfl hne
      · rw [records_append, records_singleton, h.commit, status]
        by_cases hu : u = t
        · subst hu
          cases marks with
          | begin fresh => simp [fresh]
          | commit active => simp
          | abort active => simp [active]
        · simp [hu, Ne.symm hu]
  | write lsn t resource before after known log status =>
      refine ⟨own ++ [⟨lsn, t, .write, resource, before, after⟩], hlock,
        hopened, by rw [log, h.log, List.append_assoc], fun e he => ?_,
        fun e he => ?_, fun u => ?_⟩
      · rcases List.mem_append.mp he with he | he
        · exact h.types e he
        · obtain rfl := List.mem_singleton.mp he
          simp
      · rw [status]
        rcases List.mem_append.mp he with he | he
        · exact h.known e he
        · obtain rfl := List.mem_singleton.mp he
          exact known
      · rw [records_append, records_singleton, h.commit, status]
        simp

theorem run_traced (nodeId : Nat) (wal : WriteAheadLog) (store : Store)
    {actions : List TxnAction} {m : TransactionManager}
    (hrun : run step (new nodeId (some wal) store) actions = some m) :
    ∃ own, Traced wal.entries own m := by
  refine run_preserves (I := fun m => ∃ own, Traced wal.entries own m) ?_
    ⟨[], traced_new nodeId wal store⟩ hrun
  rintro m a m' ⟨own, h⟩ hstep
  exact h.step hstep

end TransactionManager

end DistributedMemory.Storage
