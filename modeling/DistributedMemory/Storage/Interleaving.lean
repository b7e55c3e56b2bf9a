import DistributedMemory.Storage.LockOccupancy

/-!
# Commits and aborts that other calls interrupt

`commit` and `abort` take the mutex of the manager only for `_get_active`, and
that of the lock table only at their end.  Here a thread goes through either of
them in five steps, between which other calls run, another `commit` or `abort`
of the same transaction among them.  The loop of `commit` over the write buffer
is one of the five: it touches neither a status nor a lock.

Run without interruption, the five steps are the single step of
`TransactionManager`.
-/

namespace DistributedMemory.Storage

open DistributedMemory.Library DistributedMemory.Recovery

inductive Outcome where
  | commit
  | abort
  deriving DecidableEq, Repr

def Outcome.status : Outcome → TransactionStatus
  | .commit => .committed
  | .abort => .aborted

def Outcome.record (t : TxnId) : Outcome → WriteAheadLog → WriteAheadLog
  | .commit => (·.logCommit t)
  | .abort => (·.logAbort t)

/-- `checked` is after `_get_active`, `applied` after the write buffer was
installed or cleared, `marked` after the status was set. -/
inductive EndPhase where
  | checked
  | logged
  | applied
  | marked
  deriving DecidableEq, Repr

structure Ending where
  txnId : TxnId
  outcome : Outcome
  phase : EndPhase
  deriving DecidableEq, Repr

structure SharedManager where
  manager : TransactionManager
  endings : Dict ThreadId Ending

inductive SharedAction where
  | operate (a : TxnAction)
  | enter (i : ThreadId) (t : TxnId) (outcome : Outcome)
  | proceed (i : ThreadId) (order : List Resource)
  deriving DecidableEq, Repr

namespace TransactionManager

/-- The write buffer is installed by `commit` and cleared by `abort`. -/
def applyBuffer (m : TransactionManager) (t : TxnId) (txn : Transaction) :
    Outcome → TransactionManager
  | .commit =>
      { m with
        store := install m.store txn.writeBuffer.items
        commits := m.commits ++ [t] }
  | .abort => m.putTxn t { txn with writeBuffer := .empty }

def clearLocks (m : TransactionManager) (t : TxnId) (txn : Transaction)
    (order : List Resource) : Outcome → TransactionManager
  | .commit => m.passLocks t txn order
  | .abort => m.releaseAll t order

end TransactionManager

namespace SharedManager

open TransactionManager

def new (nodeId : Nat) (wal : Option WriteAheadLog) (store : Store) :
    SharedManager :=
  ⟨.new nodeId wal store, .empty⟩

/-- The five steps of `commit` and `abort`, `_get_active` being the first. -/
def enter (s : SharedManager) (i : ThreadId) (t : TxnId) (outcome : Outcome) :
    Option SharedManager :=
  match s.endings.get? i with
  | some _ => none
  | none =>
      match s.manager.getActive t with
      | none => some s
      | some _ =>
          some { s with endings := s.endings.set i ⟨t, outcome, .checked⟩ }

def proceed (s : SharedManager) (i : ThreadId) (order : List Resource) :
    Option SharedManager :=
  match s.endings.get? i with
  | none => none
  | some e =>
      match s.manager.transactions.get? e.txnId with
      | none => none
      | some txn =>
          match e.phase with
          | .checked =>
              some ⟨s.manager.log (e.outcome.record e.txnId),
                s.endings.set i { e with phase := .logged }⟩
          | .logged =>
              some ⟨s.manager.applyBuffer e.txnId txn e.outcome,
                s.endings.set i { e with phase := .applied }⟩
          | .applied =>
              some ⟨s.manager.putTxn e.txnId
                  { txn with status := e.outcome.status },
                s.endings.set i { e with phase := .marked }⟩
          | .marked =>
              if s.manager.Iterates e.txnId order then
                some ⟨s.manager.clearLocks e.txnId txn order e.outcome,
                  s.endings.pop i⟩
              else none

/-- `operate` is every call but `commit` and `abort`. -/
def step (s : SharedManager) : SharedAction → Option SharedManager
  | .operate (.commit _ _) => none
  | .operate (.abort _ _) => none
  | .operate a => (s.manager.step a).map fun m => { s with manager := m }
  | .enter i t outcome => s.enter i t outcome
  | .proceed i order => s.proceed i order

def wholeCall (i : ThreadId) (t : TxnId) (outcome : Outcome)
    (order : List Resource) : List SharedAction :=
  .enter i t outcome :: List.replicate 4 (.proceed i order)

/-- The single step of `TransactionManager` for a `commit` or an `abort`. -/
def atomically (t : TxnId) (order : List Resource) : Outcome → TxnAction
  | .commit => .commit t order
  | .abort => .abort t order

section Phases

variable {m : TransactionManager} {d : Dict ThreadId Ending} {i : ThreadId}
  {t : TxnId} {outcome : Outcome} {txn : Transaction}
  (hget : m.transactions.get? t = some txn) (order : List Resource)

include hget

private theorem step_checked (he : d.get? i = some ⟨t, outcome, .checked⟩) :
    step ⟨m, d⟩ (.proceed i order) =
      some ⟨m.log (outcome.record t), d.set i ⟨t, outcome, .logged⟩⟩ := by
  simp only [step, proceed, he, hget]

private theorem step_logged (he : d.get? i = some ⟨t, outcome, .logged⟩) :
    step ⟨m, d⟩ (.proceed i order) =
      some ⟨m.applyBuffer t txn outcome, d.set i ⟨t, outcome, .applied⟩⟩ := by
  simp only [step, proceed, he, hget]

theorem step_applied (he : d.get? i = some ⟨t, outcome, .applied⟩) :
    step ⟨m, d⟩ (.proceed i order) =
      some ⟨m.putTxn t { txn with status := outcome.status },
        d.set i ⟨t, outcome, .marked⟩⟩ := by
  simp only [step, proceed, he, hget]

theorem step_marked {order : List Resource}
    (he : d.get? i = some ⟨t, outcome, .marked⟩)
    (hiter : m.Iterates t order) :
    step ⟨m, d⟩ (.proceed i order) =
      some ⟨m.clearLocks t txn order outcome, d.pop i⟩ := by
  simp only [step, proceed, he, hget, if_pos hiter]

end Phases

/-- Without interruption the five steps make the one step. -/
theorem run_wholeCall {s : SharedManager} {i : ThreadId} {t : TxnId}
    {outcome : Outcome} {order : List Resource} {txn : Transaction}
    (hidle : s.endings.get? i = none) (hactive : s.manager.getActive t = some txn)
    (hiter : s.manager.Iterates t order) :
    ∃ endings, run step s (wholeCall i t outcome order) =
        (s.manager.step (atomically t order outcome)).map fun m =>
          ⟨m, endings⟩ := by
  obtain ⟨m, d⟩ := s
  have hget : m.transactions.get? t = some txn :=
    (getActive_eq_some.mp hactive).1
  have henter : step ⟨m, d⟩ (.enter i t outcome) =
      some ⟨m, d.set i ⟨t, outcome, .checked⟩⟩ := by
    simp only [step, enter, hidle, hactive]
  have hchecked : step ⟨m, d.set i ⟨t, outcome, .checked⟩⟩
      (.proceed i order) = _ :=
    step_checked hget order (Dict.get?_set_self _ _ _)
  have hlogged : step ⟨m.log (outcome.record t),
      d.set i ⟨t, outcome, .logged⟩⟩ (.proceed i order) = _ :=
    step_logged (m := m.log (outcome.record t)) hget order
      (Dict.get?_set_self _ _ _)
  refine ⟨(d.set i ⟨t, outcome, .marked⟩).pop i, ?_⟩
  rw [wholeCall, run_cons_of_step henter]
  simp only [List.replicate]
  rw [run_cons_of_step hchecked]
  simp only [Dict.set_set]
  rw [run_cons_of_step hlogged]
  simp only [Dict.set_set]
  cases outcome with
  | commit =>
      have happlied : step ⟨(m.log (·.logCommit t)).applyBuffer t txn .commit,
          d.set i ⟨t, .commit, .applied⟩⟩ (.proceed i order) = _ :=
        step_applied (m := (m.log (·.logCommit t)).applyBuffer t txn .commit)
          hget order (Dict.get?_set_self _ _ _)
      have hmarked : step ⟨m.installed t txn, d.set i ⟨t, .commit, .marked⟩⟩
          (.proceed i order) = _ :=
        step_marked (m := m.installed t txn) (Dict.get?_set_self _ _ _)
          (Dict.get?_set_self _ _ _) hiter
      refine (run_cons_of_step happlied).trans ?_
      simp only [Dict.set_set]
      refine (run_cons_of_step hmarked).trans ?_
      simp only [atomically, TransactionManager.step, if_pos hiter,
        commit_eq hactive]
      rfl
  | abort =>
      have happlied : step ⟨(m.log (·.logAbort t)).applyBuffer t txn .abort,
          d.set i ⟨t, .abort, .applied⟩⟩ (.proceed i order) = _ :=
        step_applied (m := (m.log (·.logAbort t)).applyBuffer t txn .abort)
          (Dict.get?_set_self _ _ _) order (Dict.get?_set_self _ _ _)
      have hmarked : step ⟨(m.log (·.logAbort t)).putTxn t
            { txn with writeBuffer := .empty, status := .aborted },
          d.set i ⟨t, .abort, .marked⟩⟩ (.proceed i order) = _ :=
        step_marked (m := (m.log (·.logAbort t)).putTxn t
            { txn with writeBuffer := .empty, status := .aborted })
          (Dict.get?_set_self _ _ _) (Dict.get?_set_self _ _ _) hiter
      refine (run_cons_of_step happlied).trans ?_
      simp only [applyBuffer, putTxn, Dict.set_set]
      refine (run_cons_of_step hmarked).trans ?_
      simp only [atomically, TransactionManager.step, if_pos hiter,
        abort_eq hactive]
      rfl

end SharedManager

end DistributedMemory.Storage
