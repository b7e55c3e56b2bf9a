import DistributedMemory.Recovery.Wal

/-!
# The transaction manager

`begin`, `commit` and `abort` are single steps.  A `read` or `write` call is a
thread that goes through the lock attempts and the lock wait of
`ConcurrencyControl._acquire` one step at a time: other threads may run between
any two of its steps, and nothing but the lock table orders them.

`commits` is not a field of the source.  It lists the transactions in the order
in which their `commit` succeeded, for use in statements about a run.
-/

namespace DistributedMemory.Storage

open DistributedMemory.Library DistributedMemory.Recovery

inductive TransactionStatus where
  | active
  | committed
  | aborted
  deriving DecidableEq, Repr

structure Transaction where
  txnId : TxnId
  status : TransactionStatus
  readSet : Dict String (Option String)
  writeBuffer : Dict String String
  locksHeld : Finset (Resource × LockType)
  parentTxnId : Option TxnId

def Transaction.new (t : TxnId) (parent : Option TxnId) : Transaction :=
  ⟨t, .active, .empty, .empty, ∅, parent⟩

/-! ## Calls in progress -/

abbrev ThreadId := Nat

inductive Op where
  | read (resource : Resource) (key : String)
  | write (resource : Resource) (key value : String)
  deriving DecidableEq, Repr

def Op.resource : Op → Resource
  | .read r _ => r
  | .write r _ _ => r

def Op.mode : Op → LockType
  | .read _ _ => .shared
  | .write _ _ _ => .exclusive

/-- Where a call stands.  `denied` is after a refused first attempt and before
the wait event is registered; `retrying` is after the event was set and before
the second attempt; `granted` is before the rest of the method. -/
inductive Phase where
  | upgrading
  | acquiring
  | denied
  | waiting
  | retrying
  | granted
  deriving DecidableEq, Repr

structure Call where
  txnId : TxnId
  op : Op
  phase : Phase
  deriving DecidableEq, Repr

inductive Reply where
  | value (v : Option String)
  | success (ok : Bool)
  deriving DecidableEq, Repr

def Op.refusal : Op → Reply
  | .read _ _ => .value none
  | .write _ _ _ => .success false

inductive Thread where
  | idle
  | running (call : Call)
  | returned (reply : Reply)
  deriving DecidableEq, Repr

structure TransactionManager where
  nodeId : Nat
  lockManager : LockManager
  waitEvents : Dict (TxnId × Resource) ThreadId
  signalled : Finset ThreadId
  wal : Option WriteAheadLog
  transactions : Dict TxnId Transaction
  seq : Nat
  store : Store
  threads : ThreadId → Thread
  commits : List TxnId

/-- `f"node_{self.node_id}_txn_{self._seq}"` -/
def txnName (nodeId seq : Nat) : TxnId :=
  "node_" ++ toString nodeId ++ "_txn_" ++ toString seq

namespace TransactionManager

def new (nodeId : Nat) (wal : Option WriteAheadLog) (store : Store) :
    TransactionManager :=
  ⟨nodeId, .new, .empty, ∅, wal, .empty, 0, store, fun _ => .idle, []⟩

def getTransaction (m : TransactionManager) (t : TxnId) : Option Transaction :=
  m.transactions.get? t

def getActive (m : TransactionManager) (t : TxnId) : Option Transaction :=
  match m.transactions.get? t with
  | none => none
  | some txn => if txn.status = .active then some txn else none

def putTxn (m : TransactionManager) (t : TxnId) (txn : Transaction) :
    TransactionManager :=
  { m with transactions := m.transactions.set t txn }

def setThread (m : TransactionManager) (i : ThreadId) (thread : Thread) :
    TransactionManager :=
  { m with threads := Function.update m.threads i thread }

/-- `if self.wal: self.wal.log_…` -/
def log (m : TransactionManager) (record : WriteAheadLog → WriteAheadLog) :
    TransactionManager :=
  { m with wal := m.wal.map record }

def begin (m : TransactionManager) (parent : Option TxnId) :
    TransactionManager × TxnId :=
  let seq := m.seq + 1
  let t := txnName m.nodeId seq
  (({ m with seq := seq }.putTxn t (.new t parent)).log (·.logBegin t), t)

/-! ## `read` and `write` -/

/-- `read` up to its first lock attempt. -/
def read (m : TransactionManager) (i : ThreadId) (t : TxnId)
    (resource key : String) : TransactionManager :=
  match m.getActive t with
  | none => m.setThread i (.returned (.value none))
  | some txn =>
      match txn.writeBuffer.get? (bufKey resource key) with
      | some v => m.setThread i (.returned (.value (some v)))
      | none => m.setThread i (.running ⟨t, .read resource key, .acquiring⟩)

/-- `write` up to its first lock attempt. -/
def write (m : TransactionManager) (i : ThreadId) (t : TxnId)
    (resource key value : String) : TransactionManager :=
  match m.getActive t with
  | none => m.setThread i (.returned (.success false))
  | some txn =>
      let phase : Phase :=
        if (resource, LockType.shared) ∈ txn.locksHeld then .upgrading
        else if (resource, LockType.exclusive) ∉ txn.locksHeld then .acquiring
        else .granted
      m.setThread i (.running ⟨t, .write resource key value, phase⟩)

def start (m : TransactionManager) (i : ThreadId) (t : TxnId) :
    Op → TransactionManager
  | .read resource key => m.read i t resource key
  | .write resource key value => m.write i t resource key value

def finishRead (m : TransactionManager) (i : ThreadId) (t : TxnId)
    (txn : Transaction) (resource key : String) : TransactionManager :=
  let value := readRecord m.store resource key
  (m.putTxn t
    { txn with
      locksHeld := insert (resource, .shared) txn.locksHeld
      readSet := txn.readSet.set (bufKey resource key) value }).setThread i
    (.returned (.value value))

def finishWrite (m : TransactionManager) (i : ThreadId) (t : TxnId)
    (txn : Transaction) (resource key value : String) : TransactionManager :=
  let before := (readRecord m.store resource key).getD ""
  ((m.log (·.logWrite t (bufKey resource key) before value)).putTxn t
    { txn with
      locksHeld := insert (resource, .exclusive)
        (txn.locksHeld.erase (resource, .shared))
      writeBuffer := txn.writeBuffer.set (bufKey resource key) value }).setThread
    i (.returned (.success true))

def finish (m : TransactionManager) (i : ThreadId) (t : TxnId)
    (txn : Transaction) : Op → TransactionManager
  | .read resource key => m.finishRead i t txn resource key
  | .write resource key value => m.finishWrite i t txn resource key value

/-- `LockManager.acquire` for a call; `otherwise` is where a refusal leads. -/
def attempt (m : TransactionManager) (i : ThreadId) (call : Call)
    (otherwise : Thread) : TransactionManager :=
  let (lm, granted) := m.lockManager.acquire call.txnId call.op.resource
    call.op.mode
  { m with lockManager := lm }.setThread i
    (if granted then .running { call with phase := .granted } else otherwise)

/-- `LockManager.upgrade` for a `write` call that holds a shared lock. -/
def tryUpgrade (m : TransactionManager) (i : ThreadId) (call : Call) :
    TransactionManager :=
  let (lm, upgraded) := m.lockManager.upgrade call.txnId call.op.resource
  let phase : Phase := if upgraded then .granted else .acquiring
  { m with lockManager := lm }.setThread i
    (.running { call with phase := phase })

/-- One step of a running call; `none` while its wait event is not set. -/
def advance (m : TransactionManager) (i : ThreadId) :
    Option TransactionManager :=
  match m.threads i with
  | .running call =>
      match call.phase with
      | .upgrading => some (m.tryUpgrade i call)
      | .acquiring =>
          some (m.attempt i call (.running { call with phase := .denied }))
      | .denied =>
          some ({ m with
            waitEvents := m.waitEvents.set (call.txnId, call.op.resource) i
            signalled := m.signalled.erase i }.setThread i
              (.running { call with phase := .waiting }))
      | .waiting =>
          if i ∈ m.signalled then
            some ({ m with
              waitEvents := m.waitEvents.pop
                (call.txnId, call.op.resource) }.setThread i
                (.running { call with phase := .retrying }))
          else none
      | .retrying => some (m.attempt i call (.returned call.op.refusal))
      | .granted =>
          match m.transactions.get? call.txnId with
          | none => none
          | some txn => some (m.finish i call.txnId txn call.op)
  | _ => none

/-- `event.wait` returns `False`.  The event may be set while the wait runs out,
so nothing is asked of `signalled`. -/
def timeout (m : TransactionManager) (i : ThreadId) :
    Option TransactionManager :=
  match m.threads i with
  | .running call =>
      if call.phase = .waiting then
        some ({ m with
          waitEvents := m.waitEvents.pop
            (call.txnId, call.op.resource) }.setThread i
            (.returned call.op.refusal))
      else none
  | _ => none

/-! ## `commit` and `abort` -/

/-- The threads whose wait event `release_all` sets. -/
def wokenBy (m : TransactionManager)
    (granted : List (Resource × List TxnId)) : List ThreadId :=
  granted.flatMap fun item =>
    item.2.filterMap fun t => m.waitEvents.get? (t, item.1)

/-- `ConcurrencyControl.release_all` -/
def releaseAll (m : TransactionManager) (t : TxnId) (order : List Resource) :
    TransactionManager :=
  let (lm, granted) := m.lockManager.releaseAll t order
  { m with
    lockManager := lm
    signalled := m.signalled ∪ (m.wokenBy granted).toFinset }

/-- The loop of `commit` over the write buffer. -/
def install (store : Store) (buffer : List (String × String)) : Store :=
  buffer.foldl (fun store item =>
    let (resource, key) := splitKey item.1
    writeRecord store resource key item.2) store

/-- The known parent that inherits the locks of a committing child. -/
def heir (m : TransactionManager) (txn : Transaction) :
    Option (TxnId × Transaction) :=
  match txn.parentTxnId with
  | none => none
  | some p =>
      if p = "" then none else (m.transactions.get? p).map fun parent =>
        (p, parent)

/-- The end of `commit`: the locks go to a known parent or are released. -/
def passLocks (m : TransactionManager) (t : TxnId) (txn : Transaction)
    (order : List Resource) : TransactionManager :=
  match m.heir txn with
  | some (p, parent) =>
      { m with lockManager := m.lockManager.transferLocks t p order }.putTxn p
        { parent with locksHeld := parent.locksHeld ∪ txn.locksHeld }
  | none => m.releaseAll t order

def commit (m : TransactionManager) (t : TxnId) (order : List Resource) :
    TransactionManager × Bool :=
  match m.getActive t with
  | none => (m, false)
  | some txn =>
      let m := m.log (·.logCommit t)
      let m := { m with
        store := install m.store txn.writeBuffer.items
        commits := m.commits ++ [t] }
      let m := m.putTxn t { txn with status := .committed }
      (m.passLocks t txn order, true)

def abort (m : TransactionManager) (t : TxnId) (order : List Resource) :
    TransactionManager :=
  match m.getActive t with
  | none => m
  | some txn =>
      let m := m.log (·.logAbort t)
      let m := m.putTxn t { txn with writeBuffer := .empty, status := .aborted }
      m.releaseAll t order

end TransactionManager

/-! ## Steps -/

/-- `order` is the order in which the set of locked resources is iterated. -/
inductive TxnAction where
  | begin (parent : Option TxnId)
  | call (i : ThreadId) (t : TxnId) (op : Op)
  | advance (i : ThreadId)
  | timeout (i : ThreadId)
  | commit (t : TxnId) (order : List Resource)
  | abort (t : TxnId) (order : List Resource)
  deriving DecidableEq, Repr

def Thread.isRunning : Thread → Bool
  | .running _ => true
  | _ => false

namespace TransactionManager

def Iterates (m : TransactionManager) (t : TxnId) (order : List Resource) :
    Prop :=
  order.Nodup ∧ order.toFinset = m.lockManager.recorded t

instance (m : TransactionManager) (t : TxnId) (order : List Resource) :
    Decidable (m.Iterates t order) :=
  inferInstanceAs (Decidable (_ ∧ _))

def step (m : TransactionManager) : TxnAction → Option TransactionManager
  | .begin parent => some (m.begin parent).1
  | .call i t op =>
      if (m.threads i).isRunning then none else some (m.start i t op)
  | .advance i => m.advance i
  | .timeout i => m.timeout i
  | .commit t order =>
      if m.Iterates t order then some (m.commit t order).1 else none
  | .abort t order =>
      if m.Iterates t order then some (m.abort t order) else none

end TransactionManager

end DistributedMemory.Storage
