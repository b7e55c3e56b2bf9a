import DistributedMemory.Library.Dict
import DistributedMemory.Storage.Record
import Mathlib.Data.Finset.Card

/-!
# The lock manager

Shared and exclusive locks on resources, with one wait queue for each resource
and an index from a transaction to the resources that were recorded for it.
Every method runs under the manager's own mutex, so each is one function from
the lock table to the lock table.  A Python `set` is iterated in no particular
order: where the source loops over one, the order is an argument here.
-/

namespace DistributedMemory.Storage

open DistributedMemory.Library

abbrev TxnId := String

inductive LockType where
  | shared
  | exclusive
  deriving DecidableEq, Repr

structure LockEntry where
  resource : Resource
  lockType : Option LockType
  holders : Finset TxnId
  waitQueue : List (TxnId × LockType)

def LockEntry.new (resource : Resource) : LockEntry := ⟨resource, none, ∅, []⟩

structure LockManager where
  locks : Dict Resource LockEntry
  txnLocks : Dict TxnId (Finset Resource)

namespace LockManager

def new : LockManager := ⟨.empty, .empty⟩

/-- The entry of a resource; an absent one reads as a fresh one. -/
def entry (lm : LockManager) (r : Resource) : LockEntry :=
  (lm.locks.get? r).getD (.new r)

/-- The resources recorded for a transaction, `_txn_locks.get(txn_id, set())`. -/
def recorded (lm : LockManager) (t : TxnId) : Finset Resource :=
  (lm.txnLocks.get? t).getD ∅

def putEntry (lm : LockManager) (r : Resource) (e : LockEntry) : LockManager :=
  { lm with locks := lm.locks.set r e }

def recordLock (lm : LockManager) (t : TxnId) (r : Resource) : LockManager :=
  { lm with txnLocks := lm.txnLocks.set t (insert r (lm.recorded t)) }

def forgetTxn (lm : LockManager) (t : TxnId) : LockManager :=
  { lm with txnLocks := lm.txnLocks.pop t }

end LockManager

def LockEntry.enqueue (e : LockEntry) (t : TxnId) (lt : LockType) : LockEntry :=
  if (t, lt) ∈ e.waitQueue then e
  else { e with waitQueue := e.waitQueue ++ [(t, lt)] }

namespace LockManager

/-- `acquire`: the new table, and whether the lock was granted. -/
def acquire (lm : LockManager) (t : TxnId) (r : Resource) (lt : LockType) :
    LockManager × Bool :=
  let e := lm.entry r
  if t ∈ e.holders then
    if e.lockType = some .exclusive then (lm.putEntry r e, true)
    else if lt = .shared then (lm.putEntry r e, true)
    else if e.holders.card = 1 then
      ((lm.putEntry r { e with lockType := some .exclusive }).recordLock t r,
        true)
    else (lm.putEntry r (e.enqueue t lt), false)
  else if e.holders = ∅ then
    ((lm.putEntry r
        { e with holders := insert t e.holders, lockType := some lt }).recordLock
      t r, true)
  else if e.lockType = some .shared ∧ lt = .shared then
    ((lm.putEntry r { e with holders := insert t e.holders }).recordLock t r,
      true)
  else (lm.putEntry r (e.enqueue t lt), false)

end LockManager

def sharedRun (queue : List (TxnId × LockType)) : List TxnId :=
  (queue.takeWhile fun request => request.2 = .shared).map Prod.fst

/-- The last loop of `_grant_waiting`: drop what belongs to a holder or repeats
a transaction already kept. -/
def dedupQueue (holders : Finset TxnId) :
    Finset TxnId → List (TxnId × LockType) → List (TxnId × LockType)
  | _, [] => []
  | seen, request :: rest =>
      if request.1 ∉ seen ∧ request.1 ∉ holders then
        request :: dedupQueue holders (insert request.1 seen) rest
      else dedupQueue holders seen rest

/--
`_grant_waiting` on one entry: the new entry and the granted transactions.  A
shared head is granted together with the shared requests right behind it; the
first request that is not shared is put in front of the tail
`wait_queue[len(granted) - 1:]`, which still contains it, and the repetition is
removed by the last loop.
-/
def LockEntry.grantWaiting (e : LockEntry) : LockEntry × List TxnId :=
  match e.waitQueue with
  | [] => (e, [])
  | (first, .exclusive) :: rest =>
      ({ e with
          holders := insert first e.holders
          lockType := some .exclusive
          waitQueue := rest }, [first])
  | (first, .shared) :: rest =>
      let granted := first :: sharedRun rest
      let stillWaiting :=
        (rest.dropWhile fun request => request.2 = .shared).take 1
      let holders := e.holders ∪ granted.toFinset
      ({ e with
          holders := holders
          lockType := some .shared
          waitQueue := dedupQueue holders ∅
            (stillWaiting ++ rest.drop (granted.length - 1)) }, granted)

namespace LockManager

/-- `_grant_waiting` with the granted locks recorded in the index. -/
def grantWaiting (lm : LockManager) (r : Resource) (e : LockEntry) :
    LockManager × List TxnId :=
  let (e', granted) := e.grantWaiting
  (granted.foldl (fun lm t => lm.recordLock t e.resource) (lm.putEntry r e'),
    granted)

/-- Take `t` out of the holders of `r`; when nobody is left, the queue is
served. -/
def dropHolder (lm : LockManager) (t : TxnId) (r : Resource) :
    LockManager × List TxnId :=
  match lm.locks.get? r with
  | none => (lm, [])
  | some e =>
      let e := { e with holders := e.holders.erase t }
      if e.holders = ∅ then lm.grantWaiting r { e with lockType := none }
      else (lm.putEntry r e, [])

/-- `release`, with `_release_internal` as its body. -/
def release (lm : LockManager) (t : TxnId) (r : Resource) : LockManager :=
  match lm.locks.get? r with
  | none => lm
  | some _ =>
      let lm :=
        match lm.txnLocks.get? t with
        | none => lm
        | some rs => { lm with txnLocks := lm.txnLocks.set t (rs.erase r) }
      (lm.dropHolder t r).1

/--
`release_all`: the new table and the granted transactions of each resource.
`order` is the order in which the set of recorded resources is iterated.
-/
def releaseAll (lm : LockManager) (t : TxnId) (order : List Resource) :
    LockManager × List (Resource × List TxnId) :=
  let (lm, granted) := order.foldl
    (fun (acc : LockManager × List (Resource × List TxnId)) r =>
      let (lm, newly) := acc.1.dropHolder t r
      (lm, if newly = [] then acc.2 else acc.2 ++ [(r, newly)]))
    (lm, [])
  (lm.forgetTxn t, granted)

/-- One resource of `transfer_locks`. -/
def transferLock (source target : TxnId) (lm : LockManager) (r : Resource) :
    LockManager :=
  match lm.locks.get? r with
  | none => lm
  | some e =>
      if source ∈ e.holders then
        (lm.putEntry r
          { e with holders := insert target (e.holders.erase source) }).recordLock
          target r
      else lm

def transferLocks (lm : LockManager) (source target : TxnId)
    (order : List Resource) : LockManager :=
  (order.foldl (transferLock source target) lm).forgetTxn source

/-- `upgrade`: the new table, and whether the lock is exclusive now. -/
def upgrade (lm : LockManager) (t : TxnId) (r : Resource) :
    LockManager × Bool :=
  match lm.locks.get? r with
  | none => (lm, false)
  | some e =>
      if t ∉ e.holders then (lm, false)
      else if e.lockType = some .exclusive then (lm, true)
      else if e.holders.card = 1 then
        ((lm.putEntry r { e with lockType := some .exclusive }).recordLock t r,
          true)
      else (lm, false)

end LockManager

end DistributedMemory.Storage
