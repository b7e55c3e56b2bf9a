import DistributedMemory.Storage.LockManager

/-!
# The write-ahead log

The log as the list of its records.  Opening the log again computes the next
sequence number from the records found.  The timestamp of a record is read by
nothing and is left out.
-/

namespace DistributedMemory.Recovery

open DistributedMemory.Storage

inductive EntryType where
  | begin
  | write
  | commit
  | abort
  | checkpoint
  | prepare
  | voteCommit
  | voteAbort
  | globalCommit
  | globalAbort
  deriving DecidableEq, Repr

structure LogEntry where
  lsn : Nat
  txnId : TxnId
  entryType : EntryType
  resource : String
  beforeValue : String
  afterValue : String
  deriving DecidableEq, Repr

structure WriteAheadLog where
  entries : List LogEntry
  nextLsn : Nat
  deriving DecidableEq, Repr

namespace WriteAheadLog

/-- `_init_lsn` on the records of an existing file; `1` when there are none. -/
def initLsn (entries : List LogEntry) : Nat :=
  entries.foldl (fun last e => max last e.lsn) 0 + 1

/-- `WriteAheadLog(node_id)` over the records that the file holds. -/
def reopen (entries : List LogEntry) : WriteAheadLog :=
  ⟨entries, initLsn entries⟩

@[simp] theorem reopen_entries (entries : List LogEntry) :
    (reopen entries).entries = entries := rfl

def new : WriteAheadLog := reopen []

def logEntry (wal : WriteAheadLog) (t : TxnId) (type : EntryType)
    (resource before after : String) : WriteAheadLog :=
  ⟨wal.entries ++ [⟨wal.nextLsn, t, type, resource, before, after⟩],
    wal.nextLsn + 1⟩

def logBegin (wal : WriteAheadLog) (t : TxnId) : WriteAheadLog :=
  wal.logEntry t .begin "" "" ""

def logWrite (wal : WriteAheadLog) (t : TxnId)
    (resource before after : String) : WriteAheadLog :=
  wal.logEntry t .write resource before after

def logCommit (wal : WriteAheadLog) (t : TxnId) : WriteAheadLog :=
  wal.logEntry t .commit "" "" ""

def logAbort (wal : WriteAheadLog) (t : TxnId) : WriteAheadLog :=
  wal.logEntry t .abort "" "" ""

def logCheckpoint (wal : WriteAheadLog) (active : List TxnId) :
    WriteAheadLog :=
  wal.logEntry "SYSTEM" .checkpoint "" "" (",".intercalate active)

def logPrepare (wal : WriteAheadLog) (t : TxnId) : WriteAheadLog :=
  wal.logEntry t .prepare "" "" ""

def logGlobalCommit (wal : WriteAheadLog) (t : TxnId) : WriteAheadLog :=
  wal.logEntry t .globalCommit "" "" ""

def logGlobalAbort (wal : WriteAheadLog) (t : TxnId) : WriteAheadLog :=
  wal.logEntry t .globalAbort "" "" ""

def logVoteCommit (wal : WriteAheadLog) (t : TxnId) : WriteAheadLog :=
  wal.logEntry t .voteCommit "" "" ""

def logVoteAbort (wal : WriteAheadLog) (t : TxnId) : WriteAheadLog :=
  wal.logEntry t .voteAbort "" "" ""

end WriteAheadLog

/-- The records of a log; none without a log. -/
def entriesOf (wal : Option WriteAheadLog) : List LogEntry :=
  match wal with
  | none => []
  | some wal => wal.entries

end DistributedMemory.Recovery
