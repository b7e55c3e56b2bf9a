import DistributedMemory.Library.Updates
import DistributedMemory.Recovery.Wal

/-!
# Crash recovery

`recover` reads the log back: it finds the last checkpoint, sorts the
transactions of the records from there on, writes the values of the committed
ones again in the order of the log, takes the values of the unfinished ones back
in the reverse order, and logs an ABORT for each of the latter.  The set of
unfinished transactions is iterated in no particular order, which is an argument
here.

Redo and undo are sequences of updates of the record map, `writesBy` and
`undoneWrites`.
-/

namespace DistributedMemory.Recovery

open DistributedMemory.Library DistributedMemory.Storage

/-- The record that a WRITE entry names: `resource:key`, or one name for both. -/
def recordKey (named : String) : RecordKey :=
  if ':' ∈ named.toList then splitKey named else (named, named)

/-- `set(active_str.split(",")) if active_str else set()` -/
def splitActive (active : String) : Finset TxnId :=
  if active = "" then ∅
  else ((active.toList.splitOn ',').map String.ofList).toFinset

/-- The sequence number of the last checkpoint and the transactions it lists. -/
def lastCheckpoint (entries : List LogEntry) : Nat × Finset TxnId :=
  entries.foldl (fun last e =>
    if e.entryType = .checkpoint then (e.lsn, splitActive e.afterValue)
    else last) (0, ∅)

def relevant (entries : List LogEntry) : List LogEntry :=
  entries.filter fun e => e.lsn ≥ (lastCheckpoint entries).1

structure Analysis where
  committed : Finset TxnId
  aborted : Finset TxnId
  began : Finset TxnId

def Analysis.add (a : Analysis) (e : LogEntry) : Analysis :=
  match e.entryType with
  | .begin => { a with began := insert e.txnId a.began }
  | .commit => { a with committed := insert e.txnId a.committed }
  | .globalCommit => { a with committed := insert e.txnId a.committed }
  | .abort => { a with aborted := insert e.txnId a.aborted }
  | .globalAbort => { a with aborted := insert e.txnId a.aborted }
  | _ => a

def analyze (entries : List LogEntry) : Analysis :=
  entries.foldl Analysis.add ⟨∅, ∅, ∅⟩

def committedIn (entries : List LogEntry) : Finset TxnId :=
  (analyze (relevant entries)).committed

def abortedIn (entries : List LogEntry) : Finset TxnId :=
  (analyze (relevant entries)).aborted

/-- `(began | checkpoint_active) - committed - aborted` -/
def activeIn (entries : List LogEntry) : Finset TxnId :=
  (((analyze (relevant entries)).began ∪ (lastCheckpoint entries).2) \
    committedIn entries) \ abortedIn entries

def redoEntry (committed : Finset TxnId) (store : Store) (e : LogEntry) :
    Store :=
  if e.entryType = .write ∧ e.txnId ∈ committed then
    let (resource, key) := recordKey e.resource
    writeRecord store resource key e.afterValue
  else store

def redo (store : Store) (entries : List LogEntry)
    (committed : Finset TxnId) : Store :=
  entries.foldl (redoEntry committed) store

def undoEntry (active : Finset TxnId) (store : Store) (e : LogEntry) :
    Store :=
  if e.entryType = .write ∧ e.txnId ∈ active then
    let (resource, key) := recordKey e.resource
    if e.beforeValue ≠ "" then
      writeRecord store resource key e.beforeValue
    else deleteRecord store resource key
  else store

def undo (store : Store) (entries : List LogEntry) (active : Finset TxnId) :
    Store :=
  entries.reverse.foldl (undoEntry active) store

structure Report where
  committed : Finset TxnId
  active : Finset TxnId
  aborted : Finset TxnId
  deriving DecidableEq

structure Recovered where
  wal : WriteAheadLog
  store : Store
  report : Report

/-- `order` is the order in which the active transactions are iterated. -/
def recover (wal : WriteAheadLog) (store : Store) (order : List TxnId) :
    Recovered :=
  if wal.entries = [] then ⟨wal, store, ⟨∅, ∅, ∅⟩⟩
  else
    let entries := relevant wal.entries
    let committed := committedIn wal.entries
    let active := activeIn wal.entries
    let store := undo (redo store entries committed) entries active
    ⟨order.foldl WriteAheadLog.logAbort wal, store,
      ⟨committed, active, abortedIn wal.entries⟩⟩

/-! ## What the analysis finds -/

private theorem analyze_append (entries : List LogEntry) (e : LogEntry) :
    analyze (entries ++ [e]) = (analyze entries).add e := by
  simp only [analyze, List.foldl_append, List.foldl_cons, List.foldl_nil]

/-- Some record of one of the types names the transaction. -/
def Records (types : List EntryType) (entries : List LogEntry) (t : TxnId) :
    Prop := ∃ e ∈ entries, e.entryType ∈ types ∧ e.txnId = t

instance (types : List EntryType) (entries : List LogEntry) (t : TxnId) :
    Decidable (Records types entries t) :=
  inferInstanceAs (Decidable (∃ e ∈ entries, _))

@[simp] theorem records_nil (types : List EntryType) (t : TxnId) :
    ¬ Records types [] t := by
  simp [Records]

theorem records_append (types : List EntryType) (first second : List LogEntry)
    (t : TxnId) : Records types (first ++ second) t ↔
      Records types first t ∨ Records types second t := by
  simp only [Records, List.mem_append, or_and_right, exists_or]

theorem records_singleton (types : List EntryType) (e : LogEntry) (t : TxnId) :
    Records types [e] t ↔ e.entryType ∈ types ∧ e.txnId = t := by
  simp only [Records, List.mem_singleton, exists_eq_left]

theorem mem_analyze (entries : List LogEntry) (t : TxnId) :
    (t ∈ (analyze entries).began ↔ Records [.begin] entries t) ∧
    (t ∈ (analyze entries).committed ↔
      Records [.commit, .globalCommit] entries t) ∧
    (t ∈ (analyze entries).aborted ↔
      Records [.abort, .globalAbort] entries t) := by
  induction entries using List.reverseRecOn with
  | nil => simp [analyze]
  | append_singleton rest e ih =>
      obtain ⟨hbegan, hcommitted, haborted⟩ := ih
      simp only [analyze_append, records_append, records_singleton,
        ← hbegan, ← hcommitted, ← haborted, Analysis.add]
      cases e.entryType <;> simp [or_comm, eq_comm]

theorem lastCheckpoint_append (entries : List LogEntry) {later : List LogEntry}
    (h : ∀ e ∈ later, e.entryType ≠ .checkpoint) :
    lastCheckpoint (entries ++ later) = lastCheckpoint entries := by
  induction later using List.reverseRecOn with
  | nil => rw [List.append_nil]
  | append_singleton rest e ih =>
      rw [← List.append_assoc, ← ih fun e' he' => h e' (by simp [he'])]
      simp only [lastCheckpoint, List.foldl_append, List.foldl_cons,
        List.foldl_nil, if_neg (h e (by simp))]

theorem lastCheckpoint_of_none {entries : List LogEntry}
    (h : ∀ e ∈ entries, e.entryType ≠ .checkpoint) :
    lastCheckpoint entries = (0, ∅) :=
  lastCheckpoint_append [] h

theorem relevant_of_none {entries : List LogEntry}
    (h : ∀ e ∈ entries, e.entryType ≠ .checkpoint) :
    relevant entries = entries := by
  simp [relevant, lastCheckpoint_of_none h]

theorem mem_committedIn {entries : List LogEntry}
    (h : ∀ e ∈ entries, e.entryType ≠ .checkpoint) (t : TxnId) :
    t ∈ committedIn entries ↔ Records [.commit, .globalCommit] entries t := by
  rw [committedIn, relevant_of_none h, (mem_analyze entries t).2.1]

theorem mem_activeIn {entries : List LogEntry}
    (h : ∀ e ∈ entries, e.entryType ≠ .checkpoint) (t : TxnId) :
    t ∈ activeIn entries ↔ Records [.begin] entries t ∧
      ¬ Records [.commit, .globalCommit] entries t ∧
      ¬ Records [.abort, .globalAbort] entries t := by
  simp only [activeIn, committedIn, abortedIn, relevant_of_none h,
    lastCheckpoint_of_none h, Finset.union_empty, Finset.mem_sdiff,
    mem_analyze, and_assoc]

/-! ## Redo and undo as updates -/

/-- The updates that the WRITE records of the transactions `p` stand for. -/
def writesBy (p : TxnId → Bool) (entries : List LogEntry) :
    List (RecordKey × Option String) :=
  (entries.filter fun e => e.entryType = .write && p e.txnId).map fun e =>
    (recordKey e.resource, some e.afterValue)

def undoneWrites (p : TxnId → Bool) (entries : List LogEntry) :
    List (RecordKey × Option String) :=
  (entries.reverse.filter fun e => e.entryType = .write && p e.txnId).map
    fun e => (recordKey e.resource,
      if e.beforeValue ≠ "" then some e.beforeValue else none)

theorem mem_writesBy {p : TxnId → Bool} {entries : List LogEntry}
    {key : RecordKey} {v : Option String} :
    (key, v) ∈ writesBy p entries ↔ ∃ e ∈ entries, e.entryType = .write ∧
      p e.txnId = true ∧ recordKey e.resource = key ∧ v = some e.afterValue := by
  simp only [writesBy, List.mem_map, List.mem_filter, Bool.and_eq_true,
    decide_eq_true_eq, Prod.mk.injEq]
  constructor
  · rintro ⟨e, ⟨hmem, htype, hp⟩, hkey, hv⟩
    exact ⟨e, hmem, htype, hp, hkey, hv.symm⟩
  · rintro ⟨e, hmem, htype, hp, hkey, hv⟩
    exact ⟨e, ⟨hmem, htype, hp⟩, hkey, hv.symm⟩

theorem mem_undoneWrites {p : TxnId → Bool} {entries : List LogEntry}
    {key : RecordKey} {v : Option String} :
    (key, v) ∈ undoneWrites p entries ↔ ∃ e ∈ entries, e.entryType = .write ∧
      p e.txnId = true ∧ recordKey e.resource = key ∧
      v = if e.beforeValue ≠ "" then some e.beforeValue else none := by
  simp only [undoneWrites, List.mem_map, List.mem_filter, List.mem_reverse,
    Bool.and_eq_true, decide_eq_true_eq, Prod.mk.injEq]
  constructor
  · rintro ⟨e, ⟨hmem, htype, hp⟩, hkey, hv⟩
    exact ⟨e, hmem, htype, hp, hkey, hv.symm⟩
  · rintro ⟨e, hmem, htype, hp, hkey, hv⟩
    exact ⟨e, ⟨hmem, htype, hp⟩, hkey, hv.symm⟩

theorem writesBy_append (p : TxnId → Bool) (first second : List LogEntry) :
    writesBy p (first ++ second) = writesBy p first ++ writesBy p second := by
  simp only [writesBy, List.filter_append, List.map_append]

theorem writesBy_congr {p q : TxnId → Bool} {entries : List LogEntry}
    (h : ∀ e ∈ entries, e.entryType = .write → p e.txnId = q e.txnId) :
    writesBy p entries = writesBy q entries := by
  unfold writesBy
  congr 1
  refine List.filter_congr fun e he => ?_
  by_cases hwrite : e.entryType = .write
  · simp [hwrite, h e he hwrite]
  · simp [hwrite]

private theorem redoEntry_write {committed : Finset TxnId} {e : LogEntry}
    (h : e.entryType = .write ∧ e.txnId ∈ committed) (store : Store) :
    redoEntry committed store e =
      Function.update store (recordKey e.resource) (some e.afterValue) := by
  rw [redoEntry, if_pos h]
  rfl

private theorem undoEntry_write {active : Finset TxnId} {e : LogEntry}
    (h : e.entryType = .write ∧ e.txnId ∈ active) (store : Store) :
    undoEntry active store e = Function.update store (recordKey e.resource)
      (if e.beforeValue ≠ "" then some e.beforeValue else none) := by
  rw [undoEntry, if_pos h]
  dsimp only
  split <;> rfl

theorem redo_eq (store : Store) (entries : List LogEntry)
    (committed : Finset TxnId) : redo store entries committed =
      assign (writesBy (fun t => t ∈ committed) entries) store := by
  unfold redo writesBy
  induction entries generalizing store with
  | nil => rfl
  | cons e rest ih =>
      rw [List.foldl_cons, ih]
      by_cases h : e.entryType = .write ∧ e.txnId ∈ committed
      · rw [redoEntry_write h, List.filter_cons_of_pos (by simp [h.1, h.2])]
        rfl
      · rw [redoEntry, if_neg h, List.filter_cons_of_neg (by simpa using h)]

theorem undo_eq (store : Store) (entries : List LogEntry)
    (active : Finset TxnId) : undo store entries active =
      assign (undoneWrites (fun t => t ∈ active) entries) store := by
  unfold undo undoneWrites
  generalize entries.reverse = reversed
  induction reversed generalizing store with
  | nil => rfl
  | cons e rest ih =>
      rw [List.foldl_cons, ih]
      by_cases h : e.entryType = .write ∧ e.txnId ∈ active
      · rw [undoEntry_write h, List.filter_cons_of_pos (by simp [h.1, h.2])]
        rfl
      · rw [undoEntry, if_neg h, List.filter_cons_of_neg (by simpa using h)]

theorem recover_store_relevant (wal : WriteAheadLog) (store : Store)
    (order : List TxnId) : (recover wal store order).store =
      assign (undoneWrites (fun t => t ∈ activeIn wal.entries)
        (relevant wal.entries))
        (assign (writesBy (fun t => t ∈ committedIn wal.entries)
          (relevant wal.entries)) store) := by
  unfold recover
  split
  · next hempty =>
    simp [hempty, relevant, undoneWrites, writesBy, assign]
  · simp only [undo_eq, redo_eq]

theorem recover_store {wal : WriteAheadLog}
    (h : ∀ e ∈ wal.entries, e.entryType ≠ .checkpoint) (store : Store)
    (order : List TxnId) : (recover wal store order).store =
      assign (undoneWrites (fun t => t ∈ activeIn wal.entries) wal.entries)
        (assign (writesBy (fun t => t ∈ committedIn wal.entries) wal.entries)
          store) := by
  rw [recover_store_relevant, relevant_of_none h]

/-! ## The log that recovery leaves -/

theorem logAbort_entries (wal : WriteAheadLog) (order : List TxnId) :
    ∃ aborts, (order.foldl WriteAheadLog.logAbort wal).entries =
        wal.entries ++ aborts ∧ ∀ e ∈ aborts, e.entryType = .abort := by
  induction order generalizing wal with
  | nil => exact ⟨[], by simp, by simp⟩
  | cons t rest ih =>
      obtain ⟨aborts, heq, hall⟩ := ih (wal.logAbort t)
      refine ⟨⟨wal.nextLsn, t, .abort, "", "", ""⟩ :: aborts, ?_, ?_⟩
      · rw [List.foldl_cons, heq]
        simp [WriteAheadLog.logAbort, WriteAheadLog.logEntry]
      · rintro e he
        rcases List.mem_cons.mp he with rfl | he
        · rfl
        · exact hall e he

theorem recover_entries (wal : WriteAheadLog) (store : Store)
    (order : List TxnId) : ∃ aborts, (recover wal store order).wal.entries =
        wal.entries ++ aborts ∧ ∀ e ∈ aborts, e.entryType = .abort := by
  unfold recover
  split
  · exact ⟨[], by simp, by simp⟩
  · exact logAbort_entries wal order

theorem records_logAborts (types : List EntryType) (wal : WriteAheadLog)
    (order : List TxnId) (t : TxnId) :
    Records types (order.foldl WriteAheadLog.logAbort wal).entries t ↔
      Records types wal.entries t ∨ EntryType.abort ∈ types ∧ t ∈ order := by
  induction order generalizing wal with
  | nil => simp
  | cons u rest ih =>
      rw [List.foldl_cons, ih, WriteAheadLog.logAbort, WriteAheadLog.logEntry,
        records_append, records_singleton, List.mem_cons, or_assoc, and_or_left,
        eq_comm (a := u)]

end DistributedMemory.Recovery
