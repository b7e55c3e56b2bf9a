import DistributedMemory.Recovery.CrashRecovery
import DistributedMemory.Recovery.FileRecovery

/-!
# A node on its files

The transaction manager with its directory under it, in which the log and the record
files are.  A step of the manager makes a list of calls on the files, the call on the
log before the writes of the records; a crash may come between any two of them, also
in the middle of the loop of `commit`.

Where the strings given to the manager can stand in the files and its resources are
names of files other than the log, no call raises, and recovery from the files as the
crash left them restores the committed state.
-/

namespace DistributedMemory.Recovery

open DistributedMemory.Library DistributedMemory.Storage
open DistributedMemory.Storage.RecordFile
  (Directory IsKey IsRecordFile IsValue Represents logName performAt readAt)
open LogFile (Agrees Disk Entry Holds IsField Storable)
open Library.Text (FloatText Str str encodable_str str_inj textOf_str)

variable {F : FloatText}

inductive DiskCall where
  | log (call : LogFile.Call)
  | record (resource : Resource) (call : RecordFile.Call)

/-- `none` where the call raises. -/
def DiskCall.perform (now : F.Val) (disk : Disk) : DiskCall → Option Disk
  | .log call => disk.logs fun wal => call.perform wal now
  | .record resource call =>
      (performAt disk.dir (resource, call)).map fun dir => { disk with dir := dir }

/-- The calls on the files in one step of the manager, `timestamp` being the time
of a commit; `none` where reading a record raises. -/
def diskCalls (m : TransactionManager) (dir : Directory) (timestamp : Int) :
    TxnAction → Option (List DiskCall)
  | .begin _ => some [.log (.begin (str (txnName m.nodeId (m.seq + 1))))]
  | .advance i =>
      match m.threads i with
      | .running ⟨_, .read resource key, .granted⟩ =>
          (readAt dir resource (str key)).map fun _ => []
      | .running ⟨t, .write resource key value, .granted⟩ =>
          (readAt dir resource (str key)).map fun old =>
            [.log (.write (str t) (str (bufKey resource key))
              ((old.map RecordFile.Record.value).getD []) (str value))]
      | _ => some []
  | .commit t _ =>
      match m.getActive t with
      | none => some []
      | some txn => some (.log (.commit (str t)) ::
          txn.writeBuffer.items.map fun item =>
            .record (splitKey item.1).1
              (.write (str (splitKey item.1).2) (str item.2) timestamp))
  | .abort t _ =>
      match m.getActive t with
      | none => some []
      | some _ => some [.log (.abort (str t))]
  | .call _ _ _ => some []
  | .timeout _ => some []

structure FileAction (F : FloatText) where
  action : TxnAction
  now : F.Val
  timestamp : Int

structure FileNode where
  manager : TransactionManager
  disk : Disk

namespace FileNode

/-- A node with a new log. -/
def new (nodeId : Nat) (initial : Store) (dir : Directory) : FileNode :=
  ⟨.new nodeId (some .new) initial, ⟨dir, 1⟩⟩

def calls (d : FileNode) (a : FileAction F) : Option (List DiskCall) :=
  diskCalls d.manager d.disk.dir a.timestamp a.action

def step (d : FileNode) (a : FileAction F) : Option FileNode :=
  (d.manager.step a.action).bind fun m =>
    (d.calls a).bind fun calls =>
      (calls.foldlM (DiskCall.perform a.now) d.disk).map fun disk => ⟨m, disk⟩

end FileNode

/-! ## What the files hold -/

/-- The files hold this log and this map. -/
structure Mirrors (F : FloatText) (disk : Disk) (wal : WriteAheadLog)
    (store : Store) : Prop where
  log : ∃ entries : List (Entry F), Holds disk.wal entries ∧ Agrees wal entries
  files : Represents disk.dir store

/-- The strings of the call can stand in the files. -/
def DiskCall.Clean : DiskCall → Prop
  | .log call => call.Clean
  | .record resource call => IsRecordFile resource ∧ call.Storable

def DiskCall.onWal (wal : WriteAheadLog) : DiskCall → WriteAheadLog
  | .log call => call.onRecords wal
  | .record _ _ => wal

def DiskCall.onStore (store : Store) : DiskCall → Store
  | .log _ => store
  | .record resource call => call.onStore store resource

variable {disk : Disk} {wal : WriteAheadLog} {store : Store}

theorem Mirrors.perform (h : Mirrors F disk wal store) {call : DiskCall}
    (hcall : call.Clean) (now : F.Val) :
    ∃ disk', call.perform now disk = some disk' ∧
      Mirrors F disk' (call.onWal wal) (call.onStore store) := by
  obtain ⟨entries, hholds, hagrees⟩ := h.log
  cases call with
  | log call =>
      obtain ⟨disk', entries', hlogs, hholds', hagrees', hfiles'⟩ :=
        LogFile.logs_holds hholds hagrees h.files hcall now
      exact ⟨disk', hlogs, ⟨entries', hholds', hagrees'⟩, hfiles'⟩
  | record resource call =>
      obtain ⟨dir, hdir, hlog, hrepresents⟩ :=
        LogFile.performAt_represents h.files hcall.1 hcall.2
      refine ⟨{ disk with dir := dir }, ?_, ⟨entries, ?_, hagrees⟩, hrepresents⟩
      · rw [DiskCall.perform, hdir, Option.map_some]
      · have hwal : (Disk.mk dir disk.nextLsn).wal = disk.wal := by
          simp only [Disk.wal, hlog]
        exact hwal ▸ hholds

theorem Mirrors.performAll (h : Mirrors F disk wal store)
    {calls : List DiskCall} (hcalls : ∀ call ∈ calls, call.Clean)
    (now : F.Val) :
    ∃ disk', calls.foldlM (DiskCall.perform now) disk = some disk' ∧
      Mirrors F disk' (calls.foldl DiskCall.onWal wal)
        (calls.foldl DiskCall.onStore store) := by
  induction calls generalizing disk wal store with
  | nil => exact ⟨disk, rfl, h⟩
  | cons call calls ih =>
      obtain ⟨hcall, hrest⟩ := List.forall_mem_cons.mp hcalls
      obtain ⟨disk₁, hfirst, h₁⟩ := h.perform hcall now
      obtain ⟨disk', hlater, h'⟩ := ih h₁ hrest
      refine ⟨disk', ?_, h'⟩
      rw [List.foldlM_cons, hfirst]
      exact hlater

private theorem isValue_of_represents {dir : Directory} (h : Represents dir store)
    {resource : Resource} (hresource : IsRecordFile resource) {key v : String}
    (hv : store (resource, key) = some v) : IsValue (str v) := by
  obtain ⟨record?, ⟨records, hread, hlookup⟩, hvalue⟩ := h resource hresource
  have hsome : (record? (str key)).map RecordFile.Record.value = some (str v) := by
    rw [hvalue key, readRecord, hv, Option.map_some]
  obtain ⟨record, hrecord, hrecordValue⟩ := Option.map_eq_some_iff.mp hsome
  rw [← hlookup (str key)] at hrecord
  exact hrecordValue ▸ (RecordFile.isKey_isValue_of_mem hread
    (List.mem_of_find?_eq_some hrecord)).1.2

theorem Mirrors.recover (h : Mirrors F disk wal store)
    (hstorable : ∀ r ∈ wal.entries, Storable r)
    {order : List (TxnId × F.Val)} (hnames : ∀ item ∈ order, IsField (str item.1)) :
    ∃ recovered, (Disk.restart disk.dir).bind
        (fun disk => LogFile.recoverFiles disk order) = some recovered ∧
      Represents recovered.disk.dir
        (Recovery.recover (.reopen wal.entries) store
          (order.map Prod.fst)).store := by
  obtain ⟨entries, hholds, hagrees⟩ := h.log
  have hreopened : Agrees (.reopen wal.entries) entries :=
    ⟨hagrees.entries, hagrees.initLsn, hagrees.initLsn⟩
  obtain ⟨recovered, hrecover, hfiles, -⟩ := LogFile.recoverFiles_refines hholds
    hreopened h.files hstorable hnames
  have hrestart : Disk.restart disk.dir = some disk := by
    have hreopen : LogFile.reopen (disk.dir logName) = some disk.wal := hholds.reopen
    rw [Disk.restart, hreopen]
    rfl
  exact ⟨recovered, by rw [hrestart, Option.bind_some, hrecover], hfiles⟩

/-! ## The strings of a run -/

structure StorableOp (op : Op) : Prop where
  colonFree : ColonFree op.resource
  file : IsRecordFile op.resource
  resource : IsField (str op.resource)
  read : ∀ resource key, op = .read resource key → IsKey (str key)
  write : ∀ resource key value, op = .write resource key value →
    IsKey (str key) ∧ IsValue (str value) ∧ value ≠ ""

def StorableAction : TxnAction → Prop
  | .call _ _ op => StorableOp op
  | _ => True

theorem IsKey.isField {key : String} (h : IsKey (str key)) : IsField (str key) :=
  ⟨h.bar, h.unbroken, encodable_str key⟩

theorem IsValue.isField {value : String} (h : IsValue (str value)) :
    IsField (str value) :=
  ⟨h.bar, h.unbroken, encodable_str value⟩

theorem isField_append {s s' : String} (h : IsField (str s)) (h' : IsField (str s')) :
    IsField (str (s ++ s')) := by
  have hconcat : str (s ++ s') = str s ++ str s' := by simp [str]
  rw [hconcat]
  rw [LogFile.isField_iff] at h h' ⊢
  exact List.forall_mem_append.mpr ⟨h, h'⟩

private theorem isField_bufKey {resource key : String} (hresource : IsField (str resource))
    (hkey : IsField (str key)) : IsField (str (bufKey resource key)) :=
  isField_append (isField_append hresource (by decide)) hkey

theorem isField_toString (n : Nat) : IsField (str (toString n)) := by
  have hdigit : ∀ c ∈ (toString n).toList, c.isDigit = true := by
    intro c hc
    rw [Nat.toString_eq_repr, Nat.toList_repr] at hc
    exact Nat.isDigit_of_mem_toDigits (by decide) (by decide) hc
  rw [LogFile.isField_str_iff]
  refine ⟨fun hbar => absurd (hdigit _ hbar) (by decide), fun c hc => ?_⟩
  constructor <;>
  · rintro rfl
    exact absurd (hdigit _ hc) (by decide)

theorem isField_txnName (nodeId seq : Nat) : IsField (str (txnName nodeId seq)) :=
  isField_append (isField_append (isField_append (by decide)
    (isField_toString nodeId)) (by decide)) (isField_toString seq)

/-- No string that the manager may still pass to its files is a bad one. -/
structure Strings (m : TransactionManager) : Prop where
  calls : ∀ i call, m.threads i = .running call → StorableOp call.op
  names : ∀ t, m.statusOf t ≠ none → IsField (str t)
  records : ∀ r ∈ m.logged, Storable r

/-! ## What a step does to the log and the map -/

/-- The calls of a step: none, or one on the log and then the writes of a commit,
each of a value that is in the log under a committed transaction. -/
inductive Effects (timestamp : Int) (m m' : TransactionManager) :
    List DiskCall → Prop where
  | silent (wal : m'.wal = m.wal) (store : m'.store = m.store) :
      Effects timestamp m m' []
  | logged (call : LogFile.Call) (writes : List (RecordKey × String))
      (clean : call.Clean)
      (wal : m'.wal = m.wal.map fun wal => call.onRecords wal)
      (storable : ∀ wal : WriteAheadLog, ∀ r ∈ (call.onRecords wal).entries,
        r ∈ wal.entries ∨ Storable r)
      (store : m'.store = writes.foldl
        (fun store w => writeRecord store w.1.1 w.1.2 w.2) m.store)
      (written : ∀ w ∈ writes, ∃ e ∈ m'.logged, e.entryType = .write ∧
        recordKey e.resource = w.1 ∧ Records [.commit] m'.logged e.txnId ∧
        e.afterValue = w.2) :
      Effects timestamp m m' (.log call :: writes.map fun w =>
        .record w.1.1 (.write (str w.1.2) (str w.2) timestamp))

theorem clean_name {call : LogFile.Call} {t : TxnId} (ht : IsField (str t))
    (h : call.strings = [str t]) : call.Clean := by
  intro s hs
  rw [h, List.mem_singleton] at hs
  exact hs ▸ ht

theorem storable_mark {wal : WriteAheadLog} {t : TxnId} {type : EntryType}
    (htype : type ≠ .write) (r : LogEntry)
    (h : r ∈ (wal.logEntry t type "" "" "").entries) :
    r ∈ wal.entries ∨ Storable r := by
  refine (List.mem_append.mp h).imp_right fun hr => ?_
  obtain rfl := List.mem_singleton.mp hr
  constructor <;> exact fun hwrite => absurd hwrite htype

private theorem silent_advance {m m' : TransactionManager} {i : ThreadId}
    (hstep : m.step (.advance i) = some m')
    (hgranted : ∀ call, m.threads i = .running call → call.phase ≠ .granted) :
    m'.wal = m.wal ∧ m'.store = m.store := by
  cases step_spec hstep with
  | locked => exact ⟨rfl, rfl⟩
  | moved => exact ⟨rfl, rfl⟩
  | finished _ call txn running granted known =>
      exact absurd granted (hgranted call running)
  | refused t order action => exact ⟨rfl, rfl⟩

section Step

variable {initial : Store} {m m' : TransactionManager} {dir : Directory}
  {a : TxnAction} (timestamp : Int)

private theorem effects_advance (hstrings : Strings m)
    (hfiles : Represents dir m.store) {i : ThreadId}
    (hstep : m.step (.advance i) = some m') :
    ∃ calls, diskCalls m dir timestamp (.advance i) = some calls ∧
      Effects timestamp m m' calls := by
  by_cases hgranted : ∃ call, m.threads i = .running call ∧ call.phase = .granted
  · obtain ⟨⟨t, op, _⟩, hrunning, rfl⟩ := hgranted
    have hop := hstrings.calls i _ hrunning
    simp only [TransactionManager.step, TransactionManager.advance, hrunning]
      at hstep
    split at hstep
    · cases hstep
    · next txn hknown =>
      obtain rfl := Option.some.inj hstep
      cases op with
      | read resource key =>
          have hfile : IsRecordFile resource := hop.file
          obtain ⟨old, hold, -⟩ :=
            Option.map_eq_some_iff.mp (hfiles.readAt hfile key)
          exact ⟨[], by simp [diskCalls, hrunning, hold], .silent rfl rfl⟩
      | write resource key value =>
          have hfile : IsRecordFile resource := hop.file
          obtain ⟨hkey, hvalue, -⟩ := hop.write resource key value rfl
          obtain ⟨old, hold, hbefore⟩ :=
            Option.map_eq_some_iff.mp (hfiles.readAt hfile key)
          have hbeforeText : (old.map RecordFile.Record.value).getD [] =
              str ((readRecord m.store resource key).getD "") := by
            rw [hbefore]
            cases readRecord m.store resource key <;> rfl
          have hbeforeValue :
              IsValue (str ((readRecord m.store resource key).getD "")) := by
            cases hread : readRecord m.store resource key with
            | none => exact ⟨by decide, by decide⟩
            | some v => exact isValue_of_represents hfiles hfile hread
          have ht : IsField (str t) := hstrings.names t (by
            simp [TransactionManager.statusOf, hknown])
          have hkey' : recordKey (bufKey resource key) = (resource, key) :=
            recordKey_bufKey hop.colonFree key
          refine ⟨_, by simp only [diskCalls, hrunning, hold, Option.map_some,
            hbeforeText, List.map_nil], .logged (.write (str t) (str (bufKey resource key))
              (str ((readRecord m.store resource key).getD "")) (str value)) [] ?_ ?_
            (fun wal r hr => ?_) rfl (by simp)⟩
          · intro s hs
            simp only [LogFile.Call.strings, List.mem_cons, List.not_mem_nil,
              or_false] at hs
            rcases hs with rfl | rfl | rfl | rfl
            · exact ht
            · exact isField_bufKey hop.resource (IsKey.isField hkey)
            · exact IsValue.isField hbeforeValue
            · exact IsValue.isField hvalue
          · simp only [LogFile.Call.onRecords, textOf_str]
            rfl
          · simp only [LogFile.Call.onRecords, textOf_str] at hr
            refine (List.mem_append.mp hr).imp_right fun hr => ?_
            obtain rfl := List.mem_singleton.mp hr
            exact ⟨fun _ => by rw [hkey']; exact hfile,
              fun _ => by rw [hkey']; exact hkey, fun _ => hbeforeValue,
              fun _ => hvalue⟩
  · have hungranted : ∀ call, m.threads i = .running call →
        call.phase ≠ .granted :=
      fun call hcall hphase => hgranted ⟨call, hcall, hphase⟩
    obtain ⟨hwal, hstore⟩ := silent_advance hstep hungranted
    refine ⟨[], ?_, .silent hwal hstore⟩
    simp only [diskCalls]
    split
    · next hrunning => exact absurd rfl (hungranted _ hrunning)
    · next hrunning => exact absurd rfl (hungranted _ hrunning)
    · rfl

private theorem effects_commit (hrecoverable : m.Recoverable initial)
    (hstrings : Strings m) {t : TxnId} {txn : Transaction}
    (hactive : m.getActive t = some txn) (order : List Resource) :
    Effects timestamp m (m.commit t order).1 (.log (.commit (str t)) ::
      txn.writeBuffer.items.map fun item => .record (splitKey item.1).1
        (.write (str (splitKey item.1).2) (str item.2) timestamp)) := by
  have hbooks := hrecoverable.books
  have ht : IsField (str t) := hstrings.names t (by
    rw [TransactionManager.statusOf_of_getActive hactive]
    simp)
  have hwal := TransactionManager.commit_wal hactive order
  obtain ⟨lsn, hlogged⟩ := TransactionManager.logged_of_wal
    (n := (m.commit t order).1) hbooks.opened hwal
  have hstore : (m.commit t order).1.store =
      (txn.writeBuffer.items.map fun item => (splitKey item.1, item.2)).foldl
        (fun store w => writeRecord store w.1.1 w.1.2 w.2) m.store := by
    rw [TransactionManager.commit_store hactive, List.foldl_map]
    rfl
  have hmap : (txn.writeBuffer.items.map fun item => DiskCall.record
        (splitKey item.1).1 (.write (str (splitKey item.1).2) (str item.2) timestamp)) =
      (txn.writeBuffer.items.map fun item => (splitKey item.1, item.2)).map
        fun w => .record w.1.1 (.write (str w.1.2) (str w.2) timestamp) := by
    rw [List.map_map]
    rfl
  rw [hmap]
  refine .logged (.commit (str t)) _ (clean_name ht rfl) ?_ (fun wal r hr => ?_) hstore
    fun w hw => ?_
  · simp only [LogFile.Call.onRecords, textOf_str]
    exact hwal
  · simp only [LogFile.Call.onRecords, textOf_str] at hr
    exact storable_mark (by simp) r hr
  · obtain ⟨⟨b, v⟩, hitem, rfl⟩ := List.mem_map.mp hw
    have hget := Dict.mem_items_iff.mp hitem
    obtain ⟨r, k, hr, rfl, -⟩ :=
      (hrecoverable.inv.owns t txn hactive).buffer b v hget
    have hbuffer := hbooks.buffers t txn.writeBuffer
      (by simp [TransactionManager.activeBuffer, hactive]) r k hr
    rw [hget, Option.map_some] at hbuffer
    obtain ⟨e, he, hwrite, hname, hkey, hvalue⟩ :=
      mem_writesBy.mp (mem_of_latest hbuffer.symm)
    refine ⟨e, ?_, hwrite, ?_, ?_, ?_⟩
    · rw [hlogged]
      exact List.mem_append_left _ he
    · rw [hkey, splitKey_bufKey hr]
    · rw [hlogged, records_append, records_singleton, of_decide_eq_true hname]
      exact .inr ⟨by simp, rfl⟩
    · exact (Option.some.inj hvalue).symm

private theorem effects_step (hrecoverable : m.Recoverable initial)
    (hstrings : Strings m) (hfiles : Represents dir m.store)
    (hstep : m.step a = some m') :
    ∃ calls, diskCalls m dir timestamp a = some calls ∧
      Effects timestamp m m' calls := by
  cases a with
  | begin parent =>
      cases hstep
      refine ⟨_, rfl, .logged _ [] (clean_name (isField_txnName _ _) rfl) ?_
        (fun wal r hr => ?_) rfl (by simp)⟩
      · simp only [LogFile.Call.onRecords, textOf_str]
        rfl
      · simp only [LogFile.Call.onRecords, textOf_str] at hr
        exact storable_mark (by simp) r hr
  | call i t op =>
      refine ⟨[], rfl, ?_⟩
      cases step_spec hstep with
      | answered => exact .silent rfl rfl
      | started => exact .silent rfl rfl
      | moved => exact .silent rfl rfl
      | refused => exact .silent rfl rfl
  | advance i => exact effects_advance timestamp hstrings hfiles hstep
  | timeout i =>
      refine ⟨[], rfl, ?_⟩
      cases step_spec hstep with
      | moved => exact .silent rfl rfl
      | refused => exact .silent rfl rfl
  | commit t order =>
      obtain ⟨-, hsome⟩ := Option.ite_none_right_eq_some.mp hstep
      obtain rfl := Option.some.inj hsome
      cases hactive : m.getActive t with
      | none =>
          exact ⟨[], by simp [diskCalls, hactive], by
            simp only [TransactionManager.commit, hactive]
            exact .silent rfl rfl⟩
      | some txn =>
          exact ⟨_, by simp only [diskCalls, hactive],
            effects_commit timestamp hrecoverable hstrings hactive order⟩
  | abort t order =>
      obtain ⟨-, hsome⟩ := Option.ite_none_right_eq_some.mp hstep
      obtain rfl := Option.some.inj hsome
      cases hactive : m.getActive t with
      | none =>
          exact ⟨[], by simp [diskCalls, hactive], by
            simp only [TransactionManager.abort, hactive]
            exact .silent rfl rfl⟩
      | some txn =>
          have ht : IsField (str t) := hstrings.names t (by
            rw [TransactionManager.statusOf_of_getActive hactive]
            simp)
          refine ⟨_, by simp only [diskCalls, hactive, List.map_nil], .logged
            (.abort (str t)) []
            (clean_name ht rfl) ?_ (fun wal r hr => ?_) ?_ (by simp)⟩
          · simp only [LogFile.Call.onRecords, textOf_str]
            rw [TransactionManager.abort_eq hactive]
            rfl
          · simp only [LogFile.Call.onRecords, textOf_str] at hr
            exact storable_mark (by simp) r hr
          · rw [TransactionManager.abort_eq hactive]
            rfl

theorem Strings.step (hstrings : Strings m) (ha : ∀ i t op, a = .call i t op →
      StorableOp op) {calls : List DiskCall}
    (heffects : Effects timestamp m m' calls) (hopened : m.wal ≠ none)
    (hstep : m.step a = some m') : Strings m' := by
  refine ⟨fun i call hrun => ?_, fun t hknown => ?_, fun r hr => ?_⟩
  · -- A call runs on, or it is the one that starts.
    have hset : ∀ {n : TransactionManager} {j : ThreadId} {thread : Thread},
        n.threads = m.threads →
        (∀ c, thread = .running c → StorableOp c.op) →
        (n.setThread j thread).threads i = .running call →
        StorableOp call.op := by
      intro n j thread hn hthread hrun
      rw [TransactionManager.threads_setThread] at hrun
      split at hrun
      · exact hthread call hrun
      · exact hstrings.calls i call (hn ▸ hrun)
    cases step_spec hstep with
    | began parent => exact hstrings.calls i call hrun
    | answered j t op reply => exact hset rfl (by simp) hrun
    | started j t op phase txn active covered =>
        refine hset rfl ?_ hrun
        rintro c ⟨⟩
        exact ha j t op rfl
    | locked j old lt lm e granted answer thread running attempt mode acquires
        rewrites next =>
        refine hset rfl ?_ hrun
        rintro c rfl
        rcases next with ⟨-, heq⟩ | ⟨-, -, hsame⟩
        · obtain rfl := Thread.running.inj heq
          exact hstrings.calls j old running
        · rw [(hsame c rfl).2]
          exact hstrings.calls j old running
    | moved j old _ thread events signalled running action unattempted ungranted
        same =>
        refine hset rfl ?_ hrun
        rintro c rfl
        rw [(same c rfl).2]
        exact hstrings.calls j old running
    | finished j old txn running granted known =>
        exact hstrings.calls i call
          (TransactionManager.finish_threads m j _ txn _ hrun)
    | committed t order txn active iterates =>
        rw [TransactionManager.commit_threads active] at hrun
        exact hstrings.calls i call hrun
    | aborted t order txn active iterates =>
        rw [TransactionManager.abort_threads active] at hrun
        exact hstrings.calls i call hrun
    | refused => exact hstrings.calls i call hrun
  · cases step_spec hstep with
    | began parent =>
        rw [TransactionManager.begin_statusOf] at hknown
        split at hknown
        · next heq => exact heq ▸ isField_txnName _ _
        · exact hstrings.names t hknown
    | answered => exact hstrings.names t hknown
    | started => exact hstrings.names t hknown
    | locked => exact hstrings.names t hknown
    | moved => exact hstrings.names t hknown
    | finished j old txn running granted known =>
        rw [TransactionManager.finish_statusOf known] at hknown
        exact hstrings.names t hknown
    | committed u order txn active iterates =>
        rw [TransactionManager.commit_statusOf active] at hknown
        split at hknown
        · next heq =>
          refine heq ▸ hstrings.names u ?_
          rw [TransactionManager.statusOf_of_getActive active]
          simp
        · exact hstrings.names t hknown
    | aborted u order txn active iterates =>
        rw [TransactionManager.abort_statusOf active] at hknown
        split at hknown
        · next heq =>
          refine heq ▸ hstrings.names u ?_
          rw [TransactionManager.statusOf_of_getActive active]
          simp
        · exact hstrings.names t hknown
    | refused => exact hstrings.names t hknown
  · cases heffects with
    | silent wal store =>
        exact hstrings.records r (by rwa [TransactionManager.logged, ← wal])
    | logged call writes clean wal storable store written =>
        obtain ⟨log, hlog⟩ := Option.ne_none_iff_exists'.mp hopened
        rw [hlog, Option.map_some] at wal
        rw [TransactionManager.logged_of_some wal] at hr
        refine (storable log r hr).elim (fun hold => ?_) id
        exact hstrings.records r
          (by rwa [TransactionManager.logged_of_some hlog])

end Step

/-! ## A crash in the middle of a step -/

/-- A map in which every record is as it was at first or as a committed transaction
has left it. -/
def CommittedImage (initial : Store) (entries : List LogEntry) (store : Store) :
    Prop :=
  ∀ key, store key = initial key ∨ ∃ e ∈ entries, e.entryType = .write ∧
    recordKey e.resource = key ∧ Records [.commit] entries e.txnId ∧
    store key = some e.afterValue

section Image

variable {initial : Store} {entries : List LogEntry}

theorem CommittedImage.mono {later : List LogEntry}
    (h : CommittedImage initial entries store) (hsub : entries ⊆ later) :
    CommittedImage initial later store := by
  intro key
  refine (h key).imp_right ?_
  rintro ⟨e, he, hwrite, hkey, ⟨c, hc, htype, hname⟩, hvalue⟩
  exact ⟨e, hsub he, hwrite, hkey, ⟨c, hsub hc, htype, hname⟩, hvalue⟩

theorem CommittedImage.install (h : CommittedImage initial entries store)
    {writes : List (RecordKey × String)} (hwritten : ∀ w ∈ writes,
      ∃ e ∈ entries, e.entryType = .write ∧ recordKey e.resource = w.1 ∧
        Records [.commit] entries e.txnId ∧ e.afterValue = w.2) :
    CommittedImage initial entries (writes.foldl
      (fun store w => writeRecord store w.1.1 w.1.2 w.2) store) := by
  induction writes generalizing store with
  | nil => exact h
  | cons w writes ih =>
      obtain ⟨hfirst, hrest⟩ := List.forall_mem_cons.mp hwritten
      refine ih (fun key => ?_) hrest
      by_cases hkey : key = w.1
      · subst hkey
        obtain ⟨e, he, hwrite, hname, hcommitted, hvalue⟩ := hfirst
        refine .inr ⟨e, he, hwrite, hname, hcommitted, ?_⟩
        rw [hvalue]
        exact Function.update_self _ _ _
      · simpa [writeRecord, hkey] using h key

private theorem committedImage_store {j : Journal} (hj : j.Inv initial) :
    CommittedImage initial j.entries j.store := by
  intro key
  refine (hj.store_written key).imp_right ?_
  rintro ⟨e, he, hwrite, hkey, hcommitted, hvalue⟩
  exact ⟨e, he, hwrite, hkey, (hj.commit e.txnId).mpr hcommitted, hvalue⟩

theorem CommittedImage.crashImage {j : Journal} (hj : j.Inv initial)
    (h : CommittedImage initial j.entries store) :
    CrashImage initial j.entries store := by
  refine hj.crashImage fun key => (h key).imp_right ?_
  rintro ⟨e, he, hwrite, hkey, hcommit, hvalue⟩
  exact ⟨e, he, hwrite, hkey, (hj.commit e.txnId).mp hcommit, hvalue⟩

private theorem subset_onRecords (call : LogFile.Call) (log : WriteAheadLog) :
    log.entries ⊆ (call.onRecords log).entries := by
  cases call <;> exact List.subset_append_left _ _

end Image

def recordCalls (timestamp : Int) (writes : List (RecordKey × String)) :
    List DiskCall :=
  writes.map fun w => .record w.1.1 (.write (str w.1.2) (str w.2) timestamp)

theorem foldl_onWal_recordCalls (timestamp : Int)
    (writes : List (RecordKey × String)) (log : WriteAheadLog) :
    (recordCalls timestamp writes).foldl DiskCall.onWal log = log := by
  rw [recordCalls, List.foldl_map]
  exact List.foldl_fixed' (fun _ => rfl) writes

theorem foldl_onStore_recordCalls (timestamp : Int)
    (writes : List (RecordKey × String)) (store : Store) :
    (recordCalls timestamp writes).foldl DiskCall.onStore store =
      writes.foldl (fun store w => writeRecord store w.1.1 w.1.2 w.2) store := by
  rw [recordCalls, List.foldl_map]
  simp only [DiskCall.onStore, RecordFile.Call.onStore, textOf_str]

private theorem prefix_recordCalls {timestamp : Int}
    {writes : List (RecordKey × String)} {done : List DiskCall}
    (h : done <+: recordCalls timestamp writes) :
    ∃ k, done = recordCalls timestamp (writes.take k) := by
  refine ⟨done.length, ?_⟩
  rw [recordCalls, List.map_take, ← List.prefix_iff_eq_take]
  exact h

section Cut

variable {initial : Store} {m m' : TransactionManager} {timestamp : Int}
  {calls done : List DiskCall} {log : WriteAheadLog}

theorem Effects.cut (heffects : Effects timestamp m m' calls)
    (h : m.Recoverable initial) (hstrings : Strings m')
    (hlog : m.wal = some log) (hdone : done <+: calls) :
    (∀ call ∈ done, call.Clean) ∧ ∃ n : TransactionManager, (n = m ∨ n = m') ∧
      (done.foldl DiskCall.onWal log).entries = n.logged ∧
      CommittedImage initial n.logged (done.foldl DiskCall.onStore m.store) := by
  have hbefore : CommittedImage initial m.logged m.store :=
    committedImage_store h.journal
  have hlogged := TransactionManager.logged_of_some hlog
  cases done with
  | nil => exact ⟨by simp, m, .inl rfl, hlogged.symm, hbefore⟩
  | cons first rest =>
      cases heffects with
      | silent => exact absurd (List.prefix_nil.mp hdone) (by simp)
      | logged call writes clean wal storable store written =>
          obtain ⟨rfl, hrest⟩ := List.cons_prefix_cons.mp hdone
          obtain ⟨k, rfl⟩ := prefix_recordCalls hrest
          rw [hlog, Option.map_some] at wal
          have hlogged' := TransactionManager.logged_of_some wal
          have hwritten := fun w (hw : w ∈ writes.take k) =>
            written w (List.mem_of_mem_take hw)
          refine ⟨?_, m', .inr rfl, ?_, ?_⟩
          · refine List.forall_mem_cons.mpr ⟨clean, ?_⟩
            rw [recordCalls, List.forall_mem_map]
            intro w hw
            obtain ⟨e, he, hwrite, hkey, -, hvalue⟩ := hwritten w hw
            have hstorable := hstrings.records e he
            exact ⟨hkey ▸ hstorable.resource hwrite, LogFile.storable_write
              (hkey ▸ hstorable.key hwrite) (hvalue ▸ hstorable.after hwrite) timestamp⟩
          · rw [List.foldl_cons, foldl_onWal_recordCalls, hlogged']
            rfl
          · rw [List.foldl_cons, foldl_onStore_recordCalls]
            refine CommittedImage.install (hbefore.mono ?_) hwritten
            rw [hlogged, hlogged']
            exact subset_onRecords call log

theorem Effects.whole (heffects : Effects timestamp m m' calls)
    (hlog : m.wal = some log) :
    m'.wal = some (calls.foldl DiskCall.onWal log) ∧
      m'.store = calls.foldl DiskCall.onStore m.store := by
  cases heffects with
  | silent wal store => exact ⟨wal.trans hlog, store⟩
  | logged call writes clean wal storable store written =>
      rw [hlog, Option.map_some] at wal
      refine ⟨wal.trans ?_, store.trans ?_⟩
      · exact congrArg some (foldl_onWal_recordCalls timestamp writes _).symm
      · exact (foldl_onStore_recordCalls timestamp writes _).symm

end Cut

/-! ## Runs on the files -/

private theorem storableAction_checks {a : TxnAction} (ha : StorableAction a) :
    TransactionManager.colonFreeCall a ∧ TransactionManager.filledCall a := by
  cases a with
  | call i t op =>
      refine ⟨decide_eq_true ha.colonFree, ?_⟩
      cases op with
      | read resource key => rfl
      | write resource key value =>
          exact decide_eq_true (ha.write resource key value rfl).2.2
  | _ => exact ⟨rfl, rfl⟩

namespace FileNode

structure Good (F : FloatText) (initial : Store) (d : FileNode) : Prop where
  recoverable : d.manager.Recoverable initial
  strings : Strings d.manager
  mirrors : ∃ wal, d.manager.wal = some wal ∧
    Mirrors F d.disk wal d.manager.store

variable {initial : Store} {d : FileNode} {m : TransactionManager}

private theorem good_new (nodeId : Nat) {dir : Directory} (hnew : dir logName = none)
    (hfiles : Represents dir initial) (hfull : ∀ key, initial key ≠ some "") :
    (new nodeId initial dir).Good F initial where
  recoverable := TransactionManager.recoverable_new nodeId hfull
  strings :=
    { calls := by simp [new, TransactionManager.new]
      names := by
        simp [new, TransactionManager.new, TransactionManager.statusOf]
      records := by
        intro r hr
        cases hr }
  mirrors := by
    have hwal : (Disk.mk dir 1).wal = ⟨none, 1⟩ := by simp only [Disk.wal, hnew]
    exact ⟨.new, rfl, ⟨[], hwal ▸ LogFile.holds_new, ⟨rfl, rfl, rfl⟩⟩, hfiles⟩

theorem Good.step (h : d.Good F initial) {a : FileAction F}
    (ha : StorableAction a.action)
    (htimely : d.manager.timelyWrite a.action)
    (hstep : d.manager.step a.action = some m) :
    ∃ calls disk, d.calls a = some calls ∧
      Effects a.timestamp d.manager m calls ∧
      calls.foldlM (DiskCall.perform a.now) d.disk = some disk ∧
      Good F initial ⟨m, disk⟩ := by
  obtain ⟨log, hlog, hmirrors⟩ := h.mirrors
  obtain ⟨calls, hcalls, heffects⟩ := effects_step a.timestamp h.recoverable
    h.strings hmirrors.files hstep
  have hopened : d.manager.wal ≠ none := by
    rw [hlog]
    simp
  have hstrings : Strings m := by
    refine h.strings.step a.timestamp (fun i t op heq => ?_) heffects hopened
      hstep
    rw [heq] at ha
    exact ha
  obtain ⟨hclean, -⟩ :=
    heffects.cut h.recoverable hstrings hlog (List.prefix_refl _)
  obtain ⟨disk, hdisk, hmirrors'⟩ := hmirrors.performAll hclean a.now
  obtain ⟨hwal, hstore⟩ := heffects.whole hlog
  obtain ⟨hfree, hfilled⟩ := storableAction_checks ha
  exact ⟨calls, disk, hcalls, heffects, hdisk,
    h.recoverable.step hfree hfilled htimely hstep, hstrings,
    _, hwal, hstore ▸ hmirrors'⟩

theorem Good.run (h : d.Good F initial) {actions : List (FileAction F)}
    (hstrings : ∀ a ∈ actions, StorableAction a.action)
    (htimely : Along TransactionManager.step (fun m a => m.timelyWrite a)
      d.manager (actions.map FileAction.action))
    (hrun : Library.run TransactionManager.step d.manager
      (actions.map FileAction.action) = some m) :
    ∃ d', Library.run FileNode.step d actions = some d' ∧ d'.manager = m ∧
      d'.Good F initial := by
  induction actions generalizing d with
  | nil =>
      cases hrun
      exact ⟨d, rfl, rfl, h⟩
  | cons a rest ih =>
      obtain ⟨ha, hrest⟩ := List.forall_mem_cons.mp hstrings
      obtain ⟨m₁, hfirst, hlater⟩ := run_cons.mp hrun
      rw [List.map_cons, along_cons_of_step hfirst] at htimely
      obtain ⟨calls, disk, hcalls, -, hdisk, hgood⟩ :=
        h.step ha htimely.1 hfirst
      obtain ⟨d', hrun', hmanager, hgood'⟩ := ih hgood hrest htimely.2 hlater
      refine ⟨d', ?_, hmanager, hgood'⟩
      rw [run_cons]
      refine ⟨⟨m₁, disk⟩, ?_, hrun'⟩
      rw [FileNode.step, hfirst, Option.bind_some, hcalls, Option.bind_some,
        hdisk, Option.map_some]

/--
A run of the manager on a directory without a log, in which the record files hold the
map `initial`.  The values are not empty, the strings can stand in the files, the
resources have no colon and files of their own, and no write goes on after the commit
of its transaction.  Then no call on a file raises, and after each step the files hold
what the manager reads.  Let the crash come after any part of the calls of the next
step.  The log that is found is the one before or after this step, the restart reads
it and recovers without raising, and the record files then hold the state of the
transactions with a COMMIT record.
-/
theorem run_filesRecover (nodeId : Nat) (initial : Store) (dir : Directory)
    (actions : List (FileAction F)) (next : FileAction F)
    (m m' : TransactionManager) (hnew : dir logName = none)
    (hfiles : Represents dir initial) (hfull : ∀ key, initial key ≠ some "")
    (hstrings : ∀ a ∈ next :: actions, StorableAction a.action)
    (htimely : Along TransactionManager.step (fun m a => m.timelyWrite a)
      (.new nodeId (some .new) initial) (actions.map FileAction.action))
    (hnextTimely : m.timelyWrite next.action)
    (hrun : Library.run TransactionManager.step (.new nodeId (some .new) initial)
      (actions.map FileAction.action) = some m)
    (hnext : m.step next.action = some m') :
    ∃ d calls, Library.run FileNode.step (new nodeId initial dir) actions =
        some d ∧ d.manager = m ∧ Represents d.disk.dir m.store ∧
      d.calls next = some calls ∧ ∀ done, done <+: calls →
        ∀ order : List (TxnId × F.Val), (∀ item ∈ order, IsField (str item.1)) →
        ∃ disk records recovered,
          done.foldlM (DiskCall.perform next.now) d.disk = some disk ∧
          (records = m.logged ∨ records = m'.logged) ∧
          (LogFile.readAll (F := F) (disk.dir logName)).map
            (List.map LogFile.EntryOf.plain) = some (records.map LogFile.plain) ∧
          (Disk.restart disk.dir).bind (fun disk =>
            LogFile.recoverFiles disk order) = some recovered ∧
          Represents recovered.disk.dir (committedState initial records) := by
  obtain ⟨hnextString, hold⟩ := List.forall_mem_cons.mp hstrings
  obtain ⟨d, hd, rfl, hgood⟩ :=
    (good_new nodeId hnew hfiles hfull).run hold htimely hrun
  obtain ⟨log, hlog, hmirrors⟩ := hgood.mirrors
  obtain ⟨calls, disk', hcalls, heffects, -, hgood'⟩ :=
    hgood.step hnextString hnextTimely hnext
  refine ⟨d, calls, hd, rfl, hmirrors.files, hcalls, fun done hdone order
    hnames => ?_⟩
  obtain ⟨hclean, n, hn, hentries, himage⟩ :=
    heffects.cut hgood.recoverable hgood'.strings hlog hdone
  obtain ⟨disk, hdisk, hcut⟩ := hmirrors.performAll hclean next.now
  obtain ⟨hrecoverable, hstringsCut⟩ : n.Recoverable initial ∧ Strings n := by
    rcases hn with rfl | rfl
    · exact ⟨hgood.recoverable, hgood.strings⟩
    · exact ⟨hgood'.recoverable, hgood'.strings⟩
  have hstorable : ∀ r ∈ (done.foldl DiskCall.onWal log).entries, Storable r := by
    rw [hentries]
    exact hstringsCut.records
  obtain ⟨recovered, hrecover, hfiles'⟩ := hcut.recover hstorable hnames
  obtain ⟨entries, hholds, hagrees⟩ := hcut.log
  refine ⟨disk, n.logged, recovered, hdisk, ?_, ?_, hrecover, ?_⟩
  · exact hn.imp (congrArg _) (congrArg _)
  · have hread : LogFile.readAll (disk.dir logName) = some entries := hholds.readAll
    rw [hread, Option.map_some, hagrees.entries, hentries]
  · rw [hentries] at hfiles'
    have hstate : (Recovery.recover (.reopen n.logged)
        (done.foldl DiskCall.onStore d.manager.store)
        (order.map Prod.fst)).store = committedState initial n.logged :=
      hrecoverable.journal.recover rfl
        (himage.crashImage hrecoverable.journal) (order.map Prod.fst)
    exact hstate ▸ hfiles'

/-- A transaction writes two records. -/
def twoWrites : List (FileAction Library.Text.wholeSeconds) :=
  [.begin none, .call 0 "node_0_txn_1" (.write "f" "a" "1"), .advance 0,
    .advance 0, .call 0 "node_0_txn_1" (.write "f" "b" "2"), .advance 0].map
      fun a => ⟨a, (5 : Nat), 5000⟩

/-- The crash comes in the loop of its commit, after the first record. -/
theorem twoWrites_filesRecover :
    ∃ d calls disk records recovered,
      Library.run FileNode.step (new 0 (fun _ => none) fun _ => none) twoWrites =
        some d ∧
      d.calls (F := Library.Text.wholeSeconds)
        ⟨.commit "node_0_txn_1" ["f"], (6 : Nat), 6000⟩ = some calls ∧
      (calls.take 2).foldlM (DiskCall.perform (F := Library.Text.wholeSeconds)
        (6 : Nat)) d.disk = some disk ∧
      (Disk.restart disk.dir).bind (fun disk => LogFile.recoverFiles
        (F := Library.Text.wholeSeconds) disk []) = some recovered ∧
      Represents recovered.disk.dir (committedState (fun _ => none) records) := by
  have hwrite (key value : String) (hkey : IsKey (str key)) (hvalue : IsValue (str value))
      (hfull : value ≠ "") : StorableOp (.write "f" key value) := by
    refine ⟨(by decide : ColonFree "f"), (by decide : IsRecordFile "f"),
      (by decide : IsField (str "f")), by simp, ?_⟩
    rintro _ _ _ ⟨⟩
    exact ⟨hkey, hvalue, hfull⟩
  have hruns : (Library.run TransactionManager.step
      (.new 0 (some .new) fun _ => none)
      (twoWrites.map FileAction.action)).isSome = true := by
    decide +kernel
  obtain ⟨m, hrun⟩ := Option.isSome_iff_exists.mp hruns
  have hcommits : ((Library.run TransactionManager.step
      (.new 0 (some .new) fun _ => none) (twoWrites.map FileAction.action)).bind
        fun m => m.step (.commit "node_0_txn_1" ["f"])).isSome = true := by
    decide +kernel
  rw [hrun, Option.bind_some] at hcommits
  obtain ⟨m', hcommit⟩ := Option.isSome_iff_exists.mp hcommits
  obtain ⟨d, calls, hd, -, -, hcalls, hcut⟩ := run_filesRecover
    (F := Library.Text.wholeSeconds) 0 (fun _ => none) (fun _ => none) twoWrites
    ⟨.commit "node_0_txn_1" ["f"], (6 : Nat), 6000⟩ m m' rfl
    RecordFile.represents_empty (by simp) (by
      simp only [twoWrites, List.map_cons, List.map_nil, List.forall_mem_cons,
        StorableAction, true_and]
      refine ⟨?_, ?_, by simp⟩
      · exact hwrite "a" "1" ⟨by decide, by decide, by decide⟩
          ⟨by decide, by decide⟩ (by decide)
      · exact hwrite "b" "2" ⟨by decide, by decide, by decide⟩
          ⟨by decide, by decide⟩ (by decide))
    (by decide +kernel) rfl hrun hcommit
  obtain ⟨disk, records, recovered, hdisk, -, -, hrecover, hfiles⟩ :=
    hcut (calls.take 2) (List.take_prefix 2 calls) [] (by simp)
  exact ⟨d, calls, disk, records, recovered, hd, hcalls, hdisk, hrecover, hfiles⟩

end FileNode

end DistributedMemory.Recovery
