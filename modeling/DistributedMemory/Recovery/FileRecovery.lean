import DistributedMemory.Recovery.LogFile
import DistributedMemory.Recovery.Recovery
import DistributedMemory.Storage.StoredRecords
import Mathlib.Data.List.Forall2

/-!
# Recovery on the files

`recover` as it runs, on the directory with the log and the record files: the entries
are parsed, their types are strings, and a write of a record takes the whole file
apart.  Where the log was written by its own calls, the record files can be read and
no record is in the file of the log, nothing raises and the files come to hold the map
that recovery on records computes.
-/

namespace DistributedMemory.Recovery.LogFile

open Library.Framing (Bytes)
open Library.Text (FloatText str encodable_str textOf_str)
open DistributedMemory.Storage DistributedMemory.Storage.RecordFile

variable {F : FloatText}

structure Disk where
  dir : Directory
  nextLsn : Int

def Disk.wal (disk : Disk) : Log := ⟨disk.dir logName, disk.nextLsn⟩

def Disk.setWal (disk : Disk) (wal : Log) : Disk :=
  ⟨Function.update disk.dir logName wal.file, wal.nextLsn⟩

/-- A call on the log; `none` where it raises. -/
def Disk.logs (disk : Disk) (call : Log → Log × Bool) : Option Disk :=
  match call disk.wal with
  | (wal, true) => some (disk.setWal wal)
  | (_, false) => none

/-- `WriteAheadLog(node_id)` on this directory. -/
def Disk.restart (dir : Directory) : Option Disk :=
  (reopen (dir logName)).map fun wal => ⟨dir, wal.nextLsn⟩

@[simp] theorem Disk.wal_setWal (disk : Disk) (wal : Log) :
    (disk.setWal wal).wal = wal := by
  simp only [Disk.wal, Disk.setWal, Function.update_self]

def lastCheckpoint (entries : List (Entry F)) : Int × Finset TxnId :=
  entries.foldl (fun last e =>
    if e.entryType = "CHECKPOINT" then (e.lsn, splitActive e.afterValue)
    else last) (0, ∅)

def relevant (entries : List (Entry F)) : List (Entry F) :=
  entries.filter fun e => e.lsn ≥ (lastCheckpoint entries).1

/-- The loop over the relevant entries, on the sets of the analysis. -/
def addEntry (a : Analysis) (e : Entry F) : Analysis :=
  if e.entryType = "BEGIN" then { a with began := insert e.txnId a.began }
  else if e.entryType ∈ ["COMMIT", "GLOBAL_COMMIT"] then
    { a with committed := insert e.txnId a.committed }
  else if e.entryType ∈ ["ABORT", "GLOBAL_ABORT"] then
    { a with aborted := insert e.txnId a.aborted }
  else a

def analyze (entries : List (Entry F)) : Analysis :=
  entries.foldl addEntry ⟨∅, ∅, ∅⟩

/-- `none` where the write raises. -/
def redoEntry (committed : Finset TxnId) (dir : Directory) (e : Entry F) :
    Option Directory :=
  if e.entryType = "WRITE" ∧ e.txnId ∈ committed then
    let (resource, key) := recordKey e.resource
    performAt dir (resource, .write (str key) (str e.afterValue) 0)
  else some dir

def undoEntry (active : Finset TxnId) (dir : Directory) (e : Entry F) :
    Option Directory :=
  if e.entryType = "WRITE" ∧ e.txnId ∈ active then
    let (resource, key) := recordKey e.resource
    if e.beforeValue ≠ "" then
      performAt dir (resource, .write (str key) (str e.beforeValue) 0)
    else performAt dir (resource, .delete (str key))
  else some dir

def Disk.logAborts (disk : Disk) (order : List (TxnId × F.Val)) : Option Disk :=
  order.foldlM (fun (disk : Disk) item =>
    disk.logs fun wal => wal.logAbort item.2 (str item.1)) disk

structure RecoveredFiles where
  disk : Disk
  report : Report

/-- `recover`; `order` is the order in which the active transactions are iterated,
with the times at which their records are logged. -/
def recoverFiles (disk : Disk) (order : List (TxnId × F.Val)) :
    Option RecoveredFiles :=
  (readAll (F := F) (disk.dir logName)).bind fun entries =>
    if entries.isEmpty then some ⟨disk, ⟨∅, ∅, ∅⟩⟩
    else
      let found := relevant entries
      let a := analyze found
      let active := ((a.began ∪ (lastCheckpoint entries).2) \ a.committed) \
        a.aborted
      (found.foldlM (redoEntry a.committed) disk.dir).bind fun dir =>
        (found.reverse.foldlM (undoEntry active) dir).bind fun dir =>
          (Disk.logAborts ⟨dir, disk.nextLsn⟩ order).map fun disk =>
            ⟨disk, ⟨a.committed, active, a.aborted⟩⟩

/-! ## An entry and its record -/

private theorem typeName_inj {type type' : EntryType} :
    typeName type = typeName type' ↔ type = type' := by
  constructor
  · cases type <;> cases type' <;> simp [typeName]
  · rintro rfl
    rfl

/-- A WRITE record is of a record file, and its values can stand in a line there. -/
structure Storable (r : LogEntry) : Prop where
  resource : r.entryType = .write → IsRecordFile (recordKey r.resource).1
  key : r.entryType = .write → IsKey (str (recordKey r.resource).2)
  before : r.entryType = .write → IsValue (str r.beforeValue)
  after : r.entryType = .write → IsValue (str r.afterValue)

structure Same (e : Entry F) (r : LogEntry) : Prop where
  lsn : e.lsn = r.lsn
  txnId : e.txnId = r.txnId
  entryType : e.entryType = typeName r.entryType
  resource : e.resource = r.resource
  beforeValue : e.beforeValue = r.beforeValue
  afterValue : e.afterValue = r.afterValue

private theorem same_of_plain {e : Entry F} {r : LogEntry} (h : e.plain = plain r) :
    Same e r := by
  simp only [EntryOf.plain, EntryOf.fields, plain, Prod.mk.injEq, List.cons.injEq,
    and_true] at h
  obtain ⟨hlsn, htxn, htype, hresource, hbefore, hafter⟩ := h
  exact ⟨hlsn, htxn, htype, hresource, hbefore, hafter⟩

theorem Agrees.same {log : WriteAheadLog} {entries : List (Entry F)}
    (h : Agrees log entries) : List.Forall₂ Same entries log.entries := by
  have heq : List.Forall₂ (fun e r => e.plain = plain r) entries log.entries := by
    rw [← List.forall₂_map_right_iff (f := plain), ← List.forall₂_map_left_iff,
      h.entries]
    exact List.forall₂_refl _
  exact heq.imp fun _ _ => same_of_plain

theorem Same.type_iff {e : Entry F} {r : LogEntry} (h : Same e r)
    (type : EntryType) : e.entryType = typeName type ↔ r.entryType = type := by
  rw [h.entryType, typeName_inj]

/-! ## The analysis -/

theorem lastCheckpoint_same {entries : List (Entry F)} {records : List LogEntry}
    (h : List.Forall₂ Same entries records) :
    (lastCheckpoint entries).1 = (Recovery.lastCheckpoint records).1 ∧
      (lastCheckpoint entries).2 = (Recovery.lastCheckpoint records).2 := by
  unfold lastCheckpoint Recovery.lastCheckpoint
  refine List.rel_foldl (P := fun (p : Int × Finset TxnId)
    (q : Nat × Finset TxnId) => p.1 = q.1 ∧ p.2 = q.2) ?_ ⟨rfl, rfl⟩ h
  intro p q hpq e r her
  by_cases htype : r.entryType = .checkpoint
  · have htext : e.entryType = "CHECKPOINT" :=
      (her.type_iff .checkpoint).mpr htype
    simp only [htext, htype, if_true]
    exact ⟨her.lsn, congrArg splitActive her.afterValue⟩
  · have htext : e.entryType ≠ "CHECKPOINT" :=
      mt (her.type_iff .checkpoint).mp htype
    simp only [htext, htype, if_false]
    exact hpq

private theorem relevant_same {entries : List (Entry F)} {records : List LogEntry}
    (h : List.Forall₂ Same entries records) :
    List.Forall₂ Same (relevant entries) (Recovery.relevant records) := by
  refine List.rel_filter (fun e r her => ?_) h
  simp only [decide_eq_true_eq, ge_iff_le, her.lsn, (lastCheckpoint_same h).1,
    Int.ofNat_le]

private theorem analyze_same {entries : List (Entry F)} {records : List LogEntry}
    (h : List.Forall₂ Same entries records) :
    analyze entries = Recovery.analyze records := by
  refine List.rel_foldl (P := Eq) ?_ rfl h
  rintro a _ rfl e r her
  simp only [addEntry, Analysis.add, her.entryType, her.txnId]
  cases r.entryType <;> simp [typeName]

/-! ## Redo and undo -/

theorem foldlM_represents {entries : List (Entry F)} {records : List LogEntry}
    {f : Directory → Entry F → Option Directory} {g : Store → LogEntry → Store}
    (hstep : ∀ dir store e r, Same e r → Storable r → Represents dir store →
      ∃ dir', f dir e = some dir' ∧ dir' logName = dir logName ∧
        Represents dir' (g store r))
    (h : List.Forall₂ Same entries records)
    (hstorable : ∀ r ∈ records, Storable r) {dir : Directory} {store : Store}
    (hfiles : Represents dir store) :
    ∃ dir', entries.foldlM f dir = some dir' ∧ dir' logName = dir logName ∧
      Represents dir' (records.foldl g store) := by
  induction h generalizing dir store with
  | nil => exact ⟨dir, rfl, rfl, hfiles⟩
  | @cons e r entries records her hrest ih =>
      obtain ⟨hr, hrecords⟩ := List.forall_mem_cons.mp hstorable
      obtain ⟨dir₁, hfirst, hlog₁, hfiles₁⟩ := hstep dir store e r her hr hfiles
      obtain ⟨dir', hlater, hlog', hfiles'⟩ := ih hrecords hfiles₁
      refine ⟨dir', ?_, hlog'.trans hlog₁, hfiles'⟩
      rw [List.foldlM_cons, hfirst]
      exact hlater

theorem performAt_represents {dir : Directory} {store : Store}
    (h : Represents dir store) {resource : Resource}
    (hresource : IsRecordFile resource) {call : RecordFile.Call}
    (hcall : call.Storable) :
    ∃ dir', performAt dir (resource, call) = some dir' ∧
      dir' logName = dir logName ∧ Represents dir' (call.onStore store resource) := by
  obtain ⟨file', hperform, hfiles'⟩ := h.performAt hresource hcall
  exact ⟨_, hperform, Function.update_of_ne hresource.notLog.symm _ _, hfiles'⟩

theorem storable_write {key value : String} (hkey : IsKey (str key))
    (hvalue : IsValue (str value)) (timestamp : Int) :
    (RecordFile.Call.write (str key) (str value) timestamp).Storable :=
  ⟨⟨hkey, hvalue⟩, encodable_str key, encodable_str value⟩

private theorem redoEntry_represents (committed : Finset TxnId) (dir : Directory)
    (store : Store) (e : Entry F) (r : LogEntry) (her : Same e r)
    (hr : Storable r) (hfiles : Represents dir store) :
    ∃ dir', redoEntry committed dir e = some dir' ∧ dir' logName = dir logName ∧
      Represents dir' (Recovery.redoEntry committed store r) := by
  unfold redoEntry Recovery.redoEntry
  rw [her.txnId, her.resource, her.afterValue]
  by_cases hwrite : r.entryType = .write ∧ r.txnId ∈ committed
  · rw [if_pos ⟨(her.type_iff .write).mpr hwrite.1, hwrite.2⟩, if_pos hwrite]
    obtain ⟨dir', hdir', hlog, hfiles'⟩ := performAt_represents hfiles
      (hr.resource hwrite.1) (storable_write (hr.key hwrite.1) (hr.after hwrite.1) 0)
    rw [Call.onStore, textOf_str, textOf_str] at hfiles'
    exact ⟨dir', hdir', hlog, hfiles'⟩
  · rw [if_neg (fun h => hwrite ⟨(her.type_iff .write).mp h.1, h.2⟩),
      if_neg hwrite]
    exact ⟨dir, rfl, rfl, hfiles⟩

private theorem undoEntry_represents (active : Finset TxnId) (dir : Directory)
    (store : Store) (e : Entry F) (r : LogEntry) (her : Same e r)
    (hr : Storable r) (hfiles : Represents dir store) :
    ∃ dir', undoEntry active dir e = some dir' ∧ dir' logName = dir logName ∧
      Represents dir' (Recovery.undoEntry active store r) := by
  unfold undoEntry Recovery.undoEntry
  rw [her.txnId, her.resource, her.beforeValue]
  by_cases hwrite : r.entryType = .write ∧ r.txnId ∈ active
  · rw [if_pos ⟨(her.type_iff .write).mpr hwrite.1, hwrite.2⟩, if_pos hwrite]
    dsimp only
    by_cases hbefore : r.beforeValue = ""
    · rw [if_neg (not_not.mpr hbefore), if_neg (not_not.mpr hbefore)]
      have hdelete : (Call.delete (str (recordKey r.resource).2)).Storable := trivial
      obtain ⟨dir', hdir', hlog, hfiles'⟩ := performAt_represents hfiles
        (hr.resource hwrite.1) hdelete
      rw [Call.onStore, if_pos (encodable_str _), textOf_str] at hfiles'
      exact ⟨dir', hdir', hlog, hfiles'⟩
    · rw [if_pos hbefore, if_pos hbefore]
      obtain ⟨dir', hdir', hlog, hfiles'⟩ := performAt_represents hfiles
        (hr.resource hwrite.1)
        (storable_write (hr.key hwrite.1) (hr.before hwrite.1) 0)
      rw [Call.onStore, textOf_str, textOf_str] at hfiles'
      exact ⟨dir', hdir', hlog, hfiles'⟩
  · rw [if_neg (fun h => hwrite ⟨(her.type_iff .write).mp h.1, h.2⟩),
      if_neg hwrite]
    exact ⟨dir, rfl, rfl, hfiles⟩

/-! ## The whole recovery -/

theorem logs_holds {disk : Disk} {log : WriteAheadLog} {entries : List (Entry F)}
    {store : Store} (hholds : Holds disk.wal entries) (hagrees : Agrees log entries)
    (hfiles : Represents disk.dir store) {call : Call} (hcall : call.Clean)
    (now : F.Val) :
    ∃ disk' entries', (disk.logs fun wal => call.perform wal now) = some disk' ∧
      Holds (F := F) disk'.wal entries' ∧ Agrees (call.onRecords log) entries' ∧
      Represents disk'.dir store := by
  obtain ⟨wal', hperform, hholds'⟩ := hholds.perform hcall now
  refine ⟨disk.setWal wal', _, ?_, ?_, hagrees.call hcall now, hfiles.setLog _⟩
  · rw [Disk.logs, hperform]
  · rw [Disk.wal_setWal]
    exact hholds'

private theorem logAborts_holds {disk : Disk} {log : WriteAheadLog}
    {entries : List (Entry F)} {store : Store} (hholds : Holds disk.wal entries)
    (hagrees : Agrees log entries) (hfiles : Represents disk.dir store)
    {order : List (TxnId × F.Val)} (hnames : ∀ item ∈ order, IsField (str item.1)) :
    ∃ disk' entries', disk.logAborts order = some disk' ∧
      Holds (F := F) disk'.wal entries' ∧
      Agrees ((order.map Prod.fst).foldl WriteAheadLog.logAbort log) entries' ∧
      Represents disk'.dir store := by
  induction order generalizing disk log entries with
  | nil => exact ⟨disk, entries, rfl, hholds, hagrees, hfiles⟩
  | cons item order ih =>
      obtain ⟨hitem, horder⟩ := List.forall_mem_cons.mp hnames
      have hclean : (Call.abort (str item.1)).Clean := by
        intro s hs
        obtain rfl := List.mem_singleton.mp hs
        exact hitem
      obtain ⟨disk₁, entries₁, hfirst, hholds₁, hagrees₁, hfiles₁⟩ :=
        logs_holds hholds hagrees hfiles hclean item.2
      rw [Call.onRecords, textOf_str] at hagrees₁
      obtain ⟨disk', entries', hlater, hrest⟩ := ih hholds₁ hagrees₁ hfiles₁ horder
      refine ⟨disk', entries', ?_, hrest⟩
      have hcall : (disk.logs fun wal => wal.logAbort item.2 (str item.1)) =
          some disk₁ := hfirst
      rw [Disk.logAborts, List.foldlM_cons, hcall]
      exact hlater

theorem recoverFiles_refines {disk : Disk} {log : WriteAheadLog}
    {entries : List (Entry F)} {store : Store}
    (hholds : Holds disk.wal entries) (hagrees : Agrees log entries)
    (hfiles : Represents disk.dir store)
    (hstorable : ∀ r ∈ log.entries, Storable r)
    {order : List (TxnId × F.Val)} (hnames : ∀ item ∈ order, IsField (str item.1)) :
    ∃ recovered, recoverFiles disk order = some recovered ∧
      Represents recovered.disk.dir
        (recover log store (order.map Prod.fst)).store ∧
      recovered.report = (recover log store (order.map Prod.fst)).report ∧
      ∃ entries' : List (Entry F), Holds recovered.disk.wal entries' ∧
        Agrees (recover log store (order.map Prod.fst)).wal entries' := by
  have hsame := hagrees.same
  have hread : readAll (disk.dir logName) = some entries := hholds.readAll
  unfold recoverFiles recover
  rw [hread, Option.bind_some]
  by_cases hempty : log.entries = []
  · have hnone : entries = [] := by
      rw [hempty] at hsame
      exact List.forall₂_nil_right_iff.mp hsame
    rw [if_pos hempty, if_pos (by rw [hnone]; rfl)]
    exact ⟨_, rfl, hfiles, rfl, entries, hholds, hagrees⟩
  · have hsome : ¬ entries.isEmpty = true := by
      rw [List.isEmpty_iff]
      rintro rfl
      exact hempty (List.forall₂_nil_left_iff.mp hsame)
    rw [if_neg hempty, if_neg hsome]
    have hrelevant := relevant_same hsame
    have hkept : ∀ r ∈ Recovery.relevant log.entries, Storable r :=
      fun r hr => hstorable r (List.mem_of_mem_filter hr)
    have hanalyze := analyze_same hrelevant
    obtain ⟨dir₁, hredo, hlog₁, hfiles₁⟩ := foldlM_represents
      (redoEntry_represents (Recovery.analyze
        (Recovery.relevant log.entries)).committed) hrelevant hkept hfiles
    obtain ⟨dir₂, hundo, hlog₂, hfiles₂⟩ := foldlM_represents
      (undoEntry_represents (activeIn log.entries)) (List.rel_reverse hrelevant)
      (fun r hr => hkept r (List.mem_reverse.mp hr)) hfiles₁
    have hholds₂ : Holds (Disk.mk dir₂ disk.nextLsn).wal entries := by
      have hwal : (Disk.mk dir₂ disk.nextLsn).wal = disk.wal := by
        simp only [Disk.wal, hlog₂, hlog₁]
      rw [hwal]
      exact hholds
    obtain ⟨disk', entries', haborts, hholds', hagrees', hfiles'⟩ :=
      logAborts_holds hholds₂ hagrees hfiles₂ hnames
    dsimp only
    rw [hanalyze, (lastCheckpoint_same hsame).2, hredo, Option.bind_some]
    change ∃ recovered, Option.bind (List.foldlM
      (undoEntry (activeIn log.entries)) dir₁ (relevant entries).reverse) _ =
        some recovered ∧ _
    rw [hundo, Option.bind_some, haborts]
    exact ⟨_, rfl, hfiles', rfl, entries', hholds', hagrees'⟩

end DistributedMemory.Recovery.LogFile
