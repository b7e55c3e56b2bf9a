import DistributedMemory.Storage.RecordFile
import Mathlib.Data.List.Induction

/-!
# What a record file gives back

Calls of `write_record` and `delete_record` on one file that did not exist before.
What is read for a key is its last write exactly where UTF-8 encodes every key and
every value written and a line can hold them; a bar in a value stops the reading of
the whole file.  A file that is written only so is one part of the map from
resources and keys to values.
-/

namespace DistributedMemory.Storage.RecordFile

open Library.Framing (Bytes)
open Library.KeyedLines
open Library.Text

inductive Call where
  | write (key value : Str) (timestamp : Int)
  | delete (key : Str)
  deriving DecidableEq, Repr

/-- The file after a call, and whether the call returns. -/
def perform (file : Option Bytes) : Call → Option Bytes × Bool
  | .write key value timestamp => writeRecord file key value timestamp
  | .delete key => ((deleteRecord file key).1, (deleteRecord file key).2.isSome)

/-- The file after these calls, from no file; a call that raises does not end it. -/
def run (calls : List Call) : Option Bytes :=
  calls.foldl (fun file call => (perform file call).1) none

/-- The last write for the key before and in this call. -/
def Call.after (key : Str) (last : Option Record) : Call → Option Record
  | .write k value timestamp => if k = key then some ⟨k, value, timestamp⟩ else last
  | .delete k => if k = key then none else last

/-- The last write for the key with no delete for it behind. -/
def lastWrite (key : Str) (calls : List Call) : Option Record :=
  calls.foldl (Call.after key) none

/-- A write of what a line can hold and UTF-8 encodes. -/
def Call.Storable : Call → Prop
  | .write key value _ =>
      (IsKey key ∧ IsValue value) ∧ Encodable key ∧ Encodable value
  | .delete _ => True

def Gives (file : Option Bytes) (record? : Str → Option Record) : Prop :=
  ∃ records, readAll file = some records ∧
    ∀ key, lookup Record.key records key = record? key

theorem Gives.readRecord {file : Option Bytes} {record? : Str → Option Record}
    (h : Gives file record?) (key : Str) :
    readRecord file key = some (record? key) := by
  obtain ⟨records, hread, hlookup⟩ := h
  rw [RecordFile.readRecord, hread, Option.map_some, hlookup]

theorem Gives.perform {file : Option Bytes} {record? : Str → Option Record}
    (h : Gives file record?) {call : Call} (hcall : call.Storable) :
    ∃ file', perform file call = (file', true) ∧
      Gives file' fun key => call.after key (record? key) := by
  obtain ⟨records, hread, hlookup⟩ := h
  cases call with
  | write key value timestamp =>
      obtain ⟨file', hwrite, hread', -⟩ :=
        readAll_writeRecord hread hcall.1.1 hcall.1.2 hcall.2 timestamp
      refine ⟨some file', hwrite, _, hread', fun key' => ?_⟩
      rw [lookup_put, hlookup]
      rfl
  | delete key =>
      obtain ⟨file', existed, hdelete, -, hread', -⟩ := readAll_deleteRecord hread key
      refine ⟨file', by rw [RecordFile.perform, hdelete]; rfl, _, hread',
        fun key' => ?_⟩
      rw [lookup_erase, hlookup]
      rfl

theorem run_concat (calls : List Call) (call : Call) :
    run (calls ++ [call]) = (perform (run calls) call).1 := by
  rw [run, List.foldl_append, ← run]
  rfl

theorem lastWrite_concat (key : Str) (calls : List Call) (call : Call) :
    lastWrite key (calls ++ [call]) = call.after key (lastWrite key calls) := by
  rw [lastWrite, List.foldl_append]
  rfl

private theorem gives_lastWrite {calls : List Call} (h : ∀ call ∈ calls, call.Storable) :
    Gives (run calls) fun key => lastWrite key calls := by
  induction calls using List.reverseRecOn with
  | nil => exact ⟨[], rfl, fun _ => rfl⟩
  | append_singleton calls call ih =>
      obtain ⟨hcalls, hcall⟩ := List.forall_mem_append.mp h
      obtain ⟨file', hperform, hgives⟩ :=
        (ih hcalls).perform (hcall call (by simp))
      rw [run_concat, hperform]
      simpa only [lastWrite_concat] using hgives

private theorem storable_of_readRecord {file : Option Bytes} {key value : Str}
    {timestamp : Int} (h : readRecord file key = some (some ⟨key, value, timestamp⟩)) :
    (Call.write key value timestamp).Storable := by
  obtain ⟨records, hread, hlookup⟩ := Option.map_eq_some_iff.mp h
  exact isKey_isValue_of_mem hread (List.mem_of_find?_eq_some hlookup)

/-- After every call every key reads as its last write exactly when UTF-8 encodes all
that is written and a line can hold it. -/
theorem reads_last_write_iff (calls : List Call) :
    (∀ done, done <+: calls → ∀ key,
      readRecord (run done) key = some (lastWrite key done)) ↔
    ∀ call ∈ calls, call.Storable := by
  constructor
  · intro h call hcall
    obtain ⟨before, later, rfl⟩ := List.append_of_mem hcall
    cases call with
    | write key value timestamp =>
        have hpre : before ++ [Call.write key value timestamp] <+:
            before ++ Call.write key value timestamp :: later :=
          ⟨later, by simp⟩
        have hread := h _ hpre key
        rw [lastWrite_concat, Call.after, if_pos rfl] at hread
        exact storable_of_readRecord hread
    | delete key => trivial
  · intro h done hdone key
    exact (gives_lastWrite fun call hcall => h call (hdone.subset hcall)).readRecord key

/-- A bar in the value of one key stops the reading of another's record. -/
theorem bar_destroys_other :
    readRecord (run [.write (str "saldo") (str "10") 1,
        .write (str "nota") (str "a|b") 2]) (str "saldo") ≠
      some (lastWrite (str "saldo") [.write (str "saldo") (str "10") 1,
        .write (str "nota") (str "a|b") 2]) := by
  have hfirst : writeRecord none (str "saldo") (str "10") 1 =
      (some (utf8 "saldo|10|1\n".toList), true) := by decide
  have hsecond : writeRecord (some (utf8 "saldo|10|1\n".toList)) (str "nota")
      (str "a|b") 2 = (some (utf8 "saldo|10|1\nnota|a|b|2\n".toList), true) := by
    rw [writeRecord, storedLines, decodeText_utf8]
    decide
  have hread : readAll (some (utf8 "saldo|10|1\nnota|a|b|2\n".toList)) = none := by
    rw [readAll, decodeText_utf8]
    decide
  have hrun : run [.write (str "saldo") (str "10") 1,
      .write (str "nota") (str "a|b") 2] =
        some (utf8 "saldo|10|1\nnota|a|b|2\n".toList) := by
    simp only [run, List.foldl_cons, List.foldl_nil, perform, hfirst, hsecond]
  rw [hrun, readRecord, hread]
  exact (Option.some_ne_none _).symm

/-! ## The files of a node as one map -/

/-- The files of a node by their names. -/
abbrev Directory := String → Option Bytes

/-- The name of a file in the directory itself.  Any other name leads out of it, or no
file can have it. -/
def isFileName (name : String) : Bool :=
  name ≠ "" && name ≠ "." && name ≠ ".." && '/' ∉ name.toList &&
    '\x00' ∉ name.toList && name.utf8ByteSize ≤ 255

/-- The log of the node, next to the files of its records. -/
def logName : String := "wal.log"

structure IsRecordFile (resource : Resource) : Prop where
  name : isFileName resource = true
  notLog : resource ≠ logName

instance (resource : Resource) : Decidable (IsRecordFile resource) :=
  decidable_of_iff (isFileName resource = true ∧ resource ≠ logName)
    ⟨fun h => ⟨h.1, h.2⟩, fun h => ⟨h.name, h.notLog⟩⟩

/-- A read of a record; `none` where it raises. -/
def readAt (dir : Directory) (resource : Resource) (key : Str) :
    Option (Option Record) :=
  if isFileName resource then readRecord (dir resource) key else none

/-- A call on the file of one resource; `none` where it raises. -/
def performAt (dir : Directory) (call : Resource × Call) : Option Directory :=
  if isFileName call.1 then
    match perform (dir call.1) call.2 with
    | (file, true) => some (Function.update dir call.1 file)
    | (_, false) => none
  else none

/-- The record files hold this map. -/
def Represents (dir : Directory) (store : Store) : Prop :=
  ∀ resource, IsRecordFile resource → ∃ record?, Gives (dir resource) record? ∧
    ∀ key, (record? (str key)).map Record.value =
      (Storage.readRecord store resource key).map str

variable {dir : Directory} {store : Store} {resource : Resource}

theorem Represents.readAt (h : Represents dir store) (hresource : IsRecordFile resource)
    (key : String) : (readAt dir resource (str key)).map (Option.map Record.value) =
      some ((Storage.readRecord store resource key).map str) := by
  obtain ⟨record?, hgives, hvalue⟩ := h resource hresource
  rw [RecordFile.readAt, if_pos hresource.name, hgives.readRecord, Option.map_some,
    hvalue]

def Call.onStore (store : Store) (resource : Resource) : Call → Store
  | .write key value _ =>
      Storage.writeRecord store resource (textOf key) (textOf value)
  | .delete key =>
      if Encodable key then Storage.deleteRecord store resource (textOf key) else store

private theorem Call.map_value_after {call : Call} (hcall : call.Storable) (store : Store)
    (resource : Resource) {last : Option Record} {key : String}
    (h : last.map Record.value = (Storage.readRecord store resource key).map str) :
    (call.after (str key) last).map Record.value =
      (Storage.readRecord (call.onStore store resource) resource key).map str := by
  cases call with
  | write k value timestamp =>
      obtain ⟨k, rfl⟩ := hcall.2.1.exists_str
      obtain ⟨value, rfl⟩ := hcall.2.2.exists_str
      by_cases heq : k = key
      · subst heq
        simp [Call.after, Call.onStore, Storage.writeRecord, Storage.readRecord]
      · rw [Call.after, if_neg (mt str_inj.mp heq), h]
        simp [Call.onStore, Storage.writeRecord, Storage.readRecord, Ne.symm heq]
  | delete k =>
      by_cases hk : Encodable k
      · obtain ⟨k, rfl⟩ := hk.exists_str
        by_cases heq : k = key
        · subst heq
          simp [Call.after, Call.onStore, Storage.deleteRecord, Storage.readRecord, hk]
        · rw [Call.after, if_neg (mt str_inj.mp heq), h]
          simp [Call.onStore, Storage.deleteRecord, Storage.readRecord, Ne.symm heq, hk]
      · have hne : k ≠ str key := by
          rintro rfl
          exact hk (encodable_str key)
        rw [Call.after, if_neg hne, h, Call.onStore, if_neg hk]

private theorem Call.readRecord_onStore_of_ne (call : Call) (store : Store)
    {resource resource' : Resource} (h : resource' ≠ resource) (key : String) :
    Storage.readRecord (call.onStore store resource) resource' key =
      Storage.readRecord store resource' key := by
  cases call with
  | write k value timestamp =>
      simp [Call.onStore, Storage.writeRecord, Storage.readRecord, h]
  | delete k =>
      rw [Call.onStore]
      split
      · simp [Storage.deleteRecord, Storage.readRecord, h]
      · rfl

theorem Represents.performAt (h : Represents dir store)
    (hresource : IsRecordFile resource) {call : Call} (hcall : call.Storable) :
    ∃ file', performAt dir (resource, call) =
        some (Function.update dir resource file') ∧
      Represents (Function.update dir resource file')
        (call.onStore store resource) := by
  obtain ⟨record?, hgives, hvalue⟩ := h resource hresource
  obtain ⟨file', hperform, hgives'⟩ := hgives.perform hcall
  refine ⟨file', ?_, fun resource' hresource' => ?_⟩
  · rw [RecordFile.performAt, if_pos hresource.name, hperform]
  · by_cases heq : resource' = resource
    · subst heq
      rw [Function.update_self]
      exact ⟨_, hgives', fun key => Call.map_value_after hcall store resource'
        (hvalue key)⟩
    · obtain ⟨other?, hother, hothers⟩ := h resource' hresource'
      rw [Function.update_of_ne heq]
      refine ⟨other?, hother, fun key => ?_⟩
      rw [hothers, call.readRecord_onStore_of_ne store heq]

theorem Represents.setLog (h : Represents dir store) (file : Option Bytes) :
    Represents (Function.update dir logName file) store := by
  intro resource hresource
  rw [Function.update_of_ne hresource.notLog]
  exact h resource hresource

theorem represents_empty : Represents (fun _ => none) fun _ => none :=
  fun _ _ => ⟨fun _ => none, ⟨[], rfl, fun _ => rfl⟩, fun _ => rfl⟩

/-- Storable calls on any record files of a node, from none: no call raises and the
files hold what the calls make of the map. -/
theorem represents_run {calls : List (Resource × Call)}
    (h : ∀ call ∈ calls, IsRecordFile call.1 ∧ call.2.Storable) :
    ∃ dir, calls.foldlM performAt (fun _ => none) = some dir ∧
      Represents dir
        (calls.foldl (fun store call => call.2.onStore store call.1)
          fun _ => none) := by
  induction calls using List.reverseRecOn with
  | nil => exact ⟨fun _ => none, rfl, represents_empty⟩
  | append_singleton calls call ih =>
      obtain ⟨hcalls, hcall⟩ := List.forall_mem_append.mp h
      obtain ⟨dir, hrun, hrepresents⟩ := ih hcalls
      obtain ⟨hresource, hstorable⟩ := hcall call (by simp)
      obtain ⟨file', hperform, hrepresents'⟩ :=
        hrepresents.performAt hresource hstorable
      refine ⟨Function.update dir call.1 file', ?_, ?_⟩
      · rw [List.foldlM_append, hrun]
        simp [hperform]
      · rw [List.foldl_append]
        exact hrepresents'

end DistributedMemory.Storage.RecordFile
