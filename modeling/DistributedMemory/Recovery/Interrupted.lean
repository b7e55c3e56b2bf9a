import DistributedMemory.Recovery.CrashRecovery

/-!
# Recovery that is itself cut short

`recover` changes the record files and the log by one call after another: it
writes the committed values again, takes the unfinished ones back, and logs the
ABORT records.  A crash may come after any of these calls.  The next recovery
reads the log and the files as they were left, with some of the unfinished
transactions marked and others not.
-/

namespace DistributedMemory.Recovery

open DistributedMemory.Library DistributedMemory.Storage

/-- A call of `recover` on the record files or on the log. -/
inductive RecoveryCall where
  | writeRecord (resource : Resource) (key value : String)
  | deleteRecord (resource : Resource) (key : String)
  | logAbort (t : TxnId)
  deriving DecidableEq, Repr

def redoCall (e : LogEntry) : RecoveryCall :=
  let (resource, key) := recordKey e.resource
  .writeRecord resource key e.afterValue

def undoCall (e : LogEntry) : RecoveryCall :=
  let (resource, key) := recordKey e.resource
  if e.beforeValue ≠ "" then .writeRecord resource key e.beforeValue
  else .deleteRecord resource key

/-- The calls of `recover` in their order; `order` is the order in which the
active transactions are iterated. -/
def recoveryCalls (entries : List LogEntry) (order : List TxnId) :
    List RecoveryCall :=
  ((relevant entries).filter fun e =>
      e.entryType = .write && e.txnId ∈ committedIn entries).map redoCall ++
    ((relevant entries).reverse.filter fun e =>
      e.entryType = .write && e.txnId ∈ activeIn entries).map undoCall ++
    order.map .logAbort

def RecoveryCall.run (s : WriteAheadLog × Store) :
    RecoveryCall → WriteAheadLog × Store
  | .writeRecord resource key value =>
      (s.1, Storage.writeRecord s.2 resource key value)
  | .deleteRecord resource key => (s.1, Storage.deleteRecord s.2 resource key)
  | .logAbort t => (s.1.logAbort t, s.2)

def interrupted (wal : WriteAheadLog) (store : Store) (order : List TxnId)
    (n : Nat) : WriteAheadLog × Store :=
  ((recoveryCalls wal.entries order).take n).foldl RecoveryCall.run (wal, store)

def ListsActive (entries : List LogEntry) (order : List TxnId) : Prop :=
  order.Nodup ∧ order.toFinset = activeIn entries

instance (entries : List LogEntry) (order : List TxnId) :
    Decidable (ListsActive entries order) :=
  inferInstanceAs (Decidable (_ ∧ _))

/-- `recover` on the start of a node that finds this log and these files. -/
def resume (left : WriteAheadLog × Store) (order : List TxnId) : Recovered :=
  recover (.reopen left.1.entries) left.2 order

/-- Recovering once more finds no active transaction and changes nothing. -/
def Quiet (r : Recovered) : Prop :=
  ∀ order, ListsActive r.wal.entries order →
    (resume (r.wal, r.store) order).report.active = ∅ ∧
      (resume (r.wal, r.store) order).wal.entries = r.wal.entries ∧
      (resume (r.wal, r.store) order).store = r.store

/-- After an interruption, recovery restores what it would have restored at
once, and a further one finds nothing to do. -/
structure Restartable (entries : List LogEntry) (image : Store) : Prop where
  restored : ∀ order n order', ListsActive entries order →
    ListsActive (interrupted (.reopen entries) image order n).1.entries order' →
    (resume (interrupted (.reopen entries) image order n) order').store =
      (recover (.reopen entries) image order).store
  quiet : ∀ order n order', ListsActive entries order →
    ListsActive (interrupted (.reopen entries) image order n).1.entries order' →
    Quiet (resume (interrupted (.reopen entries) image order n) order')

/-! ## What the calls do -/

def updates (entries : List LogEntry) : List (RecordKey × Option String) :=
  writesBy (fun t => t ∈ committedIn entries) (relevant entries) ++
    undoneWrites (fun t => t ∈ activeIn entries) (relevant entries)

theorem foldl_fileCalls (call : LogEntry → RecoveryCall)
    (update : LogEntry → RecordKey × Option String)
    (hcall : ∀ e s, RecoveryCall.run s (call e) =
      (s.1, Function.update s.2 (update e).1 (update e).2))
    (es : List LogEntry) (s : WriteAheadLog × Store) :
    (es.map call).foldl RecoveryCall.run s =
      (s.1, assign (es.map update) s.2) := by
  induction es generalizing s with
  | nil => rfl
  | cons e rest ih =>
      rw [List.map_cons, List.foldl_cons, hcall, ih]
      rfl

private theorem foldl_redoCall (es : List LogEntry) (s : WriteAheadLog × Store) :
    (es.map redoCall).foldl RecoveryCall.run s =
      (s.1, assign (es.map fun e => (recordKey e.resource, some e.afterValue))
        s.2) :=
  foldl_fileCalls redoCall _ (fun _ _ => rfl) es s

private theorem foldl_undoCall (es : List LogEntry) (s : WriteAheadLog × Store) :
    (es.map undoCall).foldl RecoveryCall.run s =
      (s.1, assign (es.map fun e => (recordKey e.resource,
        if e.beforeValue ≠ "" then some e.beforeValue else none)) s.2) := by
  refine foldl_fileCalls undoCall _ (fun e s => ?_) es s
  rw [undoCall]
  dsimp only
  split <;> rfl

private theorem foldl_logAbort (order : List TxnId) (s : WriteAheadLog × Store) :
    (order.map RecoveryCall.logAbort).foldl RecoveryCall.run s =
      (order.foldl WriteAheadLog.logAbort s.1, s.2) := by
  induction order generalizing s with
  | nil => rfl
  | cons t rest ih =>
      rw [List.map_cons, List.foldl_cons, ih]
      rfl

theorem interrupted_eq (wal : WriteAheadLog) (store : Store)
    (order : List TxnId) (n : Nat) : interrupted wal store order n =
      ((order.take (n - (updates wal.entries).length)).foldl
          WriteAheadLog.logAbort wal,
        assign ((updates wal.entries).take n) store) := by
  have hlength : (updates wal.entries).length =
      ((relevant wal.entries).filter fun e => e.entryType = .write &&
        e.txnId ∈ committedIn wal.entries).length +
      ((relevant wal.entries).reverse.filter fun e => e.entryType = .write &&
        e.txnId ∈ activeIn wal.entries).length := by
    simp only [updates, writesBy, undoneWrites, List.length_append,
      List.length_map]
  rw [interrupted, recoveryCalls, List.take_append, List.take_append,
    List.foldl_append, List.foldl_append, ← List.map_take, ← List.map_take,
    ← List.map_take, foldl_redoCall, foldl_undoCall, foldl_logAbort,
    List.length_append, List.length_map, List.length_map, ← hlength]
  congr 1
  rw [updates, List.take_append, assign, assign, assign, List.foldl_append,
    writesBy, undoneWrites, ← List.map_take, ← List.map_take, List.length_map]

theorem interrupted_leaves (entries : List LogEntry) (image : Store)
    (order : List TxnId) (n : Nat) : ∃ aborts,
      (interrupted (.reopen entries) image order n).1.entries =
        entries ++ aborts ∧ (∀ e ∈ aborts, e.entryType = .abort) ∧
      (interrupted (.reopen entries) image order n).2 =
        assign ((updates entries).take n) image ∧
      (aborts = [] ∨ (updates entries).length ≤ n) := by
  rw [interrupted_eq]
  by_cases hn : n ≤ (updates entries).length
  · refine ⟨[], ?_, by simp, rfl, .inl rfl⟩
    rw [WriteAheadLog.reopen_entries, Nat.sub_eq_zero_of_le hn, List.take_zero,
      List.append_nil]
    rfl
  · obtain ⟨aborts, hlog, haborts⟩ := logAbort_entries (.reopen entries)
      (order.take (n - (updates entries).length))
    exact ⟨aborts, hlog, haborts, rfl, .inr (by omega)⟩

theorem recover_updates (wal : WriteAheadLog) (store : Store)
    (order : List TxnId) :
    (recover wal store order).store = assign (updates wal.entries) store := by
  rw [recover_store_relevant, updates, assign, assign, assign,
    List.foldl_append]

/-- All the calls together are `recover`. -/
theorem interrupted_all (wal : WriteAheadLog) (store : Store)
    {order : List TxnId} (hentries : wal.entries ≠ []) {n : Nat}
    (hn : (recoveryCalls wal.entries order).length ≤ n) :
    interrupted wal store order n =
      ((recover wal store order).wal, (recover wal store order).store) := by
  have hlength : (recoveryCalls wal.entries order).length =
      (updates wal.entries).length + order.length := by
    simp only [recoveryCalls, updates, writesBy, undoneWrites,
      List.length_append, List.length_map]
  rw [interrupted_eq, recover_updates, List.take_of_length_le (by omega),
    List.take_of_length_le (by omega), recover, if_neg hentries]

private theorem recover_active (wal : WriteAheadLog) (store : Store)
    (order : List TxnId) :
    (recover wal store order).report.active = activeIn wal.entries := by
  unfold recover
  split
  · next hempty =>
    rw [hempty]
    rfl
  · rfl

private theorem recover_idle (wal : WriteAheadLog) (store : Store) :
    (recover wal store []).wal = wal := by
  unfold recover
  split <;> rfl

/-! ## A log with ABORT records added -/

section Aborts

variable {entries aborts : List LogEntry}
  (hentries : ∀ e ∈ entries, e.entryType ≠ .checkpoint)
  (haborts : ∀ e ∈ aborts, e.entryType = .abort)

include hentries haborts

theorem no_checkpoint_aborts :
    ∀ e ∈ entries ++ aborts, e.entryType ≠ .checkpoint := by
  intro e he
  rcases List.mem_append.mp he with he | he
  · exact hentries e he
  · simp [haborts e he]

theorem mem_activeIn_aborts (t : TxnId) : t ∈ activeIn (entries ++ aborts) ↔
    t ∈ activeIn entries ∧ ¬ Records [.abort] aborts t := by
  have hother : ∀ types : List EntryType, EntryType.abort ∉ types →
      ¬ Records types aborts t := by
    rintro types hnot ⟨e, he, htype, -⟩
    exact hnot (haborts e he ▸ htype)
  have habort : Records [.abort, .globalAbort] aborts t ↔
      Records [.abort] aborts t := by
    constructor <;>
    · rintro ⟨e, he, -, ht⟩
      exact ⟨e, he, by simp [haborts e he], ht⟩
  rw [mem_activeIn (no_checkpoint_aborts hentries haborts),
    mem_activeIn hentries]
  simp only [records_append, habort, hother [.begin] (by simp),
    hother [.commit, .globalCommit] (by simp), or_false, not_or,
    and_assoc]

theorem updates_aborts : updates (entries ++ aborts) =
    writesBy (fun t => t ∈ committedIn entries) entries ++
      undoneWrites (fun t => t ∈ activeIn (entries ++ aborts)) entries := by
  have hsame : ∀ ts : Finset TxnId, ((entries ++ aborts).filter fun e =>
      e.entryType = .write && e.txnId ∈ ts) =
      entries.filter fun e => e.entryType = .write && e.txnId ∈ ts := by
    intro ts
    have hnone : (aborts.filter fun e =>
        e.entryType = .write && e.txnId ∈ ts) = [] := by
      rw [List.filter_eq_nil_iff]
      intro e he
      simp [haborts e he]
    rw [List.filter_append, hnone, List.append_nil]
  have hcommitted : committedIn (entries ++ aborts) = committedIn entries := by
    ext t
    rw [mem_committedIn (no_checkpoint_aborts hentries haborts),
      mem_committedIn hentries, records_append, or_iff_left]
    rintro ⟨e, he, htype, -⟩
    simp [haborts e he] at htype
  rw [updates, relevant_of_none (no_checkpoint_aborts hentries haborts),
    hcommitted]
  simp only [writesBy, undoneWrites, List.filter_reverse, hsame]

end Aborts

private theorem activeIn_recover {wal : WriteAheadLog}
    (hentries : ∀ e ∈ wal.entries, e.entryType ≠ .checkpoint) (store : Store)
    {order : List TxnId} (horder : ListsActive wal.entries order) :
    activeIn (recover wal store order).wal.entries = ∅ := by
  rw [Finset.eq_empty_iff_forall_notMem]
  intro t ht
  obtain ⟨aborts, hlog, haborts⟩ := recover_entries wal store order
  rw [hlog, mem_activeIn_aborts hentries haborts] at ht
  obtain ⟨hactive, hnot⟩ := ht
  have hne : wal.entries ≠ [] := by
    intro hempty
    rw [hempty] at hactive
    exact absurd hactive (Finset.notMem_empty t)
  have hrecord : Records [.abort] (recover wal store order).wal.entries t := by
    rw [recover, if_neg hne]
    refine (records_logAborts _ wal order t).mpr (.inr ⟨by simp, ?_⟩)
    rwa [← List.mem_toFinset, horder.2]
  rw [hlog, records_append] at hrecord
  have hold := ((mem_activeIn hentries t).mp hactive).2.2
  refine hrecord.elim (fun ⟨e, he, htype, ht⟩ => hold ⟨e, he, ?_, ht⟩) hnot
  simp [List.mem_singleton.mp htype]

/-! ## Recovery again -/

namespace Journal

section Again

variable {initial : Store} {j : Journal} (h : j.Inv initial)

include h

theorem Inv.latest_updates {aborts : List LogEntry}
    (haborts : ∀ e ∈ aborts, e.entryType = .abort) {key : RecordKey}
    {v : Option String} (hv : latest (updates (j.entries ++ aborts)) key = some v) :
    v = j.store key := by
  rw [updates_aborts h.no_checkpoint haborts, latest_append,
    Option.or_eq_some_iff] at hv
  rcases hv with hv | ⟨-, hv⟩
  · refine h.undone_store (fun _ => id) (fun t ht => ?_) (mem_of_latest hv)
    have ht := (mem_activeIn_aborts h.no_checkpoint haborts t).mp
      (of_decide_eq_true ht)
    exact (h.mem_activeIn t).mp ht.1
  · have hredo : writesBy (fun t => t ∈ committedIn j.entries) j.entries =
        writesBy j.committed j.entries :=
      writesBy_congr fun e _ _ => by
        rw [Journal.committed, decide_eq_decide, h.mem_committedIn]
    rw [hredo] at hv
    rw [h.state, assign_apply, hv, Option.getD_some]

theorem Inv.recover_again {first second : List LogEntry}
    (hfirst : ∀ e ∈ first, e.entryType = .abort)
    (hsecond : ∀ e ∈ second, e.entryType = .abort)
    (hfewer : activeIn (j.entries ++ second) ⊆ activeIn (j.entries ++ first))
    (store : Store) :
    assign (updates (j.entries ++ second))
        (assign (updates (j.entries ++ first)) store) =
      assign (updates (j.entries ++ first)) store := by
  funext key
  rw [assign_apply (updates (j.entries ++ second))]
  cases hv : latest (updates (j.entries ++ second)) key with
  | none => rfl
  | some v =>
      -- The first recovery has updated the record, too.
      have hmem := mem_of_latest hv
      obtain ⟨w, hw⟩ : ∃ w, (key, w) ∈ updates (j.entries ++ first) := by
        rw [updates_aborts h.no_checkpoint hsecond, List.mem_append] at hmem
        rw [updates_aborts h.no_checkpoint hfirst]
        rcases hmem with hmem | hmem
        · exact ⟨v, List.mem_append_left _ hmem⟩
        · obtain ⟨e, he, hwrite, hactive, hkey, rfl⟩ :=
            mem_undoneWrites.mp hmem
          refine ⟨_, List.mem_append_right _ (mem_undoneWrites.mpr
            ⟨e, he, hwrite, decide_eq_true (hfewer ?_), hkey, rfl⟩)⟩
          exact of_decide_eq_true hactive
      obtain ⟨x, hx⟩ := exists_latest hw
      rw [assign_apply, hx, Option.getD_some, Option.getD_some,
        h.latest_updates hfirst hx, h.latest_updates hsecond hv]

theorem Inv.restartable (image : Store) : Restartable j.entries image where
  restored order n order' horder horder' := by
    obtain ⟨aborts, hlog, haborts, hstore, hn⟩ :=
      interrupted_leaves j.entries image order n
    simp only [resume, recover_updates, WriteAheadLog.reopen_entries, hlog,
      hstore]
    rcases hn with rfl | hn
    · -- The interruption came before the first ABORT record.
      rw [List.append_nil]
      exact assign_take _ n image
    · rw [List.take_of_length_le hn]
      have hnone : ∀ e ∈ ([] : List LogEntry), e.entryType = .abort := by simp
      have hagain := h.recover_again hnone haborts
      simp only [List.append_nil] at hagain
      refine hagain (fun t ht => ?_) image
      exact ((mem_activeIn_aborts h.no_checkpoint haborts t).mp ht).1
  quiet order n order' horder horder' order'' horder'' := by
    obtain ⟨first, hlog, hfirst, -, -⟩ :=
      interrupted_leaves j.entries image order n
    generalize interrupted (.reopen j.entries) image order n = left at *
    have hentries : ∀ e ∈ (WriteAheadLog.reopen left.1.entries).entries,
        e.entryType ≠ .checkpoint := by
      rw [WriteAheadLog.reopen_entries, hlog]
      exact no_checkpoint_aborts h.no_checkpoint hfirst
    have hnone := activeIn_recover hentries left.2 horder'
    obtain ⟨second, hlog', hsecond⟩ :=
      recover_entries (.reopen left.1.entries) left.2 order'
    rw [WriteAheadLog.reopen_entries] at hlog'
    have hempty : order'' = [] := by
      rw [← List.toFinset_eq_empty_iff, horder''.2]
      exact hnone
    subst hempty
    refine ⟨(recover_active _ _ _).trans hnone, ?_, ?_⟩
    · rw [resume, recover_idle]
      rfl
    · have hboth : ∀ e ∈ first ++ second, e.entryType = .abort := fun e he =>
        (List.mem_append.mp he).elim (hfirst e) (hsecond e)
      have hagain := h.recover_again hfirst hboth
      rw [← List.append_assoc, ← hlog] at hagain
      simp only [resume, recover_updates, WriteAheadLog.reopen_entries, hlog']
      exact hagain (fun t ht => absurd ht (by simp [← hlog', hnone])) left.2

end Again

end Journal

end DistributedMemory.Recovery

namespace DistributedMemory.Storage.TransactionManager

open DistributedMemory.Library DistributedMemory.Recovery

/--
Whatever record the crash comes after, whatever the record files hold, and
wherever recovery is itself cut short: the next one restores what an undisturbed
one would have, and after it there is nothing left to recover.
-/
theorem run_restartable (nodeId : Nat) (initial : Store)
    (actions : List TxnAction) (m : TransactionManager) (cut : List LogEntry)
    (image : Store) (hfull : ∀ key, initial key ≠ some "")
    (hfree : ∀ a ∈ actions, colonFreeCall a)
    (hfilled : ∀ a ∈ actions, filledCall a)
    (htimely : Along step (fun m a => m.timelyWrite a)
      (new nodeId (some .new) initial) actions)
    (hrun : run step (new nodeId (some .new) initial) actions = some m)
    (hcut : cut <+: m.logged) : Restartable cut image := by
  obtain ⟨j, hj, rfl⟩ :=
    (run_recoverable hfull hfree hfilled htimely hrun).cuts cut hcut
  exact hj.restartable image

/-- One transaction is cut off after a write that waited for the commit of
another one. -/
theorem unfinishedWriter_restartable :
    ∃ m, run step (new 0 (some .new) fun _ => none) unfinishedWriter = some m ∧
      activeIn m.logged = {"node_0_txn_2"} ∧
      Restartable m.logged (writeRecord (fun _ => none) "f" "a" "2") := by
  have hlog : (run step (new 0 (some .new) fun _ => none) unfinishedWriter).map
      (fun m => decide (activeIn m.logged = {"node_0_txn_2"})) = some true := by
    decide +kernel
  obtain ⟨m, hrun, hactive⟩ := Option.map_eq_some_iff.mp hlog
  exact ⟨m, hrun, of_decide_eq_true hactive, run_restartable 0 _
    unfinishedWriter m m.logged _ (by simp) (by decide) (by decide)
    (by decide +kernel) hrun (List.prefix_refl _)⟩

/-- A write has its lock when its transaction commits, and is logged after
another transaction, unfinished at the crash, has written the record. -/
def committedWhileWriting : List TxnAction :=
  [.begin none, .begin none,
    .call 1 "node_0_txn_2" (.write "f" "a" "2"), .advance 1,
    .commit "node_0_txn_2" ["f"],
    .call 0 "node_0_txn_1" (.write "f" "a" "1"), .advance 0, .advance 0,
    .advance 1]

theorem committedWhileWriting_not_restartable :
    (∀ a ∈ committedWhileWriting, colonFreeCall a ∧ filledCall a) ∧
      ∃ m, run step (new 0 (some .new) fun _ => none) committedWhileWriting =
          some m ∧ ¬ Restartable m.logged fun _ => none := by
  -- The third call of `recover` logs the ABORT of the first transaction.
  have hend : (run step (new 0 (some .new) fun _ => none)
      committedWhileWriting).map (fun m => decide (
        ListsActive m.logged ["node_0_txn_1"] ∧
        ListsActive (interrupted (.reopen m.logged) (fun _ => none)
          ["node_0_txn_1"] 3).1.entries [] ∧
        (resume (interrupted (.reopen m.logged) (fun _ => none)
          ["node_0_txn_1"] 3) []).store ("f", "a") = some "2" ∧
        (recover (.reopen m.logged) (fun _ => none) ["node_0_txn_1"]).store
          ("f", "a") = none)) = some true := by
    decide +kernel
  obtain ⟨m, hrun, hm⟩ := Option.map_eq_some_iff.mp hend
  obtain ⟨horder, hleft, hresumed, hrecovered⟩ := of_decide_eq_true hm
  refine ⟨by decide, m, hrun, fun h => ?_⟩
  rw [h.restored _ _ _ horder hleft, hrecovered] at hresumed
  cases hresumed

end DistributedMemory.Storage.TransactionManager
