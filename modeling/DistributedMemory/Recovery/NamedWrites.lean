import DistributedMemory.Recovery.CrashRecovery
import DistributedMemory.Storage.OneTransaction

/-!
# Pairs that go through one name

The buffer and the log name a pair by one string, and `commit` and `recover` take
the string apart at its first colon.  Whatever the pairs are, both end at the
records that the names are taken apart into; these are the pairs that were written
exactly when no resource has a colon.
-/

namespace DistributedMemory.Recovery

open DistributedMemory.Library DistributedMemory.Storage TransactionManager

/-- The name of a pair in the buffer and in the log. -/
def flatName (pair : RecordKey) : String := bufKey pair.1 pair.2

/-- The pair that its name is taken apart into. -/
def target (pair : RecordKey) : RecordKey := splitKey (flatName pair)

theorem contains_colon_flatName (pair : RecordKey) :
    ':' ∈ (flatName pair).toList :=
  contains_colon_bufKey pair.1 pair.2

theorem recordKey_flatName (pair : RecordKey) :
    recordKey (flatName pair) = target pair := by
  rw [recordKey, if_pos (contains_colon_flatName pair), target]

theorem target_of_colonFree {pair : RecordKey} (h : ColonFree pair.1) :
    target pair = pair :=
  splitKey_bufKey h pair.2

theorem target_eq_iff (pair other : RecordKey) :
    target pair = other ↔ ColonFree other.1 ∧ flatName pair = flatName other := by
  constructor
  · rintro rfl
    exact ⟨colonFree_splitKey _,
      (bufKey_splitKey (contains_colon_flatName pair)).symm⟩
  · rintro ⟨hfree, hname⟩
    rw [target, hname]
    exact target_of_colonFree hfree

/-! ## The calls of the transaction -/

/-- The writes among the calls of a transaction. -/
def writesOf (ops : List Op) : List (RecordKey × String) :=
  ops.filterMap fun
    | .write resource key value => some ((resource, key), value)
    | .read _ _ => none

/-- `write_buffer` after these writes. -/
def bufferOf (writes : List (RecordKey × String)) (buffer : Dict String String) :
    Dict String String :=
  writes.foldl (fun buffer w => buffer.set (flatName w.1) w.2) buffer

/-- The log after these writes of `t`, with the before-images of the store. -/
def logOf (σ : Store) (t : TxnId) (writes : List (RecordKey × String))
    (wal : WriteAheadLog) : WriteAheadLog :=
  writes.foldl (fun wal w =>
    wal.logWrite t (flatName w.1) ((σ w.1).getD "") w.2) wal

/-- The manager after `begin` over a store and a new log. -/
def opened (nodeId : Nat) (σ : Store) : TransactionManager :=
  ((TransactionManager.new nodeId (some .new) σ).begin none).1

/-- The calls of transaction 1 in thread `i`, one after another. -/
def calls (nodeId : Nat) (i : ThreadId) (σ : Store) (ops : List Op) :
    Option TransactionManager :=
  run (fun m op => m.perform i (txnName nodeId 1) op) (opened nodeId σ) ops

/-- What the calls should come to: the last value of each written pair at that
pair. -/
def intended (σ : Store) (writes : List (RecordKey × String)) : Store :=
  assign (writes.map fun w => (w.1, some w.2)) σ

def reached (σ : Store) (writes : List (RecordKey × String)) : Store :=
  assign (writes.map fun w => (target w.1, some w.2)) σ

theorem writesOf_append (first second : List Op) :
    writesOf (first ++ second) = writesOf first ++ writesOf second :=
  List.filterMap_append

structure Called (nodeId : Nat) (i : ThreadId) (σ : Store)
    (writes : List (RecordKey × String)) (m : TransactionManager)
    (txn : Transaction) : Prop where
  alone : m.Alone i (txnName nodeId 1) txn
  buffer : txn.writeBuffer = bufferOf writes .empty
  store : m.store = σ
  wal : m.wal = some (logOf σ (txnName nodeId 1) writes
    (WriteAheadLog.new.logBegin (txnName nodeId 1)))

section Calls

variable {nodeId : Nat} {i : ThreadId} {σ : Store}
  {writes : List (RecordKey × String)} {m : TransactionManager}
  {txn : Transaction}

theorem called_opened (nodeId : Nat) (i : ThreadId) (σ : Store) :
    Called nodeId i σ [] (opened nodeId σ) (.new (txnName nodeId 1) none) := by
  refine ⟨⟨getActive_eq_some.mpr ⟨?_, rfl⟩, rfl, LockManager.onlyHolder_new _⟩,
    rfl, rfl, rfl⟩
  exact (transactions_putTxn _ _ _ _).trans (if_pos rfl)

theorem Called.write (h : Called nodeId i σ writes m txn)
    (resource key value : String) :
    ∃ m' txn', m.perform i (txnName nodeId 1) (.write resource key value) =
        some m' ∧
      Called nodeId i σ (writes ++ [((resource, key), value)]) m' txn' := by
  obtain ⟨m', txn', hperform, halone, -, hbuffer, hstore, hwal⟩ :=
    perform_write h.alone resource key value
  refine ⟨m', txn', hperform, halone, ?_, hstore.trans h.store, ?_⟩
  · rw [hbuffer, h.buffer, bufferOf, bufferOf, List.foldl_append]
    rfl
  · rw [hwal, h.wal, h.store, logOf, logOf, List.foldl_append]
    rfl

theorem Called.read (h : Called nodeId i σ writes m txn) (resource key : String) :
    ∃ m' txn', m.perform i (txnName nodeId 1) (.read resource key) = some m' ∧
      Called nodeId i σ writes m' txn' ∧
      m'.threads i = .returned (.value
        (((bufferOf writes .empty).get? (flatName (resource, key))).or
          (σ (resource, key)))) := by
  obtain ⟨m', txn', hperform, halone, hreply, hbuffer, hstore, hwal⟩ :=
    perform_read h.alone resource key
  refine ⟨m', txn', hperform, ⟨halone, hbuffer.trans h.buffer,
    hstore.trans h.store, hwal.trans h.wal⟩, ?_⟩
  rw [hreply, h.buffer, h.store]
  rfl

theorem exists_called (nodeId : Nat) (i : ThreadId) (σ : Store) (ops : List Op) :
    ∃ m txn, calls nodeId i σ ops = some m ∧
      Called nodeId i σ (writesOf ops) m txn := by
  induction ops using List.reverseRecOn with
  | nil => exact ⟨_, _, rfl, called_opened nodeId i σ⟩
  | append_singleton ops op ih =>
      obtain ⟨m, txn, hrun, hcalled⟩ := ih
      rw [writesOf_append]
      cases op with
      | write resource key value =>
          obtain ⟨m', txn', hperform, hcalled'⟩ := hcalled.write resource key value
          exact ⟨m', txn', run_append.mpr ⟨m, hrun, run_cons.mpr
            ⟨m', hperform, rfl⟩⟩, hcalled'⟩
      | read resource key =>
          obtain ⟨m', txn', hperform, hcalled', -⟩ := hcalled.read resource key
          have hnone : writesOf [.read resource key] = [] := rfl
          rw [hnone, List.append_nil]
          exact ⟨m', txn', run_append.mpr ⟨m, hrun, run_cons.mpr
            ⟨m', hperform, rfl⟩⟩, hcalled'⟩

end Calls

/-! ## Where the names lead -/

section Names

variable {σ : Store} {writes : List (RecordKey × String)} {t : TxnId}

theorem get?_bufferOf (writes : List (RecordKey × String)) (name : String) :
    (bufferOf writes .empty).get? name =
      latest (writes.map fun w => (flatName w.1, w.2)) name := by
  induction writes using List.reverseRecOn with
  | nil => rfl
  | append_singleton writes w ih =>
      rw [bufferOf, List.foldl_append, List.map_append, latest_append, ← ih]
      simp only [List.foldl_cons, List.foldl_nil, List.map_cons, List.map_nil,
        latest_singleton, Dict.get?_set, eq_comm (a := name)]
      split <;> rfl

theorem latest_target (writes : List (RecordKey × String)) (pair : RecordKey) :
    latest (writes.map fun w => (target w.1, some w.2)) pair =
      if ColonFree pair.1 then
        ((bufferOf writes .empty).get? (flatName pair)).map some
      else none := by
  rw [get?_bufferOf]
  induction writes with
  | nil => simp
  | cons w writes ih =>
      simp only [List.map_cons, latest, ih, target_eq_iff]
      by_cases hfree : ColonFree pair.1
      · by_cases hname : flatName w.1 = flatName pair
        · cases latest (writes.map fun w => (flatName w.1, w.2)) (flatName pair) <;>
            simp [hfree, hname]
        · simp [hfree, hname]
      · simp [hfree]

theorem mem_bufferOf {item : String × String}
    (h : item ∈ (bufferOf writes .empty).items) :
    ∃ w ∈ writes, item.1 = flatName w.1 := by
  have hget := Dict.mem_items_iff.mp h
  rw [get?_bufferOf] at hget
  obtain ⟨w, hw, heq⟩ := List.mem_map.mp (mem_of_latest hget)
  exact ⟨w, hw, (congrArg Prod.fst heq).symm⟩

private theorem latest_items (pair : RecordKey) :
    latest ((bufferOf writes .empty).items.map fun item =>
      (splitKey item.1, some item.2)) pair =
      if ColonFree pair.1 then
        ((bufferOf writes .empty).get? (flatName pair)).map some
      else none := by
  have hkey : ∀ item ∈ (bufferOf writes .empty).items, splitKey item.1 = pair →
      ColonFree pair.1 ∧ item.1 = flatName pair := by
    intro item hitem heq
    obtain ⟨w, -, hname⟩ := mem_bufferOf hitem
    rw [hname] at heq ⊢
    exact (target_eq_iff w.1 pair).mp heq
  split
  · next hfree =>
    cases hget : (bufferOf writes .empty).get? (flatName pair) with
    | none =>
        rw [Option.map_none, latest_eq_none_iff]
        intro u hu heq
        obtain ⟨item, hitem, rfl⟩ := List.mem_map.mp hu
        have hitem' := Dict.mem_items_iff.mp hitem
        rw [(hkey item hitem heq).2, hget] at hitem'
        cases hitem'
    | some v =>
        rw [Option.map_some]
        refine latest_of_agree (fun x hx => ?_) ⟨some v, ?_⟩
        · obtain ⟨item, hitem, heq⟩ := List.mem_map.mp hx
          obtain ⟨hsplit, rfl⟩ := Prod.mk.inj heq
          have hitem' := Dict.mem_items_iff.mp hitem
          rw [(hkey item hitem hsplit).2, hget] at hitem'
          exact hitem'.symm
        · refine List.mem_map.mpr ⟨(flatName pair, v), Dict.mem_items_iff.mpr hget, ?_⟩
          exact Prod.ext (target_of_colonFree hfree) rfl
  · next hfree =>
    rw [latest_eq_none_iff]
    intro u hu heq
    obtain ⟨item, hitem, rfl⟩ := List.mem_map.mp hu
    exact hfree (hkey item hitem heq).1

private theorem install_bufferOf (σ : Store) (writes : List (RecordKey × String)) :
    install σ (bufferOf writes .empty).items = reached σ writes := by
  rw [install_eq, reached]
  funext pair
  rw [assign_apply, assign_apply, latest_items, latest_target]

private theorem reached_of_colonFree (h : ∀ w ∈ writes, ColonFree w.1.1) (σ : Store) :
    reached σ writes = intended σ writes := by
  rw [reached, intended]
  congr 1
  refine List.map_congr_left fun w hw => ?_
  rw [target_of_colonFree (h w hw)]

/-! ## The log -/

private theorem mem_logOf {wal : WriteAheadLog} {e : LogEntry}
    (h : e ∈ (logOf σ t writes wal).entries) :
    e ∈ wal.entries ∨ e.entryType = .write ∧ e.txnId = t := by
  induction writes generalizing wal with
  | nil => exact .inl h
  | cons w writes ih =>
      rcases ih h with h | h
      · rcases List.mem_append.mp h with h | h
        · exact .inl h
        · rw [List.mem_singleton.mp h]
          exact .inr ⟨rfl, rfl⟩
      · exact .inr h

private theorem writesBy_logOf (p : TxnId → Bool) (hp : p t = true) (wal : WriteAheadLog) :
    writesBy p (logOf σ t writes wal).entries = writesBy p wal.entries ++
      writes.map fun w => (target w.1, some w.2) := by
  induction writes generalizing wal with
  | nil => simp [logOf]
  | cons w writes ih =>
      have hstep : logOf σ t (w :: writes) wal = logOf σ t writes
          (wal.logWrite t (flatName w.1) ((σ w.1).getD "") w.2) := rfl
      rw [hstep, ih, WriteAheadLog.logWrite, WriteAheadLog.logEntry, writesBy_concat,
        if_pos ⟨rfl, hp⟩, recordKey_flatName, List.append_assoc]
      rfl

private theorem mem_opened {e : LogEntry} (h : e ∈ (logOf σ t writes
    (WriteAheadLog.new.logBegin t)).entries) :
    e.entryType ≠ .checkpoint ∧ (e.entryType = .write → e.txnId = t) := by
  rcases mem_logOf h with h | ⟨htype, htxn⟩
  · obtain rfl := List.mem_singleton.mp h
    exact ⟨by simp, by simp⟩
  · rw [htype]
    exact ⟨by simp, fun _ => htxn⟩

private theorem recover_committed (σ store : Store) (t : TxnId)
    (writes : List (RecordKey × String)) (iteration : List TxnId) :
    (recover ((logOf σ t writes (WriteAheadLog.new.logBegin t)).logCommit t)
      store iteration).store =
      assign (writes.map fun w => (target w.1, some w.2)) store := by
  have hmem : ∀ e ∈ ((logOf σ t writes
      (WriteAheadLog.new.logBegin t)).logCommit t).entries,
      e.entryType ≠ .checkpoint ∧ (e.entryType = .write → e.txnId = t) := by
    intro e he
    rcases List.mem_append.mp he with he | he
    · exact mem_opened he
    · obtain rfl := List.mem_singleton.mp he
      exact ⟨by simp, by simp⟩
  have hnone := fun e he => (hmem e he).1
  have hcommitted : t ∈ committedIn ((logOf σ t writes
      (WriteAheadLog.new.logBegin t)).logCommit t).entries := by
    rw [mem_committedIn hnone]
    exact ⟨_, List.mem_append_right _ (List.mem_singleton_self _), by simp, rfl⟩
  have hactive : t ∉ activeIn ((logOf σ t writes
      (WriteAheadLog.new.logBegin t)).logCommit t).entries := by
    simp [activeIn, hcommitted]
  have hredo : writesBy (fun u => u ∈ committedIn ((logOf σ t writes
      (WriteAheadLog.new.logBegin t)).logCommit t).entries)
      ((logOf σ t writes (WriteAheadLog.new.logBegin t)).logCommit t).entries =
        writes.map fun w => (target w.1, some w.2) := by
    refine (writesBy_congr (q := fun _ => true) fun e he hwrite => ?_).trans ?_
    · rw [(hmem e he).2 hwrite]
      exact decide_eq_true hcommitted
    · rw [WriteAheadLog.logCommit, WriteAheadLog.logEntry,
        writesBy_concat_other _ _ (.inl (by simp)), writesBy_logOf _ rfl]
      rfl
  have hundo : undoneWrites (fun u => u ∈ activeIn ((logOf σ t writes
      (WriteAheadLog.new.logBegin t)).logCommit t).entries)
      ((logOf σ t writes (WriteAheadLog.new.logBegin t)).logCommit t).entries =
        [] := by
    rw [List.eq_nil_iff_forall_not_mem]
    rintro ⟨key, v⟩ hundone
    obtain ⟨e, he, hwrite, hp, -⟩ := mem_undoneWrites.mp hundone
    rw [(hmem e he).2 hwrite] at hp
    exact hactive (of_decide_eq_true hp)
  rw [recover_store hnone, hredo, hundo]
  rfl

end Names

/-! ## Commit and recovery of the transaction -/

section Reach

variable {nodeId : Nat} {i : ThreadId} {σ : Store}
  {writes : List (RecordKey × String)} {m : TransactionManager}
  {txn : Transaction}

theorem Called.commit (h : Called nodeId i σ writes m txn) (order : List Resource) :
    (m.commit (txnName nodeId 1) order).2 = true ∧
      (m.commit (txnName nodeId 1) order).1.store = reached σ writes := by
  rw [TransactionManager.commit, h.alone.active]
  refine ⟨rfl, ?_⟩
  simp only [passLocks_store, putTxn_store, log_store, h.store, h.buffer,
    install_bufferOf]

theorem Called.redo (h : Called nodeId i σ writes m txn) (order : List Resource)
    (n : Nat) (iteration : List TxnId) :
    ∃ wal, (m.commit (txnName nodeId 1) order).1.wal = some wal ∧
      (recover wal (install m.store (txn.writeBuffer.items.take n))
        iteration).store = reached σ writes := by
  refine ⟨(logOf σ (txnName nodeId 1) writes
    (WriteAheadLog.new.logBegin (txnName nodeId 1))).logCommit (txnName nodeId 1),
    ?_, ?_⟩
  · rw [TransactionManager.commit, h.alone.active]
    simp only [passLocks_wal, putTxn_wal, log_wal, h.wal, Option.map_some]
  · rw [recover_committed, h.store, h.buffer, install_eq]
    apply assign_assign
    intro u hu
    obtain ⟨item, hitem, rfl⟩ := List.mem_map.mp hu
    obtain ⟨w, hw, hname⟩ := mem_bufferOf (List.mem_of_mem_take hitem)
    refine ⟨_, List.mem_map_of_mem hw, ?_⟩
    rw [hname]
    rfl

private theorem reply_eq_intended {pair : RecordKey}
    (hone : ∀ w ∈ writes, flatName w.1 = flatName pair → w.1 = pair) (σ : Store) :
    ((bufferOf writes .empty).get? (flatName pair)).or (σ pair) =
      intended σ writes pair := by
  have hlatest : latest (writes.map fun w => (w.1, some w.2)) pair =
      (latest (writes.map fun w => (flatName w.1, w.2)) (flatName pair)).map
        some := by
    induction writes with
    | nil => rfl
    | cons w writes ih =>
        obtain ⟨hw, hwrites⟩ := List.forall_mem_cons.mp hone
        have hiff : w.1 = pair ↔ flatName w.1 = flatName pair :=
          ⟨congrArg flatName, hw⟩
        simp only [List.map_cons, latest, ih hwrites, hiff]
        by_cases hname : flatName w.1 = flatName pair
        · cases latest (writes.map fun w => (flatName w.1, w.2)) (flatName pair) <;>
            simp [hname]
        · simp [hname]
  rw [intended, assign_apply, hlatest, get?_bufferOf]
  cases latest (writes.map fun w => (flatName w.1, w.2)) (flatName pair) <;> rfl

/-- Reads return what was written to their own pair, and commit and redo install
what was written at its own pair and nothing else. -/
structure ReachTheirRecord (nodeId : Nat) (i : ThreadId) (ops : List Op)
    (σ : Store) : Prop where
  reads : ∀ earlier resource key, earlier ++ [.read resource key] <+: ops →
    ∃ m, calls nodeId i σ (earlier ++ [.read resource key]) = some m ∧
      m.threads i =
        .returned (.value (intended σ (writesOf earlier) (resource, key)))
  commit : ∃ m, calls nodeId i σ ops = some m ∧ ∀ order,
    (m.commit (txnName nodeId 1) order).2 = true ∧
      (m.commit (txnName nodeId 1) order).1.store = intended σ (writesOf ops)
  redo : ∃ m txn, calls nodeId i σ ops = some m ∧
    m.getTransaction (txnName nodeId 1) = some txn ∧ ∀ order n iteration,
      ∃ wal, (m.commit (txnName nodeId 1) order).1.wal = some wal ∧
        (recover wal (install m.store (txn.writeBuffer.items.take n))
          iteration).store = intended σ (writesOf ops)

private theorem Called.of_calls {ops : List Op} (h : calls nodeId i σ ops = some m) :
    ∃ txn, Called nodeId i σ (writesOf ops) m txn := by
  obtain ⟨m', txn, hcalls, hcalled⟩ := exists_called nodeId i σ ops
  rw [h] at hcalls
  obtain rfl := Option.some.inj hcalls
  exact ⟨txn, hcalled⟩

theorem exists_reply (nodeId : Nat) (i : ThreadId) (σ : Store)
    (earlier : List Op) (resource key : String) :
    ∃ m, calls nodeId i σ (earlier ++ [.read resource key]) = some m ∧
      m.threads i = .returned (.value
        (((bufferOf (writesOf earlier) .empty).get?
          (flatName (resource, key))).or (σ (resource, key)))) := by
  obtain ⟨m, txn, hcalls, hcalled⟩ := exists_called nodeId i σ earlier
  obtain ⟨m', txn', hperform, -, hreply⟩ := hcalled.read resource key
  exact ⟨m', run_append.mpr ⟨m, hcalls, run_cons.mpr ⟨m', hperform, rfl⟩⟩, hreply⟩

theorem ReachTheirRecord.colonFree {ops : List Op}
    (h : ReachTheirRecord nodeId i ops fun _ => none) {w : RecordKey × String}
    (hw : w ∈ writesOf ops) : ColonFree w.1.1 := by
  obtain ⟨m, hcalls, hcommit⟩ := h.commit
  obtain ⟨txn, hcalled⟩ := Called.of_calls hcalls
  have hsame := congrFun ((hcalled.commit []).2.symm.trans (hcommit []).2) w.1
  by_contra hcolon
  obtain ⟨v, hv⟩ := exists_latest
    (List.mem_map_of_mem (f := fun w => (w.1, some w.2)) hw)
  have hvalue := mem_of_latest hv
  rw [intended, assign_apply, hv, reached, assign_apply, latest_target,
    if_neg hcolon] at hsame
  obtain ⟨w', -, heq⟩ := List.mem_map.mp hvalue
  simp [← (Prod.mk.inj heq).2] at hsame

private theorem ReachTheirRecord.one_name {ops : List Op}
    (h : ReachTheirRecord nodeId i ops fun _ => none) {earlier : List Op}
    {resource key : String} (hearlier : earlier ++ [.read resource key] <+: ops)
    {w : RecordKey × String} (hw : w ∈ writesOf earlier)
    (hname : flatName w.1 = flatName (resource, key)) :
    w.1 = (resource, key) := by
  have hwrites : ∀ w ∈ writesOf earlier, w ∈ writesOf ops := by
    intro w hw
    obtain ⟨later, rfl⟩ := hearlier
    rw [writesOf_append, writesOf_append]
    exact List.mem_append_left _ (List.mem_append_left _ hw)
  obtain ⟨m, hcalls, hreply⟩ := h.reads earlier resource key hearlier
  obtain ⟨m', hcalls', hreply'⟩ :=
    exists_reply nodeId i (fun _ => none) earlier resource key
  rw [hcalls] at hcalls'
  obtain rfl := Option.some.inj hcalls'
  rw [hreply] at hreply'
  simp only [Thread.returned.injEq, Reply.value.injEq, Option.or_none,
    get?_bufferOf, intended, assign_apply] at hreply'
  obtain ⟨v, hv⟩ := exists_latest
    (List.mem_map_of_mem (f := fun w => (flatName w.1, w.2)) hw)
  simp only [hname] at hv
  -- the value that came back was written, so the pair that was read was written
  cases hlatest : latest ((writesOf earlier).map fun w => (w.1, some w.2))
      (resource, key) with
  | none =>
      rw [hlatest, hv] at hreply'
      cases hreply'
  | some x =>
      obtain ⟨w', hw', heq⟩ := List.mem_map.mp (mem_of_latest hlatest)
      have hpair : w'.1 = (resource, key) := congrArg Prod.fst heq
      have hfree := h.colonFree (hwrites w' hw')
      rw [hpair] at hfree
      exact bufKey_injective (h.colonFree (hwrites w hw)) hfree hname

/--
For every store the values reach their own records, if and only if no written
resource has a colon and no read pair has the name of another pair that was
written before.
-/
theorem reachTheirRecord_iff (nodeId : Nat) (i : ThreadId) (ops : List Op) :
    (∀ σ, ReachTheirRecord nodeId i ops σ) ↔
      (∀ w ∈ writesOf ops, ColonFree w.1.1) ∧
        ∀ earlier resource key, earlier ++ [.read resource key] <+: ops →
          ∀ w ∈ writesOf earlier, flatName w.1 = flatName (resource, key) →
            w.1 = (resource, key) := by
  constructor
  · intro h
    exact ⟨fun w hw => (h _).colonFree hw,
      fun earlier resource key hearlier w hw hname =>
        (h _).one_name hearlier hw hname⟩
  · intro ⟨hfree, hone⟩ σ
    obtain ⟨m, txn, hcalls, hcalled⟩ := exists_called nodeId i σ ops
    have hreached := reached_of_colonFree hfree σ
    refine ⟨fun earlier resource key hearlier => ?_, ⟨m, hcalls, fun order => ?_⟩,
      ⟨m, txn, hcalls, (getActive_eq_some.mp hcalled.alone.active).1,
        fun order n iteration => ?_⟩⟩
    · obtain ⟨m', hcalls', hreply⟩ := exists_reply nodeId i σ earlier resource key
      refine ⟨m', hcalls', ?_⟩
      rw [hreply, reply_eq_intended (hone earlier resource key hearlier)]
    · rw [← hreached]
      exact hcalled.commit order
    · rw [← hreached]
      exact hcalled.redo order n iteration

/-- A value for the key `c` of `a:b` goes to the key `b:c` of `a`. -/
theorem colonResource_misplaced :
    ∃ m, calls 0 0 (fun _ => none) [.write "a:b" "c" "v"] = some m ∧
      intended (fun _ => none) (writesOf [.write "a:b" "c" "v"]) ("a:b", "c") =
        some "v" ∧
      (m.commit (txnName 0 1) []).1.store ("a:b", "c") = none ∧
      (m.commit (txnName 0 1) []).1.store ("a", "b:c") = some "v" := by
  have hend : (calls 0 0 (fun _ => none) [.write "a:b" "c" "v"]).map (fun m =>
      decide ((m.commit (txnName 0 1) []).1.store ("a:b", "c") = none ∧
        (m.commit (txnName 0 1) []).1.store ("a", "b:c") = some "v")) =
      some true := by
    decide +kernel
  obtain ⟨m, hm, hdec⟩ := Option.map_eq_some_iff.mp hend
  exact ⟨m, hm, by decide, of_decide_eq_true hdec⟩

end Reach

end DistributedMemory.Recovery
