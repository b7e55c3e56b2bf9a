import DistributedMemory.Recovery.NamedWrites

/-!
# Undoing one unfinished transaction

The before-image of an absent record and of an empty one is the empty string, and
`recover` takes it for an absent one.  A transaction makes its calls, some of its
logged writes reach their records in between or later, and then the node crashes.
What undo leaves at a record is the before-image of the first write under its
name.
-/

namespace DistributedMemory.Recovery

open DistributedMemory.Library DistributedMemory.Storage TransactionManager

/-- A call of the transaction, or a logged write that reaches the disk. -/
inductive UnfinishedStep where
  | call (op : Op)
  | install (n : Nat)
  deriving DecidableEq, Repr

def UnfinishedStep.op? : UnfinishedStep → Option Op
  | .call op => some op
  | .install _ => none

def loggedWrites (m : TransactionManager) : List LogEntry :=
  (entriesOf m.wal).filter fun e => e.entryType = .write

/-- A write reaches the disk as in the loop of `commit`. -/
def unfinishedStep (nodeId : Nat) (i : ThreadId) (m : TransactionManager) :
    UnfinishedStep → Option TransactionManager
  | .call op => m.perform i (txnName nodeId 1) op
  | .install n => ((loggedWrites m)[n]?).map fun e =>
      { m with
        store := TransactionManager.install m.store [(e.resource, e.afterValue)] }

/-- The writes of the transaction. -/
def writesIn (steps : List UnfinishedStep) : List (RecordKey × String) :=
  writesOf (steps.filterMap UnfinishedStep.op?)

/-- What undo makes of a record whose before-image was taken from this value. -/
def restored (value : Option String) : Option String :=
  if value.getD "" ≠ "" then some (value.getD "") else none

/-- The first write under a name. -/
def firstUnder (writes : List (RecordKey × String)) (name : String) :
    Option (RecordKey × String) :=
  writes.find? fun w => flatName w.1 = name

private theorem undoneWrites_concat (p : TxnId → Bool) (entries : List LogEntry)
    {e : LogEntry} (h : e.entryType = .write ∧ p e.txnId = true) :
    undoneWrites p (entries ++ [e]) = (recordKey e.resource,
      if e.beforeValue ≠ "" then some e.beforeValue else none) ::
        undoneWrites p entries := by
  simp [undoneWrites, h.1, h.2]

private theorem undoneWrites_congr {p q : TxnId → Bool} {entries : List LogEntry}
    (h : ∀ e ∈ entries, e.entryType = .write → p e.txnId = q e.txnId) :
    undoneWrites p entries = undoneWrites q entries := by
  unfold undoneWrites
  congr 1
  refine List.filter_congr fun e he => ?_
  by_cases hwrite : e.entryType = .write
  · simp [hwrite, h e (List.mem_reverse.mp he) hwrite]
  · simp [hwrite]

private theorem firstUnder_concat (writes : List (RecordKey × String))
    (w : RecordKey × String) (name : String) :
    firstUnder (writes ++ [w]) name = (firstUnder writes name).or
      (if flatName w.1 = name then some w else none) := by
  rw [firstUnder, List.find?_append, List.find?_singleton]
  simp only [decide_eq_true_eq]
  rfl

structure Unfinished (nodeId : Nat) (i : ThreadId) (σ : Store)
    (writes : List (RecordKey × String)) (m : TransactionManager)
    (txn : Transaction) (wal : WriteAheadLog) : Prop where
  alone : m.Alone i (txnName nodeId 1) txn
  logged : m.wal = some wal
  began : ∃ e ∈ wal.entries, e.entryType = .begin
  entries : ∀ e ∈ wal.entries, e.txnId = txnName nodeId 1 ∧
    (e.entryType = .begin ∨ e.entryType = .write)
  names : ∀ e ∈ wal.entries, e.entryType = .write →
    ∃ w ∈ writes, e.resource = flatName w.1
  store : ∀ pair, (∀ w ∈ writes, target w.1 ≠ pair) → m.store pair = σ pair
  undone : ∀ pair, latest (undoneWrites (fun _ => true) wal.entries) pair =
    if ColonFree pair.1 then
      (firstUnder writes (flatName pair)).map fun w => restored (σ w.1)
    else none

section Unfinished

variable {nodeId : Nat} {i : ThreadId} {σ : Store}
  {writes : List (RecordKey × String)} {m m' : TransactionManager}
  {txn : Transaction} {wal : WriteAheadLog}

private theorem unfinished_opened (nodeId : Nat) (i : ThreadId) (σ : Store) :
    Unfinished nodeId i σ [] (opened nodeId σ) (.new (txnName nodeId 1) none)
      (WriteAheadLog.new.logBegin (txnName nodeId 1)) := by
  have hcalled := called_opened nodeId i σ
  refine ⟨hcalled.alone, hcalled.wal, ⟨_, List.mem_singleton_self _, rfl⟩,
    fun e he => ?_, fun e he hwrite => ?_, fun _ _ => rfl, fun pair => ?_⟩
  · obtain rfl := List.mem_singleton.mp he
    exact ⟨rfl, .inl rfl⟩
  · obtain rfl := List.mem_singleton.mp he
    cases hwrite
  · have hnone : undoneWrites (fun _ => true)
        (WriteAheadLog.new.logBegin (txnName nodeId 1)).entries = [] := rfl
    rw [hnone]
    simp [firstUnder]

theorem Unfinished.read (h : Unfinished nodeId i σ writes m txn wal)
    {resource key : String}
    (hstep : m.perform i (txnName nodeId 1) (.read resource key) = some m') :
    ∃ txn', Unfinished nodeId i σ writes m' txn' wal := by
  obtain ⟨m'', txn', hperform, halone, -, -, hstore, hwal⟩ :=
    perform_read h.alone resource key
  rw [hstep] at hperform
  obtain rfl := Option.some.inj hperform
  refine ⟨txn', halone, hwal.trans h.logged, h.began, h.entries, h.names, ?_,
    h.undone⟩
  rw [hstore]
  exact h.store

private theorem Unfinished.undone_write (h : Unfinished nodeId i σ writes m txn wal)
    {e : LogEntry} {pair : RecordKey} {value : String}
    (htype : e.entryType = .write) (hname : e.resource = flatName pair)
    (hbefore : e.beforeValue = (m.store pair).getD "") (other : RecordKey) :
    latest (undoneWrites (fun _ => true) (wal.entries ++ [e])) other =
      if ColonFree other.1 then
        (firstUnder (writes ++ [(pair, value)]) (flatName other)).map
          fun w => restored (σ w.1)
      else none := by
  rw [undoneWrites_concat _ _ ⟨htype, rfl⟩, latest, h.undone, hname,
    recordKey_flatName, firstUnder_concat]
  simp only [target_eq_iff]
  by_cases hfree : ColonFree other.1
  · simp only [hfree, true_and]
    cases hfirst : firstUnder writes (flatName other) with
    | some w => simp
    | none =>
        by_cases hsame : flatName pair = flatName other
        · have hstore : m.store pair = σ pair := by
            apply h.store
            intro w hw heq
            have hname' := ((target_eq_iff w.1 pair).mp heq).2
            have := List.find?_eq_none.mp hfirst w hw
            simp [hname', hsame] at this
          simp [hsame, restored, hbefore, hstore]
        · simp [hsame]
  · simp [hfree]

theorem Unfinished.write (h : Unfinished nodeId i σ writes m txn wal)
    {resource key value : String}
    (hstep : m.perform i (txnName nodeId 1) (.write resource key value) = some m') :
    ∃ txn' wal', Unfinished nodeId i σ (writes ++ [((resource, key), value)]) m'
      txn' wal' := by
  obtain ⟨m'', txn', hperform, halone, -, -, hstore, hwal⟩ :=
    perform_write h.alone resource key value
  rw [hstep] at hperform
  obtain rfl := Option.some.inj hperform
  rw [h.logged, Option.map_some] at hwal
  obtain ⟨begun, hbegun, htype⟩ := h.began
  refine ⟨txn', _, halone, hwal, ⟨begun, List.mem_append_left _ hbegun, htype⟩,
    fun e he => ?_, fun e he hwrite => ?_, fun pair hpair => ?_,
    h.undone_write rfl rfl rfl⟩
  · rcases List.mem_append.mp he with he | he
    · exact h.entries e he
    · obtain rfl := List.mem_singleton.mp he
      exact ⟨rfl, .inr rfl⟩
  · rcases List.mem_append.mp he with he | he
    · obtain ⟨w, hw, hname⟩ := h.names e he hwrite
      exact ⟨w, List.mem_append_left _ hw, hname⟩
    · obtain rfl := List.mem_singleton.mp he
      exact ⟨_, List.mem_append_right _ (List.mem_singleton_self _), rfl⟩
  · rw [hstore]
    exact h.store pair fun w hw => hpair w (List.mem_append_left _ hw)

theorem Unfinished.install (h : Unfinished nodeId i σ writes m txn wal)
    {e : LogEntry} (he : e ∈ loggedWrites m) :
    Unfinished nodeId i σ writes
      { m with
        store := TransactionManager.install m.store [(e.resource, e.afterValue)] }
      txn wal := by
  rw [loggedWrites, h.logged] at he
  obtain ⟨hmem, hwrite⟩ := List.mem_filter.mp he
  obtain ⟨w, hw, hname⟩ := h.names e hmem (of_decide_eq_true hwrite)
  refine ⟨⟨h.alone.active, h.alone.free, h.alone.holders⟩, h.logged, h.began,
    h.entries, h.names, fun pair hpair => ?_, h.undone⟩
  rw [← h.store pair hpair, install_eq, hname]
  exact Function.update_of_ne (hpair w hw).symm _ _

theorem Unfinished.step (h : Unfinished nodeId i σ writes m txn wal)
    {s : UnfinishedStep} (hstep : unfinishedStep nodeId i m s = some m') :
    ∃ txn' wal', Unfinished nodeId i σ (writes ++ writesIn [s]) m' txn' wal' := by
  cases s with
  | call op =>
      cases op with
      | read resource key =>
          obtain ⟨txn', h'⟩ := h.read hstep
          exact ⟨txn', wal, by simpa [writesIn, writesOf, UnfinishedStep.op?]⟩
      | write resource key value => exact h.write hstep
  | install n =>
      obtain ⟨e, he, rfl⟩ := Option.map_eq_some_iff.mp hstep
      refine ⟨txn, wal, ?_⟩
      have hnone : writesIn [.install n] = [] := rfl
      rw [hnone, List.append_nil]
      exact h.install (List.mem_of_getElem? he)

theorem Unfinished.run {steps : List UnfinishedStep}
    (hrun : Library.run (unfinishedStep nodeId i) (opened nodeId σ) steps =
      some m) :
    ∃ txn wal, Unfinished nodeId i σ (writesIn steps) m txn wal := by
  induction steps using List.reverseRecOn generalizing m with
  | nil =>
      obtain rfl := Option.some.inj hrun
      exact ⟨_, _, unfinished_opened nodeId i σ⟩
  | append_singleton steps s ih =>
      obtain ⟨before, hbefore, hlast⟩ := run_append.mp hrun
      obtain ⟨after, hstep, hend⟩ := run_cons.mp hlast
      obtain rfl := Option.some.inj hend
      obtain ⟨txn, wal, h⟩ := ih hbefore
      have hwrites : writesIn (steps ++ [s]) = writesIn steps ++ writesIn [s] := by
        rw [writesIn, List.filterMap_append, writesOf_append]
        rfl
      rw [hwrites]
      exact h.step hstep

theorem Unfinished.recover_store (h : Unfinished nodeId i σ writes m txn wal)
    (iteration : List TxnId) (pair : RecordKey) :
    (recover wal m.store iteration).store pair =
      (if ColonFree pair.1 then
        (firstUnder writes (flatName pair)).map fun w => restored (σ w.1)
      else none).getD (m.store pair) := by
  have hnone : ∀ e ∈ wal.entries, e.entryType ≠ .checkpoint := by
    intro e he
    rcases (h.entries e he).2 with htype | htype <;> simp [htype]
  have hopen : ∀ types, EntryType.begin ∉ types → EntryType.write ∉ types →
      ¬ Records types wal.entries (txnName nodeId 1) := by
    rintro types hbegin hwrite ⟨e, he, htype, -⟩
    rcases (h.entries e he).2 with heq | heq
    · exact hbegin (heq ▸ htype)
    · exact hwrite (heq ▸ htype)
  have hactive : txnName nodeId 1 ∈ activeIn wal.entries := by
    rw [mem_activeIn hnone]
    obtain ⟨e, he, htype⟩ := h.began
    refine ⟨⟨e, he, by simp [htype], (h.entries e he).1⟩, ?_, ?_⟩
    · exact hopen _ (by simp) (by simp)
    · exact hopen _ (by simp) (by simp)
  have hcommitted : txnName nodeId 1 ∉ committedIn wal.entries := by
    rw [mem_committedIn hnone]
    exact hopen _ (by simp) (by simp)
  have hredo : writesBy (fun t => t ∈ committedIn wal.entries) wal.entries =
      [] := by
    rw [List.eq_nil_iff_forall_not_mem]
    rintro ⟨key, v⟩ hwrites
    obtain ⟨e, he, -, hp, -⟩ := mem_writesBy.mp hwrites
    rw [(h.entries e he).1] at hp
    exact hcommitted (of_decide_eq_true hp)
  have hundo : undoneWrites (fun t => t ∈ activeIn wal.entries) wal.entries =
      undoneWrites (fun _ => true) wal.entries := by
    refine undoneWrites_congr fun e he _ => ?_
    rw [(h.entries e he).1]
    exact decide_eq_true hactive
  rw [Recovery.recover_store hnone, hredo, hundo, assign_apply, h.undone]
  rfl

/--
After `recover` each written record is as it was before the transaction, if and
only if undo makes it again out of the value that the first pair written under its
name had: so no record was the empty string, when its name is its own.
-/
theorem undo_restores_iff (nodeId : Nat) (i : ThreadId) (σ : Store)
    (steps : List UnfinishedStep) (m : TransactionManager)
    (hrun : Library.run (unfinishedStep nodeId i) (opened nodeId σ) steps =
      some m) (wal : WriteAheadLog) (hwal : m.wal = some wal)
    (iteration : List TxnId) :
    (∀ w ∈ writesIn steps,
        (recover wal m.store iteration).store w.1 = σ w.1) ↔
      ∀ w ∈ writesIn steps, ColonFree w.1.1 →
        ∀ first, firstUnder (writesIn steps) (flatName w.1) = some first →
          restored (σ first.1) = σ w.1 := by
  obtain ⟨txn, wal', h⟩ := Unfinished.run hrun
  obtain rfl : wal' = wal := Option.some.inj (h.logged.symm.trans hwal)
  refine forall₂_congr fun w hw => ?_
  rw [h.recover_store iteration w.1]
  by_cases hfree : ColonFree w.1.1
  · rw [if_pos hfree]
    have hsome : (firstUnder (writesIn steps) (flatName w.1)).isSome :=
      List.find?_isSome.mpr ⟨w, hw, by simp⟩
    obtain ⟨first, hfirst⟩ := Option.isSome_iff_exists.mp hsome
    simp [hfirst, hfree]
  · rw [if_neg hfree, Option.getD_none, h.store]
    · simp [hfree]
    · intro w' _ htarget
      exact hfree ((target_eq_iff w'.1 w.1).mp htarget).1

/-- The record was there with an empty value, and is gone. -/
theorem emptyRecord_not_restored :
    ∃ m wal, Library.run (unfinishedStep 0 0)
        (opened 0 (writeRecord (fun _ => none) "a" "k" ""))
        [.call (.write "a" "k" "v"), .install 0] = some m ∧
      m.wal = some wal ∧
      (recover wal m.store [txnName 0 1]).store ("a", "k") = none ∧
      writeRecord (fun _ => none) "a" "k" "" ("a", "k") = some "" := by
  have hend : (Library.run (unfinishedStep 0 0)
      (opened 0 (writeRecord (fun _ => none) "a" "k" ""))
      [.call (.write "a" "k" "v"), .install 0]).map (fun m =>
        m.wal.map fun wal => decide
          ((recover wal m.store [txnName 0 1]).store ("a", "k") = none)) =
      some (some true) := by
    decide +kernel
  obtain ⟨m, hm, hwal⟩ := Option.map_eq_some_iff.mp hend
  obtain ⟨wal, hwal, hdec⟩ := Option.map_eq_some_iff.mp hwal
  exact ⟨m, wal, hm, hwal, of_decide_eq_true hdec, by decide⟩

/-- Two writes to a record that was there, the second of which is on the disk. -/
theorem twoWrites_restored :
    ∃ m wal, Library.run (unfinishedStep 0 0)
        (opened 0 (writeRecord (fun _ => none) "a" "k" "old"))
        [.call (.write "a" "k" "v"), .install 0, .call (.write "a" "k" "w")] =
          some m ∧
      m.wal = some wal ∧ ∀ w ∈ writesIn
        [.call (.write "a" "k" "v"), .install 0, .call (.write "a" "k" "w")],
        (recover wal m.store [txnName 0 1]).store w.1 =
          writeRecord (fun _ => none) "a" "k" "old" w.1 := by
  have hend : (Library.run (unfinishedStep 0 0)
      (opened 0 (writeRecord (fun _ => none) "a" "k" "old"))
      [.call (.write "a" "k" "v"), .install 0, .call (.write "a" "k" "w")]).map
        (fun m => m.wal.isSome) = some true := by
    decide +kernel
  obtain ⟨m, hm, hwal⟩ := Option.map_eq_some_iff.mp hend
  obtain ⟨wal, hwal⟩ := Option.isSome_iff_exists.mp hwal
  refine ⟨m, wal, hm, hwal, (undo_restores_iff 0 0 _ _ m hm wal hwal
    [txnName 0 1]).mpr ?_⟩
  decide +kernel

end Unfinished

end DistributedMemory.Recovery
