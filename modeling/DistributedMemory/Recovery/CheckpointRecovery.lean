import DistributedMemory.Recovery.Checkpoint
import DistributedMemory.Recovery.CrashRecovery

/-!
# Recovery from a log with a checkpoint

A checkpoint is taken between two steps of the manager.  With the record left
out, the log that follows is still one that recovery restores the committed
state from; with the record in it, recovery restores the same exactly when no
commit is cut off before it has installed a write that the checkpoint hides.
-/

namespace DistributedMemory.Storage

open DistributedMemory.Library DistributedMemory.Recovery

/-- Where a crash comes: between two steps, or inside `commit`, which has logged
its record and installed the first `n` writes of its buffer. -/
inductive CrashPoint where
  | between
  | installing (t : TxnId) (n : Nat)
  deriving DecidableEq, Repr

namespace TransactionManager

/-- The manager after a call of `RecoveryManager.checkpoint`. -/
def checkpointed (m : TransactionManager) : TransactionManager :=
  m.log (checkpoint · m)

/-- The log and the record files that the crash leaves. -/
def crashed (m : TransactionManager) :
    CrashPoint → Option (List LogEntry × Store)
  | .between => some (m.logged, m.store)
  | .installing t n => (m.getActive t).map fun txn =>
      ((m.log (·.logCommit t)).logged,
        install m.store (txn.writeBuffer.items.take n))

/-- Each write that a commit leaves uninstalled was logged after the checkpoint,
or the record holds its value already. -/
def CarriedOver (m : TransactionManager) : CrashPoint → Prop
  | .between => True
  | .installing t n => ∀ txn ∈ m.getActive t,
      ∀ item ∈ txn.writeBuffer.items.drop n,
        (∃ e ∈ relevant m.logged, e.entryType = .write ∧ e.txnId = t ∧
          recordKey e.resource = splitKey item.1) ∨
        m.store (splitKey item.1) = some item.2

instance (m : TransactionManager) :
    (point : CrashPoint) → Decidable (m.CarriedOver point)
  | .between => isTrue trivial
  | .installing _ _ => inferInstanceAs (Decidable (∀ txn ∈ _, _))

/-- What holds after the checkpoint `mark` on the journal `old`. -/
structure AfterCheckpoint (initial : Store) (old : Journal) (mark : LogEntry)
    (own : List LogEntry) (m : TransactionManager) : Prop where
  inv : m.Inv
  books : m.Books
  journal : m.journal.plain.Inv initial
  marked : ∃ wal, m.wal = some wal ∧ mark.lsn < wal.nextLsn ∧
    Marked old.entries mark own wal.entries
  since : old.Since m.journal.plain own

/-! ## The checkpoint -/

/-- The records of a log are numbered below the next one. -/
def Numbered (m : TransactionManager) : Prop :=
  ∃ wal, m.wal = some wal ∧ ∀ e ∈ wal.entries, e.lsn < wal.nextLsn

theorem Numbered.step {m m' : TransactionManager} {a : TxnAction}
    (h : m.Numbered) (hstep : m.step a = some m') : m'.Numbered := by
  obtain ⟨wal, hwal, hall⟩ := h
  rcases step_wal hstep with hsame | ⟨t, type, resource, before, after, -, hlog⟩
  · exact ⟨wal, hsame.trans hwal, hall⟩
  · refine ⟨wal.logEntry t type resource before after, by rw [hlog, hwal]; rfl,
      fun e he => ?_⟩
    rcases List.mem_append.mp he with he | he
    · exact Nat.lt_succ_of_lt (hall e he)
    · obtain rfl := List.mem_singleton.mp he
      exact Nat.lt_succ_self _

private theorem comma_notMem_txnName (nodeId n : Nat) :
    ',' ∉ (txnName nodeId n).toList := by
  have hdigits : ∀ k : Nat, ',' ∉ (toString k).toList := by
    intro k hmem
    have : ',' ∈ Nat.toDigits 10 k := by rwa [← Nat.toList_repr]
    have := Nat.isDigit_of_mem_toDigits (by decide) (by decide) this
    exact absurd this (by decide)
  simp only [txnName, String.toList_append, List.mem_append, hdigits, or_false,
    not_or]
  decide

theorem Inv.log {m : TransactionManager} (h : m.Inv)
    (record : WriteAheadLog → WriteAheadLog) : (m.log record).Inv where
  lock := ⟨h.lock.valid, h.lock.named, h.lock.indexed, h.lock.known⟩
  owns t txn ht :=
    ⟨(h.owns t txn ht).locks, (h.owns t txn ht).buffer, (h.owns t txn ht).reads⟩
  granted := h.granted
  colonFree := h.colonFree

theorem statusOf_of_activeTxns {m : TransactionManager} {t : TxnId}
    (h : t ∈ activeTxns m) : m.statusOf t = some .active := by
  obtain ⟨⟨u, txn⟩, hmem, rfl⟩ := List.mem_map.mp h
  obtain ⟨hitem, hstatus⟩ := List.mem_filter.mp hmem
  rw [statusOf, Dict.mem_items_iff.mp hitem]
  exact congrArg some (of_decide_eq_true hstatus)

private theorem checkpointed_after {initial : Store} {m : TransactionManager}
    (h : m.Recoverable initial) (hnumbered : m.Numbered) :
    ∃ mark, m.checkpointed.AfterCheckpoint initial m.journal mark [] ∧
      ∀ t ∈ splitActive mark.afterValue, m.statusOf t = some .active := by
  obtain ⟨wal, hwal, hall⟩ := hnumbered
  have hlogged := logged_of_some hwal
  have hnew : m.checkpointed.wal = some (checkpoint wal m) := by
    simp only [checkpointed, log_wal, hwal, Option.map_some]
  have hmarked : Marked m.logged ⟨wal.nextLsn, "SYSTEM", .checkpoint, "", "",
      ",".intercalate (activeTxns m)⟩ [] (checkpoint wal m).entries := by
    refine ⟨by rw [hlogged]; rfl, rfl, fun e he => ?_, by simp⟩
    exact ⟨h.journal.no_checkpoint e he, hall e (hlogged ▸ he)⟩
  have hplain : m.checkpointed.journal.plain = m.journal := by
    have : withoutCheckpoint m.checkpointed.logged = m.logged := by
      rw [logged_of_some hnew]
      exact hmarked.withoutCheckpoint_eq.trans (List.append_nil _)
    rw [Journal.plain, journal, this]
    rfl
  refine ⟨_, ⟨h.inv.log _, ?_, hplain ▸ h.journal,
    ⟨_, hnew, Nat.lt_succ_self _, hmarked⟩, hplain ▸ Journal.since_refl _⟩,
    fun t ht => ?_⟩
  · refine h.books.mark (e := ⟨wal.nextLsn, "SYSTEM", .checkpoint, "", "",
      ",".intercalate (activeTxns m)⟩) (by simp) ?_ rfl (by simp [hnew])
      fun _ _ => .inl
    rw [logged_of_some hnew]
    exact hmarked.log
  · refine statusOf_of_activeTxns (mem_of_mem_splitActive (fun u hu => ?_) ht)
    obtain ⟨n, -, rfl⟩ := h.inv.lock.named u _ (statusOf_of_activeTxns hu)
    exact comma_notMem_txnName _ n

theorem AfterCheckpoint.step {initial : Store} {old : Journal}
    {mark : LogEntry} {own : List LogEntry} {m m' : TransactionManager}
    {a : TxnAction} (hold : old.Inv initial)
    (h : m.AfterCheckpoint initial old mark own) (hfree : colonFreeCall a)
    (hfilled : filledCall a) (htimely : m.timelyWrite a)
    (hstep : m.step a = some m') :
    ∃ own', m'.AfterCheckpoint initial old mark own' := by
  obtain ⟨wal, hwal, hnext, hmarked⟩ := h.marked
  obtain ⟨hbooks, hjournal⟩ := step_refines h.inv h.books
    (fun t key hw => h.journal.known t key (Journal.plain_wrote.mpr hw)) hfilled
    htimely hstep
  have hnew : ∃ own' wal', m'.wal = some wal' ∧ mark.lsn < wal'.nextLsn ∧
      Marked old.entries mark own' wal'.entries := by
    rcases step_wal hstep with hsame | ⟨t, type, resource, before, after, htype,
      hlog⟩
    · exact ⟨own, wal, hsame.trans hwal, hnext, hmarked⟩
    · refine ⟨_, wal.logEntry t type resource before after,
        by rw [hlog, hwal]; rfl, Nat.lt_succ_of_lt hnext,
        hmarked.concat ?_ hnext⟩
      rintro rfl
      simp at htype
  obtain ⟨own', wal', hwal', hnext', hmarked'⟩ := hnew
  have hplain : m'.journal.plain.Inv initial ∧
      ∃ own'', old.Since m'.journal.plain own'' := by
    rcases hjournal with hsame | hjstep
    · rw [hsame]
      exact ⟨h.journal, own, h.since⟩
    · obtain ⟨e, he⟩ := h.since.step hold h.journal hjstep.plain
      exact ⟨h.journal.step hjstep.plain, _, he⟩
  obtain ⟨hinv, own'', hsince⟩ := hplain
  -- The log itself tells which records came after the checkpoint.
  have hown : own'' = own' := by
    have hlogged : withoutCheckpoint m'.logged = old.entries ++ own' := by
      rw [logged_of_some hwal']
      exact hmarked'.withoutCheckpoint_eq
    exact List.append_cancel_left (hsince.log.symm.trans hlogged)
  subst hown
  exact ⟨own'', h.inv.step hfree hstep, hbooks, hinv,
    ⟨wal', hwal', hnext', hmarked'⟩, hsince⟩

/-! ## The crash -/

private theorem latest_part {m : TransactionManager} (h : m.Inv) {t : TxnId}
    {txn : Transaction} (htxn : m.getActive t = some txn)
    {part : List (String × String)}
    (hpart : ∀ item ∈ part, item ∈ txn.writeBuffer.items) {key : RecordKey}
    {v : Option String}
    (hv : latest (part.map fun item => (splitKey item.1, some item.2)) key =
      some v) :
    latest (txn.writeBuffer.items.map fun item =>
      (splitKey item.1, some item.2)) key = some v := by
  obtain ⟨⟨b, x⟩, hmem, heq⟩ := List.mem_map.mp (mem_of_latest hv)
  obtain ⟨rfl, rfl⟩ := Prod.mk.inj heq
  have hget := Dict.mem_items_iff.mp (hpart _ hmem)
  obtain ⟨r, k, hr, rfl, -⟩ := (h.owns t txn htxn).buffer b x hget
  simp only [splitKey_bufKey hr]
  rw [latest_buffer h htxn hr, hget]
  rfl

section Installing

variable {initial : Store} {old : Journal} {mark : LogEntry}
  {own : List LogEntry} {m : TransactionManager}
  (h : m.AfterCheckpoint initial old mark own) {t : TxnId} {txn : Transaction}
  (htxn : m.getActive t = some txn)

include h htxn

theorem AfterCheckpoint.install_buffer :
    install m.store txn.writeBuffer.items =
      assign (writesBy (fun u => u = t) m.journal.plain.entries) m.store := by
  rw [TransactionManager.install_buffer h.inv h.books htxn]
  exact congrArg (assign · m.store) (writesBy_withoutCheckpoint _ _).symm

theorem AfterCheckpoint.commit (hold : old.Inv initial) : ∃ e,
    (m.log (·.logCommit t)).logged = m.logged ++ [e] ∧
    e.entryType = .commit ∧
    Marked old.entries mark (own ++ [e]) (m.logged ++ [e]) ∧
    (m.journal.plain.afterCommit t e).Inv initial ∧
    old.Since (m.journal.plain.afterCommit t e) (own ++ [e]) := by
  obtain ⟨wal, hwal, hnext, hmarked⟩ := h.marked
  have hlogged := logged_of_some hwal
  have hactive := statusOf_of_getActive htxn
  refine ⟨⟨wal.nextLsn, t, .commit, "", "", ""⟩, ?_, rfl, ?_,
    h.journal.step (.committed (j := m.journal.plain) _ t hactive),
    h.since.mark hold h.journal (.inr ⟨.inl rfl, by simp, hactive⟩)⟩
  · rw [hlogged, logged, log_wal, hwal]
    rfl
  · rw [hlogged]
    exact hmarked.concat (by simp) hnext

omit htxn in
theorem AfterCheckpoint.relevant_eq : relevant m.logged = mark :: own := by
  obtain ⟨wal, hwal, -, hmarked⟩ := h.marked
  rw [logged_of_some hwal]
  exact hmarked.relevant_eq

theorem AfterCheckpoint.install_take (n : Nat) (key : RecordKey) :
    (latest ((txn.writeBuffer.items.take n).map fun item =>
        (splitKey item.1, some item.2)) key = none ∧
      install m.store (txn.writeBuffer.items.take n) key = m.store key) ∨
    install m.store (txn.writeBuffer.items.take n) key =
      install m.store txn.writeBuffer.items key := by
  rw [install_eq, install_eq, assign_apply, assign_apply]
  cases hpart : latest ((txn.writeBuffer.items.take n).map fun item =>
      (splitKey item.1, some item.2)) key with
  | none => exact .inl ⟨rfl, rfl⟩
  | some v =>
      rw [latest_part h.inv htxn (fun _ => List.mem_of_mem_take) hpart]
      exact .inr rfl

theorem AfterCheckpoint.item {item : String × String}
    (hitem : item ∈ txn.writeBuffer.items) :
    install m.store txn.writeBuffer.items (splitKey item.1) = some item.2 ∧
      m.journal.plain.Wrote t (splitKey item.1) := by
  obtain ⟨b, v⟩ := item
  have hget := Dict.mem_items_iff.mp hitem
  obtain ⟨r, k, hr, rfl, -⟩ := (h.inv.owns t txn htxn).buffer b v hget
  have hlatest := latest_buffer h.inv htxn hr k
  have hlogged := h.books.buffers t txn.writeBuffer
    (by simp [activeBuffer, htxn]) r k hr
  rw [hget] at hlatest hlogged
  simp only [splitKey_bufKey hr]
  refine ⟨?_, Journal.plain_wrote.mpr (Journal.wrote_iff.mpr ?_)⟩
  · rw [install_eq, assign_apply, hlatest]
    rfl
  · change latest (writesBy (fun u => u = t) m.logged) (r, k) ≠ none
    rw [← hlogged]
    simp

omit h in
private theorem key_eq_of_items (hinv : m.Inv) {item other : String × String}
    (hother : other ∈ txn.writeBuffer.items)
    (hitem : item ∈ txn.writeBuffer.items)
    (heq : splitKey other.1 = splitKey item.1) : other.1 = item.1 := by
  obtain ⟨r, k, hr, hbuf, -⟩ := (hinv.owns t txn htxn).buffer other.1 other.2
    (Dict.mem_items_iff.mp hother)
  obtain ⟨r', k', hr', hbuf', -⟩ := (hinv.owns t txn htxn).buffer item.1 item.2
    (Dict.mem_items_iff.mp hitem)
  rw [hbuf, hbuf', splitKey_bufKey hr, splitKey_bufKey hr'] at heq
  obtain ⟨rfl, rfl⟩ := Prod.mk.inj heq
  rw [hbuf, hbuf']

private theorem AfterCheckpoint.carriedOver_iff (n : Nat) :
    (∀ key, latest (writesBy (fun u => u = t || m.journal.plain.committed u)
        own) key = none →
      install m.store (txn.writeBuffer.items.take n) key =
        install m.store txn.writeBuffer.items key) ↔
      m.CarriedOver (.installing t n) := by
  have hnodup : (txn.writeBuffer.items.map Prod.fst).Nodup :=
    txn.writeBuffer.nodupKeys
  constructor
  · intro hfiles txn' htxn' item hitem
    obtain rfl := Option.some.inj (htxn.symm.trans htxn')
    by_cases hlater : ∃ e ∈ relevant m.logged, e.entryType = .write ∧
        e.txnId = t ∧ recordKey e.resource = splitKey item.1
    · exact .inl hlater
    · right
      obtain ⟨hvalue, hwrote⟩ := h.item htxn (List.mem_of_mem_drop hitem)
      have hnone := h.since.unwritten (statusOf_of_getActive htxn) hwrote
        fun e he hwrite ht hkey => hlater ⟨e, by
          rw [h.relevant_eq]
          exact List.mem_cons_of_mem _ he, hwrite, ht, hkey⟩
      -- The item is none of the installed ones.
      have hpart : latest ((txn.writeBuffer.items.take n).map fun item =>
          (splitKey item.1, some item.2)) (splitKey item.1) = none := by
        rw [latest_eq_none_iff]
        rintro u hu heq
        obtain ⟨other, hother, rfl⟩ := List.mem_map.mp hu
        have hkey := key_eq_of_items htxn h.inv (List.mem_of_mem_take hother)
          (List.mem_of_mem_drop hitem) heq
        refine List.disjoint_take_drop hnodup (le_refl n) (a := item.1) ?_ ?_
        · rw [← hkey, ← List.map_take]
          exact List.mem_map_of_mem hother
        · rw [← List.map_drop]
          exact List.mem_map_of_mem hitem
      rw [← hvalue, ← hfiles _ hnone, install_eq, assign_apply, hpart,
        Option.getD_none]
  · intro hcarried key hnone
    rcases h.install_take htxn n key with ⟨hpart, hsame⟩ | hall
    · rw [hsame]
      cases hlast : latest (txn.writeBuffer.items.map fun item =>
          (splitKey item.1, some item.2)) key with
      | none => rw [install_eq, assign_apply, hlast, Option.getD_none]
      | some v =>
          obtain ⟨item, hitem, heq⟩ := List.mem_map.mp (mem_of_latest hlast)
          obtain ⟨rfl, -⟩ := Prod.mk.inj heq
          have hdrop : item ∈ txn.writeBuffer.items.drop n := by
            rw [← List.take_append_drop n txn.writeBuffer.items,
              List.mem_append] at hitem
            refine hitem.resolve_left fun htake => ?_
            exact latest_eq_none_iff.mp hpart _ (List.mem_map_of_mem htake) rfl
          rw [(h.item htxn hitem).1]
          refine (hcarried txn htxn item hdrop).resolve_left ?_
          rintro ⟨e, he, hwrite, ht, hkey⟩
          rw [h.relevant_eq] at he
          rcases List.mem_cons.mp he with rfl | he
          · obtain ⟨wal, -, -, hmarked⟩ := h.marked
            rw [hmarked.type] at hwrite
            cases hwrite
          · refine latest_eq_none_iff.mp hnone (splitKey item.1,
              some e.afterValue) (mem_writesBy.mpr ?_) rfl
            exact ⟨e, he, hwrite, by simp [ht], hkey, rfl⟩
    · exact hall

end Installing

/-! ## Runs -/

section Crash

variable {initial : Store} {old : Journal} {mark : LogEntry}
  {own : List LogEntry} {m : TransactionManager} (hold : old.Inv initial)
  (hlisted : ∀ t ∈ splitActive mark.afterValue, old.status t = some .active)
  (h : m.AfterCheckpoint initial old mark own)

include hold hlisted h

private theorem AfterCheckpoint.between_eq (order order' : List TxnId) :
    (recover (.reopen m.logged) m.store order).store =
      (recover (.reopen (withoutCheckpoint m.logged)) m.store order').store := by
  obtain ⟨wal, hwal, -, hmarked⟩ := h.marked
  have hlogged := logged_of_some hwal
  refine (h.since.checkpoint_iff hold h.journal (hlogged ▸ hmarked) hlisted
    (h.journal.crashImage fun key => h.journal.store_written key)
    (fun _ _ _ _ => rfl) order order').mpr fun _ _ => rfl

private theorem AfterCheckpoint.installing_iff {t : TxnId} {txn : Transaction}
    (htxn : m.getActive t = some txn) (n : Nat) (order order' : List TxnId) :
    (recover (.reopen (m.log (·.logCommit t)).logged)
        (install m.store (txn.writeBuffer.items.take n)) order).store =
      (recover (.reopen (withoutCheckpoint (m.log (·.logCommit t)).logged))
        (install m.store (txn.writeBuffer.items.take n)) order').store ↔
      m.CarriedOver (.installing t n) := by
  obtain ⟨e, hlog, htype, hmarked, hj, hsince⟩ := h.commit htxn hold
  have hstore : (m.journal.plain.afterCommit t e).store =
      install m.store txn.writeBuffer.items := (h.install_buffer htxn).symm
  -- Each record is as before the commit or as after it.
  have himage : ∀ key, install m.store (txn.writeBuffer.items.take n) key =
      initial key ∨ ∃ e' ∈ (m.journal.plain.afterCommit t e).entries,
        e'.entryType = .write ∧ recordKey e'.resource = key ∧
        (m.journal.plain.afterCommit t e).status e'.txnId = some .committed ∧
        install m.store (txn.writeBuffer.items.take n) key =
          some e'.afterValue := by
    intro key
    rcases h.install_take htxn n key with ⟨-, hsame⟩ | hall
    · rw [hsame]
      refine (h.journal.store_written key).imp_right ?_
      rintro ⟨e', he, hwrite, hkey, hcommitted, hvalue⟩
      refine ⟨e', List.mem_append_left _ he, hwrite, hkey, ?_, hvalue⟩
      simp only [Journal.afterCommit, Function.update_apply]
      split
      · rfl
      · exact hcommitted
    · rw [hall, ← hstore]
      exact hj.store_written key
  have hopen : ∀ u key,
      (m.journal.plain.afterCommit t e).status u = some .active →
      (m.journal.plain.afterCommit t e).Wrote u key →
      install m.store (txn.writeBuffer.items.take n) key =
        (m.journal.plain.afterCommit t e).store key := by
    intro u key hu hw
    have hut : u ≠ t := by
      rintro rfl
      simp [Journal.afterCommit] at hu
    simp only [Journal.afterCommit, Function.update_of_ne hut] at hu
    have hw : m.journal.plain.Wrote u key :=
      (Journal.wrote_concat.mp hw).resolve_right fun hnew => by
        rw [htype] at hnew
        cases hnew.1
    have hnot : ¬ m.journal.plain.Wrote t key := fun hwt =>
      hut (h.journal.alone u t key hu (statusOf_of_getActive htxn) hw hwt)
    rw [hstore]
    rcases h.install_take htxn n key with ⟨-, hsame⟩ | hall
    · rw [hsame, h.install_buffer htxn, assign_apply,
        Journal.not_wrote_latest hnot, Option.getD_none]
    · exact hall
  rw [hlog, hsince.checkpoint_iff hold hj hmarked hlisted
    (hj.crashImage himage) hopen order order', hstore,
    writesBy_concat_other _ _ (.inl (by simp [htype])),
    Journal.afterCommit_committed]
  exact h.carriedOver_iff htxn n

end Crash

/--
A checkpoint between two steps of a run changes nothing that recovery restores,
wherever a later crash comes, exactly when the crash does not cut off a commit
before it has installed a write that was logged before the checkpoint alone.
-/
theorem run_checkpoint (nodeId : Nat) (initial : Store)
    (before after : List TxnAction) (m₁ m : TransactionManager)
    (point : CrashPoint) (log : List LogEntry) (image : Store)
    (order order' : List TxnId) (hfull : ∀ key, initial key ≠ some "")
    (hfree : ∀ a ∈ before ++ after, colonFreeCall a)
    (hfilled : ∀ a ∈ before ++ after, filledCall a)
    (htimely₁ : Along step (fun m a => m.timelyWrite a)
      (new nodeId (some .new) initial) before)
    (hrun₁ : run step (new nodeId (some .new) initial) before = some m₁)
    (htimely : Along step (fun m a => m.timelyWrite a) m₁.checkpointed after)
    (hrun : run step m₁.checkpointed after = some m)
    (hcrash : m.crashed point = some (log, image)) :
    (recover (.reopen log) image order).store =
        (recover (.reopen (withoutCheckpoint log)) image order').store ↔
      m.CarriedOver point := by
  have hm₁ := run_recoverable hfull
    (fun a ha => hfree a (List.mem_append_left _ ha))
    (fun a ha => hfilled a (List.mem_append_left _ ha)) htimely₁ hrun₁
  have hnumbered : m₁.Numbered := by
    refine run_preserves (I := Numbered) (fun _ _ _ => Numbered.step) ?_ hrun₁
    exact ⟨.new, rfl, by simp [WriteAheadLog.new]⟩
  obtain ⟨mark, hafter, hlisted⟩ := checkpointed_after hm₁ hnumbered
  have hm : ∃ own, m.AfterCheckpoint initial m₁.journal mark own := by
    refine run_invariant (I := fun m : TransactionManager => ∃ own,
      m.AfterCheckpoint initial m₁.journal mark own) ?_ ⟨[], hafter⟩
      (along_and (fun a ha => hfree a (List.mem_append_right _ ha))
        (along_and (fun a ha => hfilled a (List.mem_append_right _ ha))
          htimely)) hrun
    rintro m a m' ⟨own, h⟩ ⟨hfree, hfilled, htimely⟩ hstep
    exact h.step hm₁.journal hfree hfilled htimely hstep
  obtain ⟨own, hm⟩ := hm
  cases point with
  | between =>
      obtain ⟨rfl, rfl⟩ := Prod.mk.inj (Option.some.inj hcrash)
      exact iff_of_true (hm.between_eq hm₁.journal hlisted order order') trivial
  | installing t n =>
      obtain ⟨txn, htxn, heq⟩ := Option.map_eq_some_iff.mp hcrash
      obtain ⟨rfl, rfl⟩ := Prod.mk.inj heq
      exact hm.installing_iff hm₁.journal hlisted htxn n order order'

def firstWrite : List TxnAction :=
  [.begin none, .call 0 "node_0_txn_1" (.write "f" "a" "1"), .advance 0,
    .advance 0]

def secondWrite : List TxnAction :=
  [.call 0 "node_0_txn_1" (.write "f" "b" "2"), .advance 0]

/-- A transaction writes one record before the checkpoint and one after it; its
commit is cut off between the two. -/
theorem cutBetween_checkpoint :
    ∃ m₁ m log image,
      run step (new 0 (some .new) fun _ => none) firstWrite = some m₁ ∧
      run step m₁.checkpointed secondWrite = some m ∧
      m.crashed (.installing "node_0_txn_1" 1) = some (log, image) ∧
      image ("f", "a") = some "1" ∧ image ("f", "b") = none ∧
      (recover (.reopen log) image []).store =
        (recover (.reopen (withoutCheckpoint log)) image []).store := by
  have hend : ((run step (new 0 (some .new) fun _ => none) firstWrite).bind
      fun m₁ => (run step m₁.checkpointed secondWrite).bind fun m =>
        (m.crashed (.installing "node_0_txn_1" 1)).map fun c => decide (
          m.CarriedOver (.installing "node_0_txn_1" 1) ∧
          Along step (fun m a => m.timelyWrite a) m₁.checkpointed secondWrite ∧
          c.2 ("f", "a") = some "1" ∧ c.2 ("f", "b") = none)) = some true := by
    decide +kernel
  obtain ⟨m₁, hrun₁, hend⟩ := Option.bind_eq_some_iff.mp hend
  obtain ⟨m, hrun, hend⟩ := Option.bind_eq_some_iff.mp hend
  obtain ⟨⟨log, image⟩, hcrash, hend⟩ := Option.map_eq_some_iff.mp hend
  obtain ⟨hcarried, htimely, ha, hb⟩ := of_decide_eq_true hend
  exact ⟨m₁, m, log, image, hrun₁, hrun, hcrash, ha, hb,
    (run_checkpoint 0 _ firstWrite secondWrite m₁ m _ log image [] [] (by simp)
      (by decide) (by decide) (by decide +kernel) hrun₁ htimely hrun
      hcrash).mpr hcarried⟩

/-- A transaction writes before the checkpoint and is cut off after its COMMIT
record: the checkpoint hides its write. -/
theorem hiddenWrite_not_restored :
    (∀ a ∈ firstWrite, colonFreeCall a ∧ filledCall a) ∧
      ∃ m log image,
        run step (new 0 (some .new) fun _ => none) firstWrite = some m ∧
        m.checkpointed.crashed (.installing "node_0_txn_1" 0) =
          some (log, image) ∧
        (recover (.reopen log) image []).store ≠
          (recover (.reopen (withoutCheckpoint log)) image []).store := by
  have hend : ((run step (new 0 (some .new) fun _ => none) firstWrite).bind
      fun m => (m.checkpointed.crashed (.installing "node_0_txn_1" 0)).map
        fun c => ((recover (.reopen c.1) c.2 []).store ("f", "a"),
          (recover (.reopen (withoutCheckpoint c.1)) c.2 []).store
            ("f", "a"))) = some (none, some "1") := by
    decide +kernel
  obtain ⟨m, hrun, hend⟩ := Option.bind_eq_some_iff.mp hend
  obtain ⟨⟨log, image⟩, hcrash, hend⟩ := Option.map_eq_some_iff.mp hend
  obtain ⟨hwith, hwithout⟩ := Prod.mk.inj hend
  refine ⟨by decide, m, log, image, hrun, hcrash, fun heq => ?_⟩
  rw [heq, hwithout] at hwith
  cases hwith

end TransactionManager

end DistributedMemory.Storage
