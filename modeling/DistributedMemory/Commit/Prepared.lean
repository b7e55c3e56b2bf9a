import DistributedMemory.Commit.Decision
import DistributedMemory.Recovery.Restart

/-!
# A prepared participant that restarts

`recover` does not know the votes: it takes a transaction with a BEGIN record and
no decision for one to undo, logs its ABORT, and `recover_pending` then finds it
decided.  And the transaction manager of the restarted node is a fresh one, which
carries out no decision of the coordinator.  What is left is the transaction that
`recover` does not look at and that has nothing to install.
-/

namespace DistributedMemory.Commit

open DistributedMemory.Library DistributedMemory.Network
open DistributedMemory.Recovery DistributedMemory.Storage

/-! ## Votes and decisions in a log -/

def lastVote (entries : List LogEntry) (t : TxnId) : Option Vote :=
  entries.foldl (fun v e =>
    if e.txnId = t then
      match e.entryType with
      | .voteCommit => some .commit
      | .voteAbort => some .abort
      | _ => v
    else v) none

/-- The log holds a decision for `t`. -/
abbrev Ended (entries : List LogEntry) (t : TxnId) : Prop :=
  Records [.commit, .abort, .globalCommit, .globalAbort] entries t

def takenBack (entries : List LogEntry) : List LogEntry :=
  (relevant entries).filter fun e =>
    e.entryType = .write && e.txnId ∈ activeIn entries

/-- What the log and the record files say of a record: the value before the first
write of an unfinished transaction, or that of the last write of a committed one,
or what the file holds. -/
def settled (entries : List LogEntry) (image : Store) : Store := fun key =>
  match latest (undoneWrites (fun t => t ∈ activeIn entries)
      (relevant entries)) key with
  | some before => before
  | none =>
      match latest (writesBy (fun t => t ∈ committedIn entries)
          (relevant entries)) key with
      | some after => after
      | none => image key

/-- `t` outlives the restart, and GLOBAL_COMMIT installs what it wrote. -/
structure Survives (found : List LogEntry) (p : TwoPhaseParticipant)
    (t : TxnId) : Prop where
  unaborted : ¬ Records [.abort] (entriesOf p.manager.wal) t
  kept : ∀ e ∈ takenBack found, e.txnId ≠ t
  awaiting : p.pendingDecisions.get? t = some .awaitingDecision
  visible : ∀ key v, latest (writesBy (fun u => u = t) found) key = some v →
    (p.handleDecision t .commit []).manager.store key = v

/-- `recover` passes `t` over, its last vote is a commit, and the record files
already hold, or get from the other transactions, what it wrote. -/
structure Undisturbed (found : List LogEntry) (image : Store) (t : TxnId) :
    Prop where
  unbegun : ¬ Records [.begin] (relevant found) t
  unlisted : t ∉ (lastCheckpoint found).2
  voted : lastVote found t = some .commit
  written : ∀ key v, latest (writesBy (fun u => u = t) found) key = some v →
    settled found image key = v

private theorem recover_settled (wal : WriteAheadLog) (image : Store)
    (order : List TxnId) :
    (recover wal image order).store = settled wal.entries image := by
  funext key
  rw [recover_store_relevant, assign_apply, assign_apply, settled]
  cases latest (undoneWrites (fun t => t ∈ activeIn wal.entries)
      (relevant wal.entries)) key with
  | some before => rfl
  | none =>
      cases latest (writesBy (fun t => t ∈ committedIn wal.entries)
          (relevant wal.entries)) key <;> rfl

/-- The undo phase carries out exactly the records of `takenBack`. -/
theorem undo_takenBack (store : Store) (entries : List LogEntry) :
    undo store (relevant entries) (activeIn entries) =
      assign ((takenBack entries).reverse.map fun e => (recordKey e.resource,
        if e.beforeValue ≠ "" then some e.beforeValue else none)) store := by
  rw [undo_eq, undoneWrites, takenBack, List.filter_reverse]

theorem lastVote_concat (entries : List LogEntry) (e : LogEntry) (t : TxnId) :
    lastVote (entries ++ [e]) t =
      if e.txnId = t then
        match e.entryType with
        | .voteCommit => some .commit
        | .voteAbort => some .abort
        | _ => lastVote entries t
      else lastVote entries t := by
  simp only [lastVote, List.foldl_append, List.foldl_cons, List.foldl_nil]

namespace TwoPhaseParticipant

theorem tally_concat (entries : List LogEntry) (e : LogEntry) :
    tally (entries ++ [e]) = (tally entries).add e := by
  simp only [tally, List.foldl_append, List.foldl_cons, List.foldl_nil]

private theorem tally_voted (entries : List LogEntry) (t : TxnId) :
    (tally entries).voted.get? t = lastVote entries t := by
  induction entries using List.reverseRecOn with
  | nil => rfl
  | append_singleton rest e ih =>
      rw [tally_concat, lastVote_concat, Tally.add]
      cases e.entryType <;>
        simp only [Dict.get?_set, ih, ite_self, eq_comm (a := t)]

private theorem mem_tally_decided (entries : List LogEntry) (t : TxnId) :
    t ∈ (tally entries).decided ↔ Ended entries t := by
  induction entries using List.reverseRecOn with
  | nil => simp [tally]
  | append_singleton rest e ih =>
      rw [tally_concat, Ended, records_append, ← Ended, ← ih,
        records_singleton, Tally.add]
      cases e.entryType <;> simp [or_comm, eq_comm]

/-! ## The last loop of `recover_pending` -/

structure Recovering (decided : Finset TxnId) (items : List (TxnId × Vote))
    (p p' : TwoPhaseParticipant) : Prop where
  transactions : p'.manager.transactions = p.manager.transactions
  store : p'.manager.store = p.manager.store
  opened : p'.manager.wal ≠ none
  aborted : ∀ t, Records [.abort] (entriesOf p'.manager.wal) t ↔
    Records [.abort] (entriesOf p.manager.wal) t ∨
      (t, Vote.abort) ∈ items ∧ t ∉ decided
  awaiting : ∀ t, p'.pendingDecisions.get? t = some .awaitingDecision ↔
    p.pendingDecisions.get? t = some .awaitingDecision ∨
      (t, Vote.commit) ∈ items ∧ t ∉ decided

private theorem recoverVote_recovering {p : TwoPhaseParticipant}
    (hopened : p.manager.wal ≠ none) (decided : Finset TxnId)
    (item : TxnId × Vote) :
    Recovering decided [item] p (recoverVote decided p item) := by
  obtain ⟨u, v⟩ := item
  unfold recoverVote
  split
  · next hin =>
    refine ⟨rfl, rfl, hopened, fun t => ?_, fun t => ?_⟩ <;>
    · refine (or_iff_left ?_).symm
      rintro ⟨hmem, hnot⟩
      obtain ⟨rfl, -⟩ := Prod.mk.inj (List.mem_singleton.mp hmem)
      exact hnot hin
  · next hnot =>
    cases v with
    | abort =>
        refine ⟨rfl, rfl, by simpa using hopened, fun t => ?_, fun t => ?_⟩
        · refine (records_logEntry hopened _ _ _ _ _ _ _).trans ?_
          refine or_congr Iff.rfl ⟨fun h => ?_, fun h => ?_⟩
          · obtain ⟨-, rfl⟩ := h
            exact ⟨by simp, hnot⟩
          · exact ⟨by simp, (congrArg Prod.fst (List.mem_singleton.mp h.1)).symm⟩
        · simp
    | commit =>
        refine ⟨rfl, rfl, hopened, fun t => by simp, fun t => ?_⟩
        dsimp only
        rw [Dict.get?_set]
        by_cases ht : t = u
        · subst ht
          simp [hnot]
        · simp [ht]

private theorem recoverVotes_recovering {p : TwoPhaseParticipant}
    (hopened : p.manager.wal ≠ none) (decided : Finset TxnId)
    (items : List (TxnId × Vote)) :
    Recovering decided items p (items.foldl (recoverVote decided) p) := by
  induction items generalizing p with
  | nil => exact ⟨rfl, rfl, hopened, by simp, by simp⟩
  | cons item rest ih =>
      have hfirst := recoverVote_recovering hopened decided item
      have hrest := ih hfirst.opened
      refine ⟨hrest.transactions.trans hfirst.transactions,
        hrest.store.trans hfirst.store, hrest.opened, fun t => ?_, fun t => ?_⟩
      · rw [List.foldl_cons, hrest.aborted, hfirst.aborted, List.mem_singleton,
          List.mem_cons, or_assoc, or_and_right]
      · rw [List.foldl_cons, hrest.awaiting, hfirst.awaiting,
          List.mem_singleton, List.mem_cons, or_assoc, or_and_right]

/-! ## The restart -/

private theorem decide_unknown {m : TransactionManager} {t : TxnId}
    (h : m.getTransaction t = none) (d : Decision) (order : List Resource) :
    decide m t d order = m := by
  simp only [decide, h]

end TwoPhaseParticipant

private theorem lastVote_logAborts (wal : WriteAheadLog) (order : List TxnId)
    (t : TxnId) : lastVote (order.foldl WriteAheadLog.logAbort wal).entries t =
      lastVote wal.entries t := by
  induction order generalizing wal with
  | nil => rfl
  | cons u rest ih =>
      rw [List.foldl_cons, ih, WriteAheadLog.logAbort, WriteAheadLog.logEntry,
        lastVote_concat]
      exact ite_self _

private theorem mem_activeIn_iff {entries : List LogEntry} {t : TxnId}
    (hopen : ¬ Ended entries t) : t ∈ activeIn entries ↔
      Records [.begin] (relevant entries) t ∨ t ∈ (lastCheckpoint entries).2 := by
  have hsub : ∀ types, types ⊆ [EntryType.commit, .abort, .globalCommit,
      .globalAbort] → ¬ Records types (relevant entries) t := by
    rintro types hsub ⟨e, he, htype, ht⟩
    exact hopen ⟨e, List.mem_of_mem_filter he, hsub htype, ht⟩
  have hcommitted := hsub [.commit, .globalCommit] (by simp)
  have haborted := hsub [.abort, .globalAbort] (by simp)
  obtain ⟨hbegan, hc, ha⟩ := mem_analyze (relevant entries) t
  simp only [activeIn, committedIn, abortedIn, Finset.mem_sdiff,
    Finset.mem_union, hbegan, hc, ha, hcommitted, haborted, not_false_eq_true,
    and_true]

private theorem recover_log {found : List LogEntry} (hfound : found ≠ [])
    (image : Store) (order : List TxnId) (t : TxnId) :
    (∀ types, Records types (recover (.reopen found) image order).wal.entries t ↔
      Records types found t ∨ EntryType.abort ∈ types ∧ t ∈ order) ∧
    lastVote (recover (.reopen found) image order).wal.entries t =
      lastVote found t := by
  have hwal : (recover (.reopen found) image order).wal =
      order.foldl WriteAheadLog.logAbort (.reopen found) := by
    have hentries : (WriteAheadLog.reopen found).entries ≠ [] := hfound
    rw [recover, if_neg hentries]
  rw [hwal]
  exact ⟨fun types => records_logAborts types (.reopen found) order t,
    lastVote_logAborts (.reopen found) order t⟩

/-- The participant after a restart: its log, what it waits for, and what the
record files hold after a decision. -/
structure Restarted (found : List LogEntry) (image : Store) (t : TxnId)
    (p : TwoPhaseParticipant) : Prop where
  aborted : Records [.abort] (entriesOf p.manager.wal) t ↔
    t ∈ activeIn found ∨ lastVote found t = some .abort ∧ t ∉ activeIn found
  awaiting : p.pendingDecisions.get? t = some .awaitingDecision ↔
    lastVote found t = some .commit ∧ t ∉ activeIn found
  decided : ∀ d order,
    (p.handleDecision t d order).manager.store = settled found image

private theorem restart_restarted (nodeId : Nat) {found : List LogEntry}
    (hfound : found ≠ []) (image : Store) {order : List TxnId}
    (horder : order.toFinset = activeIn found) {t : TxnId}
    (hopen : ¬ Ended found t) :
    Restarted found image t (.restart nodeId found image order) := by
  obtain ⟨hrecords, hvote⟩ := recover_log hfound image order t
  have hstore : (recover (.reopen found) image order).store =
      settled found image := recover_settled (.reopen found) image order
  have hmem : t ∈ order ↔ t ∈ activeIn found := by
    rw [← horder, List.mem_toFinset]
  have hnone : ¬ Records [.abort] found t := by
    rintro ⟨e, he, htype, ht⟩
    exact hopen ⟨e, he, by simp_all, ht⟩
  unfold TwoPhaseParticipant.restart TwoPhaseParticipant.recoverPending
  dsimp only
  generalize hr : recover (.reopen found) image order = r at *
  have hitems : ∀ v, (t, v) ∈ (TwoPhaseParticipant.tally
      r.wal.entries).voted.items ↔ lastVote found t = some v := by
    intro v
    rw [Dict.mem_items_iff, TwoPhaseParticipant.tally_voted, hvote]
  have hdecided : t ∉ (TwoPhaseParticipant.tally r.wal.entries).decided ↔
      t ∉ activeIn found := by
    rw [TwoPhaseParticipant.mem_tally_decided, Ended, hrecords, hmem]
    simp [hopen]
  have h := TwoPhaseParticipant.recoverVotes_recovering
    (p := .new (.new nodeId (some r.wal) r.store)) (by simp
      [TwoPhaseParticipant.new, TransactionManager.new])
    (TwoPhaseParticipant.tally r.wal.entries).decided
    (TwoPhaseParticipant.tally r.wal.entries).voted.items
  refine ⟨(h.aborted t).trans ?_, (h.awaiting t).trans ?_, fun d locks => ?_⟩
  · rw [hitems, hdecided]
    refine or_congr_left ((hrecords _).trans ?_)
    simp [hnone, hmem]
  · rw [hitems, hdecided]
    simp [TwoPhaseParticipant.new]
  · rw [TwoPhaseParticipant.handleDecision,
      TwoPhaseParticipant.decide_unknown, ← hstore]
    · exact h.store
    · rw [TransactionManager.getTransaction]
      exact congrArg (Dict.get? · t) h.transactions

/-- `"t"` was registered at the node by hand and writes what is there already;
`"u"` has committed, and the crash cuts off `"w"`. -/
def quietVote : List LogEntry :=
  [⟨1, "u", .begin, "", "", ""⟩, ⟨2, "u", .write, "f:a", "", "1"⟩,
    ⟨3, "u", .commit, "", "", ""⟩, ⟨4, "w", .begin, "", "", ""⟩,
    ⟨5, "t", .write, "f:a", "1", "1"⟩, ⟨6, "w", .write, "g:b", "", "2"⟩,
    ⟨7, "t", .voteCommit, "", "", ""⟩]

/-- A transaction begins, writes and votes to commit at node 1, which crashes. -/
def voteOfBegun : List TwoPhaseAction :=
  [.manager 1 (.begin none),
    .manager 1 (.call 0 "node_1_txn_1" (.write "f" "a" "1")),
    .manager 1 (.advance 0), .manager 1 (.advance 0),
    .coordinate "node_1_txn_1" [1], .advance "node_1_txn_1" [1],
    .advance "node_1_txn_1" [1], .prepare 1 "node_1_txn_1" true]

end DistributedMemory.Commit
