import DistributedMemory.Storage.LockTable
import DistributedMemory.Storage.Transaction

/-!
# What one step of the transaction manager does

`TxnStep` lists the ways in which a step changes the manager.  Every invariant
of a run is proved by cases on it, so that `step` itself is unfolded only here.
-/

namespace DistributedMemory.Storage

open DistributedMemory.Library DistributedMemory.Recovery

theorem txnName_injective {nodeId i j : Nat}
    (h : txnName nodeId i = txnName nodeId j) : i = j := by
  have hlist := congrArg String.toList h
  simp only [txnName, String.toList_append] at hlist
  have hdigits : Nat.toDigits 10 i = Nat.toDigits 10 j := by
    rw [← Nat.toList_repr, ← Nat.toList_repr]
    exact List.append_cancel_left hlist
  rw [← Nat.ofDigitChars_toDigits (n := i) (b := 10) (by decide) (by decide),
    hdigits, Nat.ofDigitChars_toDigits (by decide) (by decide)]

namespace TransactionManager

/-! ## Reading the manager after an update -/

theorem getActive_eq_some {m : TransactionManager} {t : TxnId}
    {txn : Transaction} :
    m.getActive t = some txn ↔
      m.transactions.get? t = some txn ∧ txn.status = .active := by
  unfold getActive
  cases h : m.transactions.get? t with
  | none => simp
  | some txn' =>
      by_cases hactive : txn'.status = .active
      · simp only [hactive, if_true, Option.some.injEq]
        constructor
        · rintro rfl
          exact ⟨rfl, hactive⟩
        · exact And.left
      · simp only [hactive, if_false, Option.some.injEq, reduceCtorEq,
          false_iff]
        rintro ⟨rfl, h⟩
        exact hactive h

theorem threads_setThread (m : TransactionManager) (i j : ThreadId)
    (thread : Thread) :
    (m.setThread i thread).threads j =
      if j = i then thread else m.threads j := by
  simp only [setThread, Function.update_apply]

theorem transactions_putTxn (m : TransactionManager) (t u : TxnId)
    (txn : Transaction) :
    (m.putTxn t txn).transactions.get? u =
      if u = t then some txn else m.transactions.get? u := by
  simp only [putTxn, Dict.get?_set]

section Frames

variable (m : TransactionManager) (i : ThreadId) (thread : Thread) (t : TxnId)
  (txn : Transaction) (record : WriteAheadLog → WriteAheadLog)
  (order : List Resource)

@[simp] theorem setThread_transactions :
    (m.setThread i thread).transactions = m.transactions := rfl
@[simp] theorem setThread_lockManager :
    (m.setThread i thread).lockManager = m.lockManager := rfl
@[simp] theorem setThread_store : (m.setThread i thread).store = m.store := rfl
@[simp] theorem setThread_commits :
    (m.setThread i thread).commits = m.commits := rfl
@[simp] theorem setThread_wal : (m.setThread i thread).wal = m.wal := rfl
@[simp] theorem setThread_seq : (m.setThread i thread).seq = m.seq := rfl
@[simp] theorem setThread_nodeId :
    (m.setThread i thread).nodeId = m.nodeId := rfl

@[simp] theorem putTxn_lockManager :
    (m.putTxn t txn).lockManager = m.lockManager := rfl
@[simp] theorem putTxn_store : (m.putTxn t txn).store = m.store := rfl
@[simp] theorem putTxn_commits : (m.putTxn t txn).commits = m.commits := rfl
@[simp] theorem putTxn_threads : (m.putTxn t txn).threads = m.threads := rfl
@[simp] theorem putTxn_wal : (m.putTxn t txn).wal = m.wal := rfl
@[simp] theorem putTxn_seq : (m.putTxn t txn).seq = m.seq := rfl
@[simp] theorem putTxn_nodeId : (m.putTxn t txn).nodeId = m.nodeId := rfl

@[simp] theorem log_transactions :
    (m.log record).transactions = m.transactions := rfl
@[simp] theorem log_lockManager :
    (m.log record).lockManager = m.lockManager := rfl
@[simp] theorem log_store : (m.log record).store = m.store := rfl
@[simp] theorem log_commits : (m.log record).commits = m.commits := rfl
@[simp] theorem log_threads : (m.log record).threads = m.threads := rfl
@[simp] theorem log_seq : (m.log record).seq = m.seq := rfl
@[simp] theorem log_nodeId : (m.log record).nodeId = m.nodeId := rfl
@[simp] theorem log_wal : (m.log record).wal = m.wal.map record := rfl

@[simp] theorem releaseAll_transactions :
    (m.releaseAll t order).transactions = m.transactions := rfl
@[simp] theorem releaseAll_lockManager :
    (m.releaseAll t order).lockManager =
      (m.lockManager.releaseAll t order).1 := rfl
@[simp] theorem releaseAll_store : (m.releaseAll t order).store = m.store := rfl
@[simp] theorem releaseAll_commits :
    (m.releaseAll t order).commits = m.commits := rfl
@[simp] theorem releaseAll_threads :
    (m.releaseAll t order).threads = m.threads := rfl
@[simp] theorem releaseAll_wal : (m.releaseAll t order).wal = m.wal := rfl
@[simp] theorem releaseAll_seq : (m.releaseAll t order).seq = m.seq := rfl
@[simp] theorem releaseAll_nodeId :
    (m.releaseAll t order).nodeId = m.nodeId := rfl

end Frames

end TransactionManager

/-! ## The cases of a step -/

open TransactionManager

def Thread.Ungranted (thread : Thread) : Prop :=
  ∀ call, thread = .running call → call.phase ≠ .granted

/--
`answered` and `started` are the two outcomes of a new call; `locked` is a lock
attempt, with its effect on the entry; `moved` is every other step of a waiting
call; `finished` is the rest of the method under the lock.
-/
inductive TxnStep (m : TransactionManager) :
    TxnAction → TransactionManager → Prop where
  | began (parent : Option TxnId) :
      TxnStep m (.begin parent) (m.begin parent).1
  | answered (i : ThreadId) (t : TxnId) (op : Op) (reply : Reply) :
      TxnStep m (.call i t op) (m.setThread i (.returned reply))
  | started (i : ThreadId) (t : TxnId) (op : Op) (phase : Phase)
      (txn : Transaction) (active : m.getActive t = some txn)
      (covered : phase = .granted → op.mode = .exclusive ∧
        (op.resource, LockType.exclusive) ∈ txn.locksHeld) :
      TxnStep m (.call i t op) (m.setThread i (.running ⟨t, op, phase⟩))
  | locked (i : ThreadId) (call : Call) (lt : LockType) (lm : LockManager)
      (e : LockEntry) (granted : List TxnId) (answer : Bool) (thread : Thread)
      (running : m.threads i = .running call)
      (attempt : call.phase = .acquiring ∨ call.phase = .retrying ∨
        call.txnId ∈ (m.lockManager.entry call.op.resource).holders)
      (mode : lt = call.op.mode ∨ lt = .exclusive)
      (acquires : Acquires (m.lockManager.entry call.op.resource) call.txnId lt
        e granted answer)
      (rewrites : m.lockManager.Rewrites lm call.op.resource e granted)
      (next : (answer = true ∧
          thread = .running { call with phase := .granted }) ∨
        (answer = false ∧ thread.Ungranted ∧
          ∀ c, thread = .running c → c.txnId = call.txnId ∧ c.op = call.op)) :
      TxnStep m (.advance i) ({ m with lockManager := lm }.setThread i thread)
  | moved (i : ThreadId) (call : Call) (a : TxnAction) (thread : Thread)
      (events : Dict (TxnId × Resource) ThreadId) (signalled : Finset ThreadId)
      (running : m.threads i = .running call)
      (action : a = .advance i ∨ a = .timeout i)
      (unattempted : call.phase ≠ .acquiring ∧ call.phase ≠ .retrying)
      (ungranted : thread.Ungranted)
      (same : ∀ c, thread = .running c →
        c.txnId = call.txnId ∧ c.op = call.op) :
      TxnStep m a ({ m with
        waitEvents := events, signalled := signalled }.setThread i thread)
  | finished (i : ThreadId) (call : Call) (txn : Transaction)
      (running : m.threads i = .running call) (granted : call.phase = .granted)
      (known : m.transactions.get? call.txnId = some txn) :
      TxnStep m (.advance i) (m.finish i call.txnId txn call.op)
  | committed (t : TxnId) (order : List Resource) (txn : Transaction)
      (active : m.getActive t = some txn) (iterates : m.Iterates t order) :
      TxnStep m (.commit t order) (m.commit t order).1
  | aborted (t : TxnId) (order : List Resource) (txn : Transaction)
      (active : m.getActive t = some txn) (iterates : m.Iterates t order) :
      TxnStep m (.abort t order) (m.abort t order)
  | refused (t : TxnId) (order : List Resource) (a : TxnAction)
      (action : a = .commit t order ∨ a = .abort t order)
      (inactive : m.getActive t = none) : TxnStep m a m

private theorem start_spec (m : TransactionManager) (i : ThreadId) (t : TxnId)
    (op : Op) : TxnStep m (.call i t op) (m.start i t op) := by
  cases op with
  | read resource key =>
      simp only [TransactionManager.start, TransactionManager.read]
      cases hactive : m.getActive t with
      | none => exact .answered i t _ _
      | some txn =>
          cases hbuffer : txn.writeBuffer.get? (bufKey resource key) with
          | none =>
              simp only [hbuffer]
              exact .started i t _ _ txn hactive (by simp)
          | some v =>
              simp only [hbuffer]
              exact .answered i t _ _
  | write resource key value =>
      simp only [TransactionManager.start, TransactionManager.write]
      cases hactive : m.getActive t with
      | none => exact .answered i t _ _
      | some txn =>
          refine .started i t _ _ txn hactive ?_
          split
          · simp
          · split
            · simp
            · next h => exact fun _ => ⟨rfl, not_not.mp h⟩

private theorem attempt_eq (m : TransactionManager) (i : ThreadId)
    (call : Call) (otherwise : Thread) :
    m.attempt i call otherwise =
      { m with lockManager := (m.lockManager.acquire call.txnId
          call.op.resource call.op.mode).1 }.setThread i
        (if (m.lockManager.acquire call.txnId call.op.resource
            call.op.mode).2 then .running { call with phase := .granted }
          else otherwise) := rfl

private theorem attempt_spec (m : TransactionManager) (i : ThreadId)
    (call : Call) (otherwise : Thread) (running : m.threads i = .running call)
    (hphase : call.phase = .acquiring ∨ call.phase = .retrying)
    (hother : otherwise.Ungranted)
    (hsame : ∀ c, otherwise = .running c →
      c.txnId = call.txnId ∧ c.op = call.op) :
    TxnStep m (.advance i) (m.attempt i call otherwise) := by
  obtain ⟨e, granted, hacq, hrw⟩ := m.lockManager.acquire_spec call.txnId
    call.op.resource call.op.mode
  rw [attempt_eq]
  refine .locked i call call.op.mode _ e granted _ _ running
    (hphase.imp_right .inl) (.inl rfl) hacq hrw ?_
  cases (m.lockManager.acquire call.txnId call.op.resource call.op.mode).2 with
  | false => exact .inr ⟨rfl, hother, hsame⟩
  | true => exact .inl ⟨rfl, rfl⟩

private theorem tryUpgrade_spec (m : TransactionManager) (i : ThreadId)
    (call : Call) (running : m.threads i = .running call)
    (hphase : call.phase = .upgrading) :
    TxnStep m (.advance i) (m.tryUpgrade i call) := by
  have heq : m.tryUpgrade i call =
      { m with lockManager := (m.lockManager.upgrade call.txnId
          call.op.resource).1 }.setThread i
        (.running { call with phase :=
          if (m.lockManager.upgrade call.txnId call.op.resource).2 then .granted
          else .acquiring }) := rfl
  rw [heq]
  obtain ⟨e, granted, hacq, hrw, hheld, hup⟩ | ⟨hlm, hup⟩ :=
    m.lockManager.upgrade_spec call.txnId call.op.resource
  · rw [hup]
    exact .locked i call .exclusive _ e granted true _ running
      (.inr (.inr hheld)) (.inr rfl) hacq hrw (.inl ⟨rfl, rfl⟩)
  · rw [hup, hlm]
    refine .moved i call _ _ _ _ running (.inl rfl) (by simp [hphase]) ?_ ?_
    · rintro c ⟨⟩
      simp
    · rintro c ⟨⟩
      exact ⟨rfl, rfl⟩

private theorem advance_spec {m m' : TransactionManager} {i : ThreadId}
    (h : m.advance i = some m') : TxnStep m (.advance i) m' := by
  unfold TransactionManager.advance at h
  split at h
  · next call running =>
    split at h
    · next hphase =>
      obtain rfl := Option.some.inj h
      exact tryUpgrade_spec m i call running hphase
    · next hphase =>
      obtain rfl := Option.some.inj h
      refine attempt_spec m i call _ running (.inl hphase) ?_ ?_
      · rintro c ⟨⟩
        simp
      · rintro c ⟨⟩
        exact ⟨rfl, rfl⟩
    · next hphase =>
      obtain rfl := Option.some.inj h
      refine .moved i call _ _ _ _ running (.inl rfl) (by simp [hphase]) ?_ ?_
      · rintro c ⟨⟩
        simp
      · rintro c ⟨⟩
        exact ⟨rfl, rfl⟩
    · next hphase =>
      split at h
      · obtain rfl := Option.some.inj h
        refine .moved i call _ _ _ _ running (.inl rfl) (by simp [hphase])
          ?_ ?_
        · rintro c ⟨⟩
          simp
        · rintro c ⟨⟩
          exact ⟨rfl, rfl⟩
      · cases h
    · next hphase =>
      obtain rfl := Option.some.inj h
      exact attempt_spec m i call _ running (.inr hphase)
        (fun c hc => by cases hc) (fun c hc => by cases hc)
    · next hphase =>
      split at h
      · cases h
      · next txn known =>
        obtain rfl := Option.some.inj h
        exact .finished i call txn running hphase known
  · cases h

private theorem timeout_spec {m m' : TransactionManager} {i : ThreadId}
    (h : m.timeout i = some m') : TxnStep m (.timeout i) m' := by
  unfold TransactionManager.timeout at h
  split at h
  · next call running =>
    split at h
    · next hwaiting =>
      obtain rfl := Option.some.inj h
      exact .moved i call _ _ _ _ running (.inr rfl) (by simp [hwaiting])
        (fun c hc => by cases hc) (fun c hc => by cases hc)
    · cases h
  · cases h

theorem step_spec {m m' : TransactionManager} {a : TxnAction}
    (h : m.step a = some m') : TxnStep m a m' := by
  cases a with
  | begin parent =>
      cases h
      exact .began parent
  | call i t op =>
      simp only [step] at h
      split at h
      · cases h
      · cases h
        exact start_spec m i t op
  | advance i => exact advance_spec h
  | timeout i => exact timeout_spec h
  | commit t order =>
      simp only [step] at h
      split at h
      · next hiter =>
        cases h
        cases hactive : m.getActive t with
        | none =>
            have hsame : (m.commit t order).1 = m := by
              simp only [commit, hactive]
            rw [hsame]
            exact .refused t order _ (.inl rfl) hactive
        | some txn => exact .committed t order txn hactive hiter
      · cases h
  | abort t order =>
      simp only [step] at h
      split at h
      · next hiter =>
        cases h
        cases hactive : m.getActive t with
        | none =>
            have hsame : m.abort t order = m := by
              simp only [abort, hactive]
            rw [hsame]
            exact .refused t order _ (.inr rfl) hactive
        | some txn => exact .aborted t order txn hactive hiter
      · cases h

end DistributedMemory.Storage
