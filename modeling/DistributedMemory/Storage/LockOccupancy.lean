import DistributedMemory.Library.Run
import DistributedMemory.Storage.LockInvariant

/-!
# Who occupies the lock table

Only active transactions should hold or wait for a lock.  The source clears the
holdings of a transaction that ends, but not its queued requests, and it hands
the locks of a child to a parent that may have ended.  `orderly` names the steps
that stay clear of both, and a run keeps the lock table to active transactions
exactly when all its steps are orderly.
-/

namespace DistributedMemory.Storage

open DistributedMemory.Library

/-! ## Who is mentioned -/

theorem Acquires.mentions {e e' : LockEntry} {t : TxnId} {lt : LockType}
    {granted : List TxnId} {answer : Bool}
    (h : Acquires e t lt e' granted answer) (u : TxnId) :
    e'.Mentions u ↔ e.Mentions u ∨ u = t := by
  cases h with
  | covered held mode =>
      refine ⟨.inl, ?_⟩
      rintro (h | rfl)
      · exact h
      · exact .inl held
  | upgraded held alone mode =>
      refine ⟨.inl, ?_⟩
      rintro (h | rfl)
      · exact h
      · exact .inl held
  | first free =>
      simp only [LockEntry.Mentions, LockEntry.Queues, Finset.mem_insert]
      tauto
  | joined fresh mode shared =>
      simp only [LockEntry.Mentions, LockEntry.Queues, Finset.mem_insert]
      tauto
  | queued busy blocked =>
      simp only [LockEntry.Mentions, LockEntry.queues_enqueue,
        LockEntry.enqueue_holders, or_assoc]

private theorem LockEntry.handOver_mentions (e : LockEntry) (source target u : TxnId) :
    (e.handOver source target).Mentions u ↔
      (u ≠ source ∧ u ∈ e.holders) ∨ (source ∈ e.holders ∧ u = target) ∨
        e.Queues u := by
  unfold LockEntry.handOver
  split
  · next h =>
    simp only [LockEntry.Mentions, LockEntry.Queues, Finset.mem_insert,
      Finset.mem_erase, h, true_and]
    tauto
  · next h =>
    simp only [LockEntry.Mentions, h, false_and, false_or]
    refine or_congr_left ⟨fun hu => ⟨?_, hu⟩, And.right⟩
    rintro rfl
    exact h hu

namespace LockManager

def isQueued (lm : LockManager) (t : TxnId) : Bool :=
  lm.locks.items.any fun item =>
    item.2.waitQueue.any fun request => request.1 = t

theorem isQueued_iff {lm : LockManager} {t : TxnId} :
    lm.isQueued t = true ↔ ∃ r, (lm.entry r).Queues t := by
  simp only [isQueued, List.any_eq_true, decide_eq_true_eq]
  constructor
  · rintro ⟨⟨r, e⟩, hmem, ⟨u, lt⟩, hreq, rfl⟩
    refine ⟨r, lt, ?_⟩
    rw [entry_of_get? (Dict.mem_items_iff.mp hmem)]
    exact hreq
  · rintro ⟨r, lt, hreq⟩
    cases hget : lm.locks.get? r with
    | none =>
        rw [entry_of_get?_none hget] at hreq
        simp [LockEntry.new] at hreq
    | some e =>
        rw [entry_of_get? hget] at hreq
        exact ⟨(r, e), Dict.mem_items_iff.mpr hget, (t, lt), hreq, rfl⟩

def HoldsLock (lm : LockManager) (t : TxnId) : Prop :=
  ∃ r ∈ lm.recorded t, t ∈ (lm.entry r).holders

instance (lm : LockManager) (t : TxnId) : Decidable (lm.HoldsLock t) :=
  inferInstanceAs (Decidable (∃ r ∈ lm.recorded t, _))

section Ending

variable {lm : LockManager} (hvalid : lm.Valid) {t : TxnId}
  (hindexed : lm.Indexed t) {order : List Resource} (hnodup : order.Nodup)
  (hall : order.toFinset = lm.recorded t)

include hindexed hnodup hall

theorem transferLocks_mentions (p : TxnId) (r : Resource) (u : TxnId) :
    ((lm.transferLocks t p order).entry r).Mentions u ↔
      (u ≠ t ∧ u ∈ (lm.entry r).holders) ∨
        (t ∈ (lm.entry r).holders ∧ u = p) ∨ (lm.entry r).Queues u := by
  rw [transferLocks_entry _ _ _ hnodup]
  split
  · exact LockEntry.handOver_mentions _ t p u
  · next hr =>
    have hfree : t ∉ (lm.entry r).holders := fun hheld =>
      hr (List.mem_toFinset.mp (hall ▸ hindexed r hheld))
    simp only [LockEntry.Mentions, hfree, false_and, false_or]
    refine or_congr_left ⟨fun hu => ⟨?_, hu⟩, And.right⟩
    rintro rfl
    exact hfree hu

include hvalid

theorem releaseAll_mentions (r : Resource) (u : TxnId) :
    ((lm.releaseAll t order).1.entry r).Mentions u ↔
      (u ≠ t ∧ u ∈ (lm.entry r).holders) ∨ (lm.entry r).Queues u := by
  rw [releaseAll_entry hvalid.keyed t hnodup]
  split
  · exact LockEntry.drop_mentions _ t u
  · next hr =>
    refine or_congr_left ⟨fun hu => ⟨?_, hu⟩, And.right⟩
    rintro rfl
    exact hr (List.mem_toFinset.mp (hall ▸ hindexed r hu))

end Ending

end LockManager

namespace TransactionManager

/-- Every holder and every waiter of every entry is active. -/
def LocksActive (m : TransactionManager) : Prop :=
  ∀ r t, (m.lockManager.entry r).Mentions t → m.statusOf t = some .active

/-- The locks of `t` are released, or go to another transaction that is
active, or there are none. -/
def inheritsWell (m : TransactionManager) (t : TxnId) (txn : Transaction) :
    Bool :=
  match m.heir txn with
  | none => true
  | some (p, parent) =>
      (p ≠ t ∧ parent.status = .active) ∨ ¬ m.lockManager.HoldsLock t

/--
A lock is attempted for an active transaction only, and a transaction that ends
waits in no queue and leaves no lock to a transaction that is not active.
-/
def orderly (m : TransactionManager) : TxnAction → Bool
  | .advance i =>
      match m.threads i with
      | .running call =>
          (call.phase ≠ .acquiring ∧ call.phase ≠ .retrying) ∨
            m.statusOf call.txnId = some .active
      | _ => true
  | .commit t _ =>
      match m.getActive t with
      | none => true
      | some txn => !m.lockManager.isQueued t && m.inheritsWell t txn
  | .abort t _ =>
      match m.getActive t with
      | none => true
      | some _ => !m.lockManager.isQueued t
  | _ => true

/-! ## One step -/

private theorem heir_installed_none {m : TransactionManager} {t : TxnId}
    {txn x : Transaction} (h : (m.installed t txn).heir x = none) :
    m.heir x = none := by
  unfold heir at h ⊢
  split
  · rfl
  · next p hparent =>
    simp only [hparent] at h
    split
    · rfl
    · next hne =>
      simp only [hne, if_false, Option.map_eq_none_iff, installed,
        transactions_putTxn] at h ⊢
      split at h
      · cases h
      · exact h

theorem heir_of_installed {m : TransactionManager} {t p : TxnId}
    {txn x parent : Transaction} (hget : m.transactions.get? t = some txn)
    (h : (m.installed t txn).heir x = some (p, parent)) :
    ∃ parent', m.heir x = some (p, parent') := by
  unfold heir at h ⊢
  split
  · next hparent =>
    simp only [hparent] at h
    cases h
  · next q hparent =>
    simp only [hparent] at h
    split
    · next hempty =>
      simp only [hempty, if_true] at h
      cases h
    · next hne =>
      simp only [hne, if_false] at h
      obtain ⟨y, hy, heq⟩ := Option.map_eq_some_iff.mp h
      obtain ⟨rfl, -⟩ := Prod.mk.inj heq
      simp only [installed, transactions_putTxn] at hy
      split at hy
      · next hq => exact ⟨txn, by simp [hq, hget]⟩
      · exact ⟨y, by rw [show m.transactions.get? q = some y from hy]; rfl⟩

theorem heir_statusOf {m : TransactionManager} {txn : Transaction} {p : TxnId}
    {parent : Transaction} (h : m.heir txn = some (p, parent)) :
    m.statusOf p = some parent.status := by
  rw [statusOf, heir_known h, Option.map_some]

theorem LocksActive.frame {m m' : TransactionManager} (h : m.LocksActive)
    (hlocks : m'.lockManager = m.lockManager)
    (hstatus : ∀ t, m.statusOf t = some .active →
      m'.statusOf t = some .active) : m'.LocksActive := by
  intro r t ht
  rw [hlocks] at ht
  exact hstatus t (h r t ht)

theorem released_locksActive_iff {m m' : TransactionManager} (h : m.LockInv)
    (hall : m.LocksActive) {t : TxnId} {txn : Transaction}
    {order : List Resource} {status : TransactionStatus}
    (hactive : m.getActive t = some txn) (hiter : m.Iterates t order)
    (hended : status ≠ .active)
    (hlm : m'.lockManager = (m.lockManager.releaseAll t order).1)
    (hstatus : ∀ u, m'.statusOf u =
      if u = t then some status else m.statusOf u) :
    m'.LocksActive ↔ ¬ ∃ r, (m.lockManager.entry r).Queues t := by
  have hindexed := h.indexed t (not_finished_of_getActive hactive)
  simp only [LocksActive, hlm, hstatus,
    LockManager.releaseAll_mentions h.valid hindexed hiter.1 hiter.2]
  constructor
  · rintro hall' ⟨r, hqueued⟩
    have hown := hall' r t (.inr hqueued)
    rw [if_pos rfl] at hown
    exact hended (Option.some.inj hown)
  · rintro hfree r u hu
    have hne : u ≠ t := by
      rintro rfl
      rcases hu with ⟨hne, -⟩ | hqueued
      · exact hne rfl
      · exact hfree ⟨r, hqueued⟩
    rw [if_neg hne]
    exact hall r u (hu.imp And.right id)

private theorem abort_locksActive_iff {m : TransactionManager} (h : m.LockInv)
    (hall : m.LocksActive) {t : TxnId} {txn : Transaction}
    {order : List Resource} (hactive : m.getActive t = some txn)
    (hiter : m.Iterates t order) :
    (m.abort t order).LocksActive ↔ m.orderly (.abort t order) := by
  have horderly : m.orderly (.abort t order) = true ↔
      ¬ ∃ r, (m.lockManager.entry r).Queues t := by
    simp only [orderly, hactive, Bool.not_eq_true', ← Bool.not_eq_true,
      LockManager.isQueued_iff]
  rw [horderly]
  exact released_locksActive_iff h hall hactive hiter (by decide)
    (abort_lockManager hactive order) (abort_statusOf hactive order)

private theorem commit_locksActive_iff {m : TransactionManager} (h : m.LockInv)
    (hall : m.LocksActive) {t : TxnId} {txn : Transaction}
    {order : List Resource} (hactive : m.getActive t = some txn)
    (hiter : m.Iterates t order) :
    (m.commit t order).1.LocksActive ↔ m.orderly (.commit t order) := by
  have horderly : m.orderly (.commit t order) = true ↔
      (¬ ∃ r, (m.lockManager.entry r).Queues t) ∧
        m.inheritsWell t txn = true := by
    simp only [orderly, hactive, Bool.and_eq_true, Bool.not_eq_true',
      ← Bool.not_eq_true, LockManager.isQueued_iff]
  have hget := (getActive_eq_some.mp hactive).1
  have hindexed := h.indexed t (not_finished_of_getActive hactive)
  rw [horderly]
  rcases commit_lockManager hactive order with ⟨p, q, hheir, hlm⟩ | ⟨hheir, hlm⟩
  · obtain ⟨parent, hheir⟩ := heir_of_installed hget hheir
    have hp := heir_statusOf hheir
    have hwell : m.inheritsWell t txn = true ↔
        (p ≠ t ∧ m.statusOf p = some .active) ∨
          ¬ m.lockManager.HoldsLock t := by
      simp only [inheritsWell, hheir, hp, decide_eq_true_eq, Option.some.injEq]
    rw [hwell]
    simp only [LocksActive, hlm,
      LockManager.transferLocks_mentions hindexed hiter.1 hiter.2,
      commit_statusOf hactive]
    constructor
    · refine fun hall' => ⟨?_, or_iff_not_imp_right.mpr ?_⟩
      · rintro ⟨r, hqueued⟩
        have := hall' r t (.inr (.inr hqueued))
        simp at this
      · intro hheld
        obtain ⟨r, -, hheld⟩ := not_not.mp hheld
        have hheir' := hall' r p (.inr (.inl ⟨hheld, rfl⟩))
        split at hheir'
        · simp at hheir'
        · next hne => exact ⟨hne, hheir'⟩
    · rintro ⟨hfree, hwell⟩ r u hu
      rcases hu with ⟨hne, hheld⟩ | ⟨hheld, rfl⟩ | hqueued
      · rw [if_neg hne]
        exact hall r u (.inl hheld)
      · rcases hwell with ⟨hne, hstatus⟩ | hnone
        · rw [if_neg hne, hstatus]
        · refine absurd ⟨r, ?_, hheld⟩ hnone
          exact hindexed r hheld
      · have hne : u ≠ t := by
          rintro rfl
          exact hfree ⟨r, hqueued⟩
        rw [if_neg hne]
        exact hall r u (.inr hqueued)
  · have hwell : m.inheritsWell t txn = true := by
      simp only [inheritsWell, heir_installed_none hheir]
    rw [hwell]
    simp only [and_true]
    exact released_locksActive_iff h hall hactive hiter (by decide) hlm
      (commit_statusOf hactive order)

private theorem step_locksActive_iff {m m' : TransactionManager} {a : TxnAction}
    (h : m.LockInv) (hall : m.LocksActive) (hstep : m.step a = some m') :
    m'.LocksActive ↔ m.orderly a := by
  cases step_spec hstep with
  | began parent =>
      refine iff_of_true (hall.frame rfl fun t ht => ?_) rfl
      rw [begin_statusOf]
      split
      · rfl
      · exact ht
  | answered => exact iff_of_true (hall.frame rfl fun _ => id) rfl
  | started => exact iff_of_true (hall.frame rfl fun _ => id) rfl
  | locked i call lt lm e granted answer thread running attempt mode acquires
      rewrites next =>
      have horderly : m.orderly (.advance i) = true ↔
          (call.phase ≠ .acquiring ∧ call.phase ≠ .retrying) ∨
            m.statusOf call.txnId = some .active := by
        simp only [orderly, running, decide_eq_true_eq]
      rw [horderly]
      constructor
      · intro hall'
        right
        refine hall' call.op.resource call.txnId ?_
        rw [setThread_lockManager, rewrites.here]
        exact (acquires.mentions _).mpr (.inr rfl)
      · intro hok r u hu
        rw [setThread_lockManager, rewrites.entry] at hu
        split at hu
        · rcases (acquires.mentions u).mp hu with hold | rfl
          · exact hall _ u hold
          · -- The caller is active, or it held the resource already.
            rcases attempt with hphase | hphase | hheld
            · exact hok.resolve_left fun hne => hne.1 hphase
            · exact hok.resolve_left fun hne => hne.2 hphase
            · exact hall _ _ (.inl hheld)
        · exact hall r u hu
  | moved i call _ thread events signalled running action unattempted ungranted
      same =>
      refine iff_of_true (hall.frame rfl fun _ => id) ?_
      rcases action with rfl | rfl
      · simp [orderly, running, unattempted]
      · rfl
  | finished i call txn running granted known =>
      refine iff_of_true (hall.frame ?_ fun t ht => ?_) ?_
      · cases call.op <;> rfl
      · rw [finish_statusOf known, ht]
      · simp [orderly, running, granted]
  | committed t order txn active iterates =>
      exact commit_locksActive_iff h hall active iterates
  | aborted t order txn active iterates =>
      exact abort_locksActive_iff h hall active iterates
  | refused t order a action inactive =>
      refine iff_of_true hall ?_
      rcases action with rfl | rfl <;> simp [orderly, inactive]

/-! ## Runs -/

/-- The lock table belongs to active transactions in every state of a run
exactly when every step of the run is orderly. -/
theorem run_locksActive_iff (nodeId : Nat) (wal : Option Recovery.WriteAheadLog)
    (initial : Store) (actions : List TxnAction) (m : TransactionManager)
    (hrun : run step (new nodeId wal initial) actions = some m) :
    Always step LocksActive (new nodeId wal initial) actions ↔
      Along step (fun m a => m.orderly a) (new nodeId wal initial) actions := by
  refine always_iff_along (I := LockInv) ?_ ?_
    (lockInv_new nodeId wal initial) ?_ hrun
  · exact fun m a m' h hstep => h.step hstep
  · exact fun m a m' h hall hstep => step_locksActive_iff h hall hstep
  · simp [LocksActive, new]

end TransactionManager

end DistributedMemory.Storage
