import DistributedMemory.Storage.DeadlockVictim
import DistributedMemory.Storage.LockOccupancy

/-!
# The loop of the deadlock detector

The transaction manager and the thread of its detector.  A round reads the wait-for
graph and chooses a victim; the abort of the victim is a later step, and anything may
happen between the two.  Requests are never taken out of a queue, so a victim still
waits when it is aborted, and it may be given a lock after its end.

`victims` is not a field of the source.  It lists the victims of all rounds so far.
-/

namespace DistributedMemory.Storage

open DistributedMemory.Library Digraph Relation DeadlockDetector Text

structure DetectorSystem where
  manager : TransactionManager
  running : Bool
  victim : Option TxnId
  victims : List TxnId

inductive DetectorAction where
  | manager (a : TxnAction)
  | start
  | stop
  | round (g : WaitGraph) (limit : Nat)
  | abortVictim (order : List Resource)

namespace DetectorSystem

def new (nodeId : Nat) (wal : Option Recovery.WriteAheadLog) (store : Store) :
    DetectorSystem :=
  ⟨.new nodeId wal store, false, none, []⟩

/-- One round of `_detector_loop` up to its call of `on_victim`. -/
def round (s : DetectorSystem) (g : WaitGraph) (limit : Nat) :
    Option DetectorSystem :=
  match detectCycle g limit with
  | none => none
  | some none => some s
  | some (some found) =>
      (selectVictim found.cycle).map fun v =>
        { s with victim := some v, victims := s.victims ++ [v] }

/-- `stop` waits for the thread, so a new one starts between two rounds. -/
def step (s : DetectorSystem) : DetectorAction → Option DetectorSystem
  | .manager a => (s.manager.step a).map fun m => { s with manager := m }
  | .start =>
      if s.running ∨ s.victim ≠ none then none
      else some { s with running := true }
  | .stop => some { s with running := false }
  | .round g limit =>
      if s.running ∧ s.victim = none ∧
          g.edges = s.manager.lockManager.getWaitEdges then s.round g limit
      else none
  | .abortVictim order =>
      match s.victim with
      | none => none
      | some v =>
          (s.manager.step (.abort v order)).map fun m =>
            { s with manager := m, victim := none }

end DetectorSystem

/-! ## One request for each transaction -/

namespace LockManager

def requests (lm : LockManager) (t : TxnId) : List (Resource × LockType) :=
  lm.locks.items.flatMap fun item =>
    (item.2.waitQueue.filter fun request => request.1 = t).map fun request =>
      (item.1, request.2)

def isHolder (lm : LockManager) (t : TxnId) : Bool :=
  lm.locks.items.any fun item => t ∈ item.2.holders

private theorem mem_requests {lm : LockManager} {t : TxnId} {r : Resource}
    {lt : LockType} :
    (r, lt) ∈ lm.requests t ↔ (t, lt) ∈ (lm.entry r).waitQueue := by
  simp only [requests, List.mem_flatMap, List.mem_map, List.mem_filter,
    decide_eq_true_eq, Prod.exists]
  constructor
  · rintro ⟨r', e, hitem, u, lt', ⟨hmem, rfl⟩, heq⟩
    obtain ⟨rfl, rfl⟩ := Prod.mk.inj heq
    rw [entry_of_get? (Dict.mem_items_iff.mp hitem)]
    exact hmem
  · intro hmem
    cases hget : lm.locks.get? r with
    | none =>
        rw [entry_of_get?_none hget] at hmem
        simp [LockEntry.new] at hmem
    | some e =>
        rw [entry_of_get? hget] at hmem
        exact ⟨r, e, Dict.mem_items_iff.mpr hget, t, lt, ⟨hmem, rfl⟩, rfl⟩

private theorem isHolder_iff {lm : LockManager} {t : TxnId} :
    lm.isHolder t = true ↔ ∃ r, t ∈ (lm.entry r).holders := by
  simp only [isHolder, List.any_eq_true, decide_eq_true_eq, Prod.exists]
  constructor
  · rintro ⟨r, e, hitem, hheld⟩
    refine ⟨r, ?_⟩
    rw [entry_of_get? (Dict.mem_items_iff.mp hitem)]
    exact hheld
  · rintro ⟨r, hheld⟩
    cases hget : lm.locks.get? r with
    | none =>
        rw [entry_of_get?_none hget] at hheld
        simp [LockEntry.new] at hheld
    | some e =>
        rw [entry_of_get? hget] at hheld
        exact ⟨r, e, Dict.mem_items_iff.mpr hget, hheld⟩

structure OneRequest (lm : LockManager) : Prop where
  once : ∀ r, ((lm.entry r).waitQueue.map Prod.fst).Nodup
  oneQueue : ∀ t r r', (lm.entry r).Queues t → (lm.entry r').Queues t → r = r'

private theorem oneRequest_new : new.OneRequest where
  once r := by simp [LockEntry.new]
  oneQueue t r r' h := by simp [LockEntry.new, LockEntry.Queues] at h

end LockManager

namespace LockEntry

variable {e : LockEntry} {t u : TxnId}

theorem Queues.of_sublist {e' : LockEntry} (h : e'.Queues t)
    (hsublist : e'.waitQueue.Sublist e.waitQueue) : e.Queues t := by
  obtain ⟨lt, hmem⟩ := h
  exact ⟨lt, hsublist.subset hmem⟩

private theorem grantWaiting_sublist (e : LockEntry) :
    e.grantWaiting.1.waitQueue.Sublist e.waitQueue := by
  cases hqueue : e.waitQueue with
  | nil => simp [grantWaiting, hqueue]
  | cons request rest =>
      obtain ⟨first, lt⟩ := request
      cases lt with
      | exclusive => simp [grantWaiting, hqueue]
      | shared =>
          rw [grantWaiting_waitQueue hqueue]
          have hkept : (Queue.keepFirst Prod.fst e.grantWaiting.1.holders
              (rest.dropWhile fun request => request.2 = .shared)).Sublist _ :=
            Queue.keepFirst_sublist _ _
          exact (hkept.trans (List.dropWhile_sublist _)).cons (first, .shared)

private theorem granted_served (hnodup : (e.waitQueue.map Prod.fst).Nodup)
    (hu : u ∈ e.grantWaiting.2) :
    e.Queues u ∧ ¬ e.grantWaiting.1.Queues u := by
  cases hqueue : e.waitQueue with
  | nil => simp [grantWaiting, hqueue] at hu
  | cons request rest =>
      obtain ⟨first, lt⟩ := request
      cases lt with
      | exclusive =>
          have heq : u = first := by simpa [grantWaiting, hqueue] using hu
          subst heq
          rw [hqueue, List.map_cons, List.nodup_cons] at hnodup
          refine ⟨⟨.exclusive, by simp [hqueue]⟩, ?_⟩
          rw [queues_iff]
          simpa [grantWaiting, hqueue] using hnodup.1
      | shared =>
          have hheld : u ∈ e.grantWaiting.1.holders := by
            rw [grantWaiting_holders]
            exact Finset.mem_union_right _ (List.mem_toFinset.mpr hu)
          constructor
          · have hgranted : u ∈ first :: sharedRun rest := by
              simpa [grantWaiting, hqueue] using hu
            rw [queues_iff, hqueue, List.map_cons,
              map_fst_eq_sharedRun_append rest]
            rcases List.mem_cons.mp hgranted with rfl | hrun
            · simp
            · simp [hrun]
          · rw [queues_iff, grantWaiting_waitQueue hqueue,
              Queue.mem_keys_keepFirst]
            exact fun h => h.2 hheld

private theorem drop_sublist (e : LockEntry) (t : TxnId) :
    (e.drop t).1.waitQueue.Sublist e.waitQueue := by
  unfold drop
  dsimp only
  split
  · exact grantWaiting_sublist _
  · exact List.Sublist.refl _

private theorem drop_served (hnodup : (e.waitQueue.map Prod.fst).Nodup)
    (hu : u ∈ (e.drop t).2) : e.Queues u ∧ ¬ (e.drop t).1.Queues u := by
  unfold drop at hu ⊢
  dsimp only at hu ⊢
  split at hu
  · next hfree =>
    rw [if_pos hfree]
    exact granted_served (e := { e with
      holders := e.holders.erase t, lockType := none }) hnodup hu
  · cases hu

private theorem mem_handOver_holders {source target : TxnId}
    (h : u ∈ (e.handOver source target).holders) :
    (u ≠ source ∧ u ∈ e.holders) ∨ (u = target ∧ source ∈ e.holders) ∨
      (u ∈ e.holders ∧ source ∉ e.holders) := by
  unfold handOver at h
  split at h
  · next hheld =>
    rcases Finset.mem_insert.mp h with rfl | h
    · exact .inr (.inl ⟨rfl, hheld⟩)
    · exact .inl (Finset.mem_erase.mp h)
  · next hfree => exact .inr (.inr ⟨h, hfree⟩)

end LockEntry

namespace TransactionManager

/-! ## Who waits with a lock in hand -/

def WaitersActive (m : TransactionManager) : Prop :=
  ∀ t r r', t ∈ (m.lockManager.entry r).holders →
    (m.lockManager.entry r').Queues t → m.statusOf t = some .active

/-- The lock is there already, or the transaction of the call waits for nothing else,
and unless it is active it neither waits nor holds a lock at all. -/
def asksAlone (m : TransactionManager) (call : Call) : Bool :=
  let e := m.lockManager.entry call.op.resource
  (call.txnId ∈ e.holders ∧
      (call.op.mode = .shared ∨ e.lockType = some .exclusive)) ∨
    ((∀ request ∈ m.lockManager.requests call.txnId,
        request = (call.op.resource, call.op.mode)) ∧
      (m.statusOf call.txnId = some .active ∨
        (m.lockManager.isQueued call.txnId = false ∧
          m.lockManager.isHolder call.txnId = false)))

/-- Locks are asked for as `asksAlone` says, and inherited by a transaction that is ACTIVE
or waits for none. -/
def disciplined (m : TransactionManager) : TxnAction → Bool
  | .advance i =>
      match m.threads i with
      | .running call =>
          (call.phase ≠ .acquiring ∧ call.phase ≠ .retrying) ∨ m.asksAlone call
      | _ => true
  | .commit t _ =>
      match m.getActive t with
      | none => true
      | some txn =>
          match m.heir txn with
          | none => true
          | some (p, parent) =>
              (p ≠ t ∧ parent.status = .active) ∨
                m.lockManager.isQueued p = false
  | _ => true

structure DetectorInv (m : TransactionManager) : Prop where
  locks : m.LockInv
  single : m.lockManager.OneRequest
  waiters : m.WaitersActive

private theorem detectorInv_new (nodeId : Nat) (wal : Option Recovery.WriteAheadLog)
    (store : Store) : (new nodeId wal store).DetectorInv where
  locks := lockInv_new nodeId wal store
  single := LockManager.oneRequest_new
  waiters := by simp [WaitersActive, new, LockEntry.new]

section Step

variable {m m' : TransactionManager}

theorem DetectorInv.frame (h : m.DetectorInv) (hinv : m'.LockInv)
    (hholders : ∀ r, (m'.lockManager.entry r).holders =
      (m.lockManager.entry r).holders)
    (hqueue : ∀ r, (m'.lockManager.entry r).waitQueue =
      (m.lockManager.entry r).waitQueue)
    (hstatus : ∀ t, m.statusOf t = some .active →
      m'.statusOf t = some .active) : m'.DetectorInv := by
  have hqueues (r : Resource) (t : TxnId) :
      (m'.lockManager.entry r).Queues t ↔ (m.lockManager.entry r).Queues t := by
    rw [LockEntry.Queues, hqueue]
    rfl
  refine ⟨hinv, ⟨fun r => ?_, fun t r r' hr hr' => ?_⟩, fun t r r' hr hr' => ?_⟩
  · rw [hqueue]
    exact h.single.once r
  · rw [hqueues] at hr hr'
    exact h.single.oneQueue t r r' hr hr'
  · rw [hholders] at hr
    rw [hqueues] at hr'
    exact hstatus t (h.waiters t r r' hr hr')

theorem DetectorInv.ending (h : m.DetectorInv) (hinv : m'.LockInv) {t : TxnId}
    (hsublist : ∀ r, (m'.lockManager.entry r).waitQueue.Sublist
      (m.lockManager.entry r).waitQueue)
    (hheld : ∀ r u, u ∈ (m'.lockManager.entry r).holders →
      (u ≠ t ∧ u ∈ (m.lockManager.entry r).holders) ∨
      ((m.lockManager.entry r).Queues u ∧ ¬ (m'.lockManager.entry r).Queues u) ∨
      (u ≠ t ∧ m.statusOf u = some .active) ∨
      ∀ r', ¬ (m.lockManager.entry r').Queues u)
    (hstatus : ∀ u, u ≠ t → m'.statusOf u = m.statusOf u) : m'.DetectorInv where
  locks := hinv
  single :=
    { once := fun r => ((hsublist r).map Prod.fst).nodup (h.single.once r)
      oneQueue := fun u r r' hr hr' =>
        h.single.oneQueue u r r' (hr.of_sublist (hsublist r))
          (hr'.of_sublist (hsublist r')) }
  waiters u r r' hu hqueued := by
    have hbefore := hqueued.of_sublist (hsublist r')
    rcases hheld r u hu with ⟨hne, hold⟩ | ⟨hwaited, hgone⟩ | ⟨hne, hactive⟩ | hnone
    · rw [hstatus u hne]
      exact h.waiters u r r' hold hbefore
    · have hsame := h.single.oneQueue u r r' hwaited hbefore
      subst hsame
      exact absurd hqueued hgone
    · rw [hstatus u hne]
      exact hactive
    · exact absurd hbefore (hnone r')

theorem DetectorInv.released (h : m.DetectorInv) (hinv : m'.LockInv) {t : TxnId}
    {txn : Transaction} {order : List Resource}
    (hactive : m.getActive t = some txn) (hiter : m.Iterates t order)
    (hlm : m'.lockManager = (m.lockManager.releaseAll t order).1)
    (hstatus : ∀ u, u ≠ t → m'.statusOf u = m.statusOf u) : m'.DetectorInv := by
  have hindexed := h.locks.indexed t (not_finished_of_getActive hactive)
  have hentry (r : Resource) : m'.lockManager.entry r =
      if r ∈ order then ((m.lockManager.entry r).drop t).1
      else m.lockManager.entry r := by
    rw [hlm, LockManager.releaseAll_entry h.locks.valid.keyed t hiter.1]
  refine h.ending hinv (t := t) (fun r => ?_) (fun r u hu => ?_) hstatus
  · rw [hentry]
    split
    · exact LockEntry.drop_sublist _ t
    · exact List.Sublist.refl _
  · rw [hentry] at hu ⊢
    split at hu
    · next hmem =>
      rw [if_pos hmem]
      rcases LockEntry.mem_drop_holders.mp hu with hold | hgranted
      · exact .inl hold
      · exact .inr (.inl (LockEntry.drop_served (h.single.once r) hgranted))
    · next hnot =>
      refine .inl ⟨?_, hu⟩
      rintro rfl
      exact hnot (List.mem_toFinset.mp (hiter.2 ▸ hindexed r hu))

theorem DetectorInv.abort (h : m.DetectorInv) {t : TxnId} {txn : Transaction}
    {order : List Resource} (hactive : m.getActive t = some txn)
    (hiter : m.Iterates t order) : (m.abort t order).DetectorInv := by
  refine h.released (h.locks.abort hactive hiter) hactive hiter
    (abort_lockManager hactive order) fun u hne => ?_
  rw [abort_statusOf hactive, if_neg hne]

theorem DetectorInv.commit (h : m.DetectorInv) {t : TxnId} {txn : Transaction}
    {order : List Resource} (hactive : m.getActive t = some txn)
    (hiter : m.Iterates t order)
    (hok : m.disciplined (.commit t order) = true) :
    (m.commit t order).1.DetectorInv := by
  have hinv := h.locks.commit hactive hiter
  have hstatus : ∀ u, u ≠ t → (m.commit t order).1.statusOf u = m.statusOf u := by
    intro u hne
    rw [commit_statusOf hactive, if_neg hne]
  have hget := (getActive_eq_some.mp hactive).1
  have hindexed := h.locks.indexed t (not_finished_of_getActive hactive)
  rcases commit_lockManager hactive order with ⟨p, q, hheir, hlm⟩ | ⟨-, hlm⟩
  · obtain ⟨parent, hheir⟩ := heir_of_installed hget hheir
    have hparent := heir_statusOf hheir
    simp only [disciplined, hactive, hheir, decide_eq_true_eq] at hok
    refine h.ending hinv (t := t) (fun r => ?_) (fun r u hu => ?_) hstatus
    · rw [hlm, LockManager.transferLocks_entry _ _ _ hiter.1]
      split
      · rw [LockEntry.handOver_waitQueue]
      · exact List.Sublist.refl _
    · have hfree : u = t → r ∉ order → u ∉ (m.lockManager.entry r).holders := by
        rintro rfl hnot hold
        exact hnot (List.mem_toFinset.mp (hiter.2 ▸ hindexed r hold))
      rw [hlm, LockManager.transferLocks_entry _ _ _ hiter.1] at hu
      split at hu
      · rcases LockEntry.mem_handOver_holders hu with hold | ⟨rfl, -⟩ | ⟨hold, hnot⟩
        · exact .inl hold
        · rcases hok with ⟨hne, hrunning⟩ | hidle
          · exact .inr (.inr (.inl ⟨hne, by rw [hparent, hrunning]⟩))
          · refine .inr (.inr (.inr fun r' hqueued => ?_))
            rw [LockManager.isQueued_iff.mpr ⟨r', hqueued⟩] at hidle
            cases hidle
        · refine .inl ⟨?_, hold⟩
          rintro rfl
          exact hnot hold
      · next hnot =>
        refine .inl ⟨?_, hu⟩
        rintro rfl
        exact hfree rfl hnot hu
  · exact h.released hinv hactive hiter hlm hstatus

/-! ### Lock attempts -/

private theorem advance_lockManager {i : ThreadId} {call : Call}
    (hrunning : m.threads i = .running call) (h : m.advance i = some m') :
    m'.lockManager = m.lockManager ∨
      m'.lockManager =
        (m.lockManager.upgrade call.txnId call.op.resource).1 ∨
      ((call.phase = .acquiring ∨ call.phase = .retrying) ∧
        m'.lockManager = (m.lockManager.acquire call.txnId call.op.resource
          call.op.mode).1) := by
  simp only [advance, hrunning] at h
  split at h
  · cases h
    exact .inr (.inl rfl)
  · next hphase =>
    cases h
    exact .inr (.inr ⟨.inl hphase, rfl⟩)
  · cases h
    exact .inl rfl
  · split at h
    · cases h
      exact .inl rfl
    · cases h
  · next hphase =>
    cases h
    exact .inr (.inr ⟨.inr hphase, rfl⟩)
  · split at h
    · cases h
    · cases h
      cases call.op <;> exact .inl rfl

private theorem advance_statusOf {i : ThreadId} (h : m.advance i = some m') (u : TxnId) :
    m'.statusOf u = m.statusOf u := by
  cases step_spec (a := .advance i) h with
  | finished _ call txn _ _ known => exact finish_statusOf known i call.op u
  | refused t order _ action =>
      rcases action with heq | heq <;> cases heq
  | _ => rfl

theorem DetectorInv.acquire (h : m.DetectorInv) (hinv : m'.LockInv) {call : Call}
    (hlm : m'.lockManager = (m.lockManager.acquire call.txnId call.op.resource
      call.op.mode).1)
    (hstatus : ∀ u, m'.statusOf u = m.statusOf u)
    (hasks : m.asksAlone call = true) : m'.DetectorInv := by
  obtain ⟨e, granted, hacq, hrw⟩ := m.lockManager.acquire_spec call.txnId
    call.op.resource call.op.mode
  rw [← hlm] at hrw
  generalize hanswer : (m.lockManager.acquire call.txnId call.op.resource
    call.op.mode).2 = answer at hacq
  clear hanswer hlm
  set t := call.txnId
  set r := call.op.resource
  have hasks' : (t ∈ (m.lockManager.entry r).holders ∧
      (call.op.mode = .shared ∨
        (m.lockManager.entry r).lockType = some .exclusive)) ∨
      ((∀ r' lt, (t, lt) ∈ (m.lockManager.entry r').waitQueue →
          r' = r ∧ lt = call.op.mode) ∧
        (m.statusOf t = some .active ∨
          (∀ r', ¬ (m.lockManager.entry r').Queues t) ∧
            ∀ r', t ∉ (m.lockManager.entry r').holders)) := by
    simp only [asksAlone, Bool.decide_or, Bool.decide_and, Bool.or_eq_true,
      Bool.and_eq_true, decide_eq_true_eq, ← Bool.not_eq_true,
      LockManager.isQueued_iff, LockManager.isHolder_iff, not_exists] at hasks
    refine hasks.imp_right fun h => ⟨fun r' lt hmem => ?_, h.2⟩
    exact Prod.mk.inj (h.1 (r', lt) (LockManager.mem_requests.mpr hmem))
  -- An entry whose queue is left, with the caller perhaps a new holder.
  have hgrant (hqueue : e.waitQueue = (m.lockManager.entry r).waitQueue)
      (hholders : ∀ u ∈ e.holders, u ∈ (m.lockManager.entry r).holders ∨
        (u = t ∧ t ∉ (m.lockManager.entry r).holders)) : m'.DetectorInv := by
    have hqueues (r' : Resource) : (m'.lockManager.entry r').waitQueue =
        (m.lockManager.entry r').waitQueue := by
      rw [hrw.entry]
      split
      · next heq => rw [hqueue, heq]
      · rfl
    refine ⟨hinv, ⟨fun r' => ?_, fun u r₁ r₂ h₁ h₂ => ?_⟩,
      fun u r₁ r₂ h₁ h₂ => ?_⟩
    · rw [hqueues]
      exact h.single.once r'
    · rw [LockEntry.Queues, hqueues] at h₁ h₂
      exact h.single.oneQueue u r₁ r₂ h₁ h₂
    · rw [LockEntry.Queues, hqueues] at h₂
      rw [hstatus]
      rw [hrw.entry] at h₁
      split at h₁
      · next heq =>
        rcases hholders u h₁ with hold | ⟨rfl, hfree⟩
        · exact h.waiters u r r₂ hold h₂
        · rcases hasks' with ⟨hheld, -⟩ | ⟨-, hactive | ⟨hidle, -⟩⟩
          · exact absurd hheld hfree
          · exact hactive
          · exact absurd h₂ (hidle r₂)
      · exact h.waiters u r₁ r₂ h₁ h₂
  cases hacq with
  | covered held mode => exact hgrant rfl fun u hu => .inl hu
  | upgraded held alone mode => exact hgrant rfl fun u hu => .inl hu
  | first free =>
      refine hgrant rfl fun u hu => ?_
      rcases Finset.mem_insert.mp hu with rfl | hu
      · exact .inr ⟨rfl, by simp [free]⟩
      · exact .inl hu
  | joined fresh mode shared =>
      refine hgrant rfl fun u hu => ?_
      rcases Finset.mem_insert.mp hu with rfl | hu
      · exact .inr ⟨rfl, fresh⟩
      · exact .inl hu
  | queued busy blocked =>
      have hwaits := hasks'.resolve_left fun hfits =>
        blocked ⟨hfits.1, hfits.2.elim (fun hs => .inr (.inl hs)) .inl⟩
      obtain ⟨honly, hfit⟩ := hwaits
      have hqueues (r' : Resource) (u : TxnId) :
          (m'.lockManager.entry r').Queues u →
            (m.lockManager.entry r').Queues u ∨ (u = t ∧ r' = r) := by
        rw [hrw.entry]
        split
        · next heq =>
          rw [LockEntry.queues_enqueue, heq]
          exact Or.imp_right fun hu => ⟨hu, rfl⟩
        · exact .inl
      have hown (r' : Resource) (hr' : (m.lockManager.entry r').Queues t) :
          r' = r := by
        obtain ⟨lt, hmem⟩ := hr'
        exact (honly r' lt hmem).1
      refine ⟨hinv, ⟨fun r' => ?_, fun u r₁ r₂ h₁ h₂ => ?_⟩,
        fun u r₁ r₂ h₁ h₂ => ?_⟩
      · rw [hrw.entry]
        split
        · unfold LockEntry.enqueue
          split
          · exact h.single.once r
          · next hfresh =>
            rw [List.map_append, List.nodup_append]
            refine ⟨h.single.once r, by simp, ?_⟩
            rintro u hu v hv rfl
            obtain rfl : u = t := by simpa using hv
            obtain ⟨lt, hmem⟩ := LockEntry.queues_iff.mpr hu
            rw [(honly r lt hmem).2] at hmem
            exact hfresh hmem
        · exact h.single.once r'
      · rcases hqueues r₁ u h₁ with h₁ | ⟨rfl, rfl⟩
        · rcases hqueues r₂ u h₂ with h₂ | ⟨rfl, rfl⟩
          · exact h.single.oneQueue u r₁ r₂ h₁ h₂
          · exact hown r₁ h₁
        · rcases hqueues r₂ t h₂ with h₂ | ⟨-, rfl⟩
          · exact (hown r₂ h₂).symm
          · rfl
      · have hheld : u ∈ (m.lockManager.entry r₁).holders := by
          rw [hrw.entry] at h₁
          split at h₁
          · next heq =>
            rw [heq]
            simpa using h₁
          · exact h₁
        rw [hstatus]
        rcases hqueues r₂ u h₂ with h₂ | ⟨rfl, -⟩
        · exact h.waiters u r₁ r₂ hheld h₂
        · rcases hfit with hactive | ⟨-, hnone⟩
          · exact hactive
          · exact absurd hheld (hnone r₁)

theorem DetectorInv.advance (h : m.DetectorInv) {i : ThreadId}
    (hok : m.disciplined (.advance i) = true) (hstep : m.advance i = some m') :
    m'.DetectorInv := by
  have hinv := h.locks.step (a := .advance i) hstep
  have hstatus := advance_statusOf hstep
  cases hthread : m.threads i with
  | idle => simp [TransactionManager.advance, hthread] at hstep
  | returned reply => simp [TransactionManager.advance, hthread] at hstep
  | running call =>
      have hframe (hlm : m'.lockManager = m.lockManager) : m'.DetectorInv :=
        h.frame hinv (fun r => by rw [hlm]) (fun r => by rw [hlm])
          fun t ht => (hstatus t).trans ht
      rcases advance_lockManager hthread hstep with hlm | hlm | ⟨hphase, hlm⟩
      · exact hframe hlm
      · rcases m.lockManager.upgrade_spec call.txnId call.op.resource with
          ⟨e, granted, hacq, hrw, hheld, -⟩ | ⟨hsame, -⟩
        · rw [← hlm] at hrw
          have hentry : e.holders = (m.lockManager.entry call.op.resource).holders ∧
              e.waitQueue = (m.lockManager.entry call.op.resource).waitQueue := by
            cases hacq with
            | covered => exact ⟨rfl, rfl⟩
            | upgraded => exact ⟨rfl, rfl⟩
            | first free => simp [free] at hheld
            | joined fresh => exact absurd hheld fresh
          refine h.frame hinv (fun r => ?_) (fun r => ?_)
            fun t ht => (hstatus t).trans ht
          · rw [hrw.entry]
            split
            · next heq => rw [hentry.1, heq]
            · rfl
          · rw [hrw.entry]
            split
            · next heq => rw [hentry.2, heq]
            · rfl
        · exact hframe (hlm.trans hsame)
      · refine h.acquire hinv hlm hstatus ?_
        simp only [disciplined, hthread, decide_eq_true_eq] at hok
        exact hok.resolve_left fun hnot =>
          hphase.elim (fun ha => hnot.1 ha) fun hr => hnot.2 hr

theorem DetectorInv.step (h : m.DetectorInv) {a : TxnAction}
    (hok : m.disciplined a = true) (hstep : m.step a = some m') :
    m'.DetectorInv := by
  have hinv := h.locks.step hstep
  cases a with
  | advance i => exact h.advance hok hstep
  | begin parent =>
      cases hstep
      refine h.frame hinv (fun _ => rfl) (fun _ => rfl) fun t ht => ?_
      rw [begin_statusOf]
      split
      · rfl
      · exact ht
  | call i t op =>
      cases step_spec hstep with
      | answered => exact h.frame hinv (fun _ => rfl) (fun _ => rfl) fun _ => id
      | started => exact h.frame hinv (fun _ => rfl) (fun _ => rfl) fun _ => id
      | moved _ _ _ _ _ _ _ action => rcases action with heq | heq <;> cases heq
      | refused _ _ _ action => rcases action with heq | heq <;> cases heq
  | timeout i =>
      cases step_spec hstep with
      | moved => exact h.frame hinv (fun _ => rfl) (fun _ => rfl) fun _ => id
      | refused _ _ _ action => rcases action with heq | heq <;> cases heq
  | commit t order =>
      cases step_spec hstep with
      | committed _ _ txn active iterates => exact h.commit active iterates hok
      | moved _ _ _ _ _ _ _ action => rcases action with heq | heq <;> cases heq
      | refused => exact h
  | abort t order =>
      cases step_spec hstep with
      | aborted _ _ txn active iterates => exact h.abort active iterates
      | moved _ _ _ _ _ _ _ action => rcases action with heq | heq <;> cases heq
      | refused => exact h

end Step

theorem step_known {m m' : TransactionManager} {a : TxnAction}
    (hstep : m.step a = some m') {t : TxnId} (hknown : m.statusOf t ≠ none) :
    m'.statusOf t ≠ none := by
  cases step_spec hstep with
  | began parent =>
      rw [begin_statusOf]
      split
      · simp
      · exact hknown
  | finished i call txn running granted known =>
      rw [finish_statusOf known]
      exact hknown
  | committed u order txn active =>
      rw [commit_statusOf active]
      split
      · simp
      · exact hknown
  | aborted u order txn active =>
      rw [abort_statusOf active]
      split
      · simp
      · exact hknown
  | _ => exact hknown

theorem Finished.step {m m' : TransactionManager} {a : TxnAction} {t : TxnId}
    (h : m.Finished t) (hinv : m.LockInv) (hstep : m.step a = some m') :
    m'.Finished t := by
  have hfresh : t ≠ txnName m.nodeId (m.seq + 1) := by
    rintro rfl
    simp [Finished, hinv.fresh] at h
  rcases step_statusOf hstep hfresh with hsame | ⟨hactive, -⟩
  · rw [Finished, hsame]
    exact h
  · simp [Finished, hactive] at h

theorem abort_finished {m m' : TransactionManager} {t : TxnId}
    {order : List Resource} (hknown : m.statusOf t ≠ none)
    (hstep : m.step (.abort t order) = some m') : m'.Finished t := by
  cases step_spec hstep with
  | aborted _ _ txn active => simp [Finished, abort_statusOf active]
  | moved _ _ _ _ _ _ _ action => rcases action with heq | heq <;> cases heq
  | refused _ _ _ action inactive =>
      rcases action with heq | heq
      · cases heq
      · cases heq
        cases hget : m.transactions.get? t with
        | none => simp [statusOf, hget] at hknown
        | some txn =>
            have hended : txn.status ≠ .active := fun hactive => by
              rw [getActive_eq_some.mpr ⟨hget, hactive⟩] at inactive
              cases inactive
            cases hstatus : txn.status with
            | active => exact absurd hstatus hended
            | committed => simp [Finished, statusOf, hget, hstatus]
            | aborted => simp [Finished, statusOf, hget, hstatus]

theorem DetectorInv.active_of_cycle {m : TransactionManager} (h : m.DetectorInv)
    {t : TxnId} (hcycle : TransGen m.lockManager.Waits t t) :
    m.statusOf t = some .active := by
  obtain ⟨_, ⟨r', hqueued, -⟩, -⟩ := TransGen.head'_iff.mp hcycle
  obtain ⟨_, -, r, -, hheld⟩ := TransGen.tail'_iff.mp hcycle
  exact h.waiters t r r' hheld hqueued

end TransactionManager

/-! ## The rounds -/

namespace DeadlockDetector

private theorem txnSortKey_txnName (nodeId seq : Nat) :
    txnSortKey (txnName nodeId seq) = some seq := by
  have hunscored (n : Nat) : '_' ∉ showNat n := fun hmem => by
    have hdigit := isDigit_of_mem_showNat hmem
    cases hdigit
  have hchars : (txnName nodeId seq).toList = "node".toList ++ '_' ::
      (showNat nodeId ++ '_' :: ("txn".toList ++ '_' :: showNat seq)) := by
    simp [txnName, showNat]
  have hparts : (txnName nodeId seq).toList.splitOn '_' =
      ["node".toList, showNat nodeId, "txn".toList, showNat seq] := by
    rw [hchars]
    simp only [List.splitOn_append_cons_self,
      List.splitOn_eq_singleton (hunscored nodeId),
      List.splitOn_eq_singleton (hunscored seq)]
    rfl
  have hnumbers : ["node".toList, showNat nodeId, "txn".toList, showNat seq].filter
      isDigit = [showNat nodeId, showNat seq] := by
    have hnode : isDigit "node".toList = false := by decide
    have htxn : isDigit "txn".toList = false := by decide
    rw [List.filter_cons_of_neg (Bool.eq_false_iff.mp hnode),
      List.filter_cons_of_pos (isDigit_showNat nodeId),
      List.filter_cons_of_neg (Bool.eq_false_iff.mp htxn),
      List.filter_cons_of_pos (isDigit_showNat seq), List.filter_nil]
  have hparse (n : Nat) : parseInt (showNat n) = some (n : Int) := parseInt_showInt n
  simp only [txnSortKey, hparts, hnumbers]
  simp [hparse]

private theorem selectVictim_ne_none {cycle : List TxnId} (h : cycle ≠ [])
    (hkeys : ∀ t ∈ cycle, txnSortKey t ≠ none) : selectVictim cycle ≠ none := by
  have hall : cycle.eraseDups ≠ [] := by
    obtain ⟨t, rest, rfl⟩ := List.exists_cons_of_ne_nil h
    intro hempty
    have hmem : t ∈ (t :: rest).eraseDups := List.mem_eraseDups.mpr (by simp)
    rw [hempty] at hmem
    cases hmem
  have hchosen (unique : List TxnId) (hne : unique ≠ [])
      (hsub : ∀ t ∈ unique, t ∈ cycle) :
      (if unique.any fun txn => txnSortKey txn = none then none
        else unique.argmax fun txn => (txnSortKey txn).getD 0) ≠ none := by
    have hkeyed : ¬ (unique.any fun txn => txnSortKey txn = none) = true := by
      simpa using fun t ht => hkeys t (hsub t ht)
    rw [if_neg hkeyed, Ne, List.argmax_eq_none]
    exact hne
  unfold selectVictim
  refine hchosen _ ?_ fun t ht => ?_
  · split
    · exact hall
    · assumption
  · split at ht
    · exact List.mem_eraseDups.mp ht
    · exact List.mem_of_mem_filter (List.mem_eraseDups.mp ht)

end DeadlockDetector

namespace DetectorSystem

variable {s s' : DetectorSystem}

def Disciplined (s : DetectorSystem) : DetectorAction → Prop
  | .manager a => s.manager.disciplined a = true
  | _ => True

instance (s : DetectorSystem) : ∀ a, Decidable (s.Disciplined a)
  | .manager a => inferInstanceAs (Decidable (s.manager.disciplined a = true))
  | .start | .stop | .round _ _ | .abortVictim _ => isTrue trivial

structure Picks (s s' : DetectorSystem) (v : TxnId) : Prop where
  cycle : TransGen s.manager.lockManager.Waits v v
  manager : s'.manager = s.manager
  victim : s'.victim = some v
  victims : s'.victims = s.victims ++ [v]

theorem round_spec {g : WaitGraph} {limit : Nat}
    (hedges : g.edges = s.manager.lockManager.getWaitEdges)
    (hround : s.round g limit = some s') :
    (∃ v, Picks s s' v) ∨
      (s' = s ∧ ∀ t, ¬ TransGen s.manager.lockManager.Waits t t) := by
  rw [← LockManager.edge_eq_waits hedges]
  obtain ⟨result, hresult, hnone, hsome⟩ := detectCycle_correct g
  have hlarge (out : Option FoundCycle) (hout : detectCycle g limit = some out) :
      out = result := by
    have hmax := detectCycle_mono (Nat.le_max_left limit (g.nodes.card + 1)) hout
    rw [hresult _ (by omega)] at hmax
    exact (Option.some.inj hmax).symm
  unfold DetectorSystem.round at hround
  split at hround
  · cases hround
  · next hout =>
    cases hround
    exact .inr ⟨rfl, hnone.mp (hlarge none hout).symm⟩
  · next found hout =>
    obtain ⟨v, hv, rfl⟩ := Option.map_eq_some_iff.mp hround
    obtain ⟨-, ⟨a, inner, hsplit, -⟩, hlinked⟩ :=
      hsome found (hlarge (some found) hout).symm
    have hmem := mem_of_selectVictim hv
    rw [hsplit] at hlinked hmem
    have hcycle := transGen_self_of_isChain hlinked hmem
    rw [LockManager.edge_eq_waits hedges] at hcycle
    exact .inl ⟨v, hcycle, rfl, rfl, rfl⟩

theorem exists_round (h : s.manager.DetectorInv) {g : WaitGraph} {limit : Nat}
    (hedges : g.edges = s.manager.lockManager.getWaitEdges)
    (hlimit : g.nodes.card < limit) : ∃ s', s.round g limit = some s' := by
  obtain ⟨result, hresult, -, hsome⟩ := detectCycle_correct g
  unfold DetectorSystem.round
  rw [hresult limit hlimit]
  cases result with
  | none => exact ⟨s, rfl⟩
  | some found =>
      obtain ⟨-, ⟨a, inner, hsplit, -⟩, hlinked⟩ := hsome found rfl
      have hcycle : found.cycle ≠ [] := by simp [hsplit]
      have hkeys : ∀ t ∈ found.cycle, txnSortKey t ≠ none := by
        intro t ht
        rw [LockManager.edge_eq_waits hedges, hsplit] at hlinked
        rw [hsplit] at ht
        have hactive := h.active_of_cycle (transGen_self_of_isChain hlinked ht)
        obtain ⟨i, -, rfl⟩ := h.locks.named t .active hactive
        simp [txnSortKey_txnName]
      obtain ⟨v, hv⟩ := Option.ne_none_iff_exists'.mp
        (selectVictim_ne_none hcycle hkeys)
      exact ⟨_, by simp only [hv, Option.map_some]; rfl⟩

/-- Every victim has a name, and all but the one of this round have ended. -/
structure Inv (s : DetectorSystem) : Prop where
  manager : s.manager.DetectorInv
  nodup : s.victims.Nodup
  named : ∀ v ∈ s.victims, s.manager.statusOf v ≠ none
  ended : ∀ v ∈ s.victims, s.victim = some v ∨ s.manager.Finished v
  pending : ∀ v, s.victim = some v → v ∈ s.victims

theorem inv_new (nodeId : Nat) (wal : Option Recovery.WriteAheadLog)
    (store : Store) : (new nodeId wal store).Inv where
  manager := TransactionManager.detectorInv_new nodeId wal store
  nodup := List.nodup_nil
  named _ hv := absurd hv List.not_mem_nil
  ended _ hv := absurd hv List.not_mem_nil
  pending v hv := by cases hv

theorem Inv.step (h : s.Inv) {a : DetectorAction} (hok : s.Disciplined a)
    (hstep : s.step a = some s') : s'.Inv := by
  cases a with
  | manager a =>
      obtain ⟨m, hm, rfl⟩ := Option.map_eq_some_iff.mp hstep
      refine ⟨h.manager.step hok hm, h.nodup, fun v hv => ?_, fun v hv => ?_,
        h.pending⟩
      · exact TransactionManager.step_known hm (h.named v hv)
      · exact (h.ended v hv).imp_right fun hfinished =>
          hfinished.step h.manager.locks hm
  | start =>
      simp only [DetectorSystem.step] at hstep
      split at hstep
      · cases hstep
      · cases hstep
        exact ⟨h.manager, h.nodup, h.named, h.ended, h.pending⟩
  | stop =>
      cases hstep
      exact ⟨h.manager, h.nodup, h.named, h.ended, h.pending⟩
  | round g limit =>
      simp only [DetectorSystem.step] at hstep
      split at hstep
      · next hready =>
        obtain ⟨-, hidle, hedges⟩ := hready
        rcases round_spec hedges hstep with ⟨v, hpicks⟩ | ⟨rfl, -⟩
        · have hactive := h.manager.active_of_cycle hpicks.cycle
          have hfinished : ∀ u ∈ s.victims, s.manager.Finished u := fun u hu =>
            (h.ended u hu).resolve_left (by simp [hidle])
          refine ⟨hpicks.manager ▸ h.manager, ?_, fun u hu => ?_, fun u hu => ?_,
            fun u hu => ?_⟩
          · rw [hpicks.victims, List.nodup_append]
            refine ⟨h.nodup, by simp, ?_⟩
            rintro u hu w hw rfl
            obtain rfl : u = v := by simpa using hw
            have := hfinished u hu
            simp [TransactionManager.Finished, hactive] at this
          · rw [hpicks.manager]
            rw [hpicks.victims] at hu
            rcases List.mem_append.mp hu with hu | hu
            · exact h.named u hu
            · rw [List.mem_singleton.mp hu, hactive]
              simp
          · rw [hpicks.manager, hpicks.victim]
            rw [hpicks.victims] at hu
            rcases List.mem_append.mp hu with hu | hu
            · exact .inr (hfinished u hu)
            · exact .inl (by rw [List.mem_singleton.mp hu])
          · rw [hpicks.victim] at hu
            cases hu
            simp [hpicks.victims]
        · exact h
      · cases hstep
  | abortVictim order =>
      simp only [DetectorSystem.step] at hstep
      split at hstep
      · cases hstep
      · next v hv =>
        obtain ⟨m, hm, rfl⟩ := Option.map_eq_some_iff.mp hstep
        refine ⟨h.manager.step rfl hm, h.nodup, fun u hu => ?_, fun u hu => ?_,
          fun u hu => by cases hu⟩
        · exact TransactionManager.step_known hm (h.named u hu)
        · right
          rcases h.ended u hu with hvictim | hfinished
          · obtain rfl : v = u := Option.some.inj (hv.symm.trans hvictim)
            exact TransactionManager.abort_finished (h.named v hu) hm
          · exact hfinished.step h.manager.locks hm

/-- What the detector does about deadlocks.  `rounds` is how a round that has the room
to recurse comes out, and `picked` and `aborted` are what becomes of its victim. -/
structure Clears (s : DetectorSystem) : Prop where
  distinct : s.victims.Nodup
  bounded : s.victims.length ≤ s.manager.transactions.items.length
  ended : ∀ v ∈ s.victims, s.victim = some v ∨ s.manager.Finished v
  rounds : s.running = true → s.victim = none → ∀ (g : WaitGraph) (limit : Nat),
    g.edges = s.manager.lockManager.getWaitEdges → g.nodes.card < limit →
      ∃ s', s.step (.round g limit) = some s' ∧
        (s'.victim = none ↔ ∀ t, ¬ TransGen s.manager.lockManager.Waits t t)
  picked : ∀ g limit s', s.step (.round g limit) = some s' →
    ∀ v, s'.victim = some v → TransGen s.manager.lockManager.Waits v v ∧
      s.manager.statusOf v = some .active ∧ v ∉ s.victims
  aborted : ∀ v, s.victim = some v →
    (∃ order s', s.step (.abortVictim order) = some s') ∧
      ∀ order s', s.step (.abortVictim order) = some s' →
        s'.manager.Finished v ∧ ¬ TransGen s'.manager.lockManager.Waits v v

theorem Inv.clears (h : s.Inv) : s.Clears where
  distinct := h.nodup
  bounded := by
    have hsub : s.victims ⊆ s.manager.transactions.items.map Prod.fst := by
      intro v hv
      obtain ⟨status, hstatus⟩ := Option.ne_none_iff_exists'.mp (h.named v hv)
      obtain ⟨txn, htxn, -⟩ := Option.map_eq_some_iff.mp hstatus
      exact List.mem_map.mpr ⟨(v, txn), Dict.mem_items_iff.mpr htxn, rfl⟩
    simpa using (h.nodup.subperm hsub).length_le
  ended := h.ended
  rounds hrunning hidle g limit hedges hlimit := by
    obtain ⟨s', hround⟩ := exists_round h.manager hedges hlimit
    have hstep : s.step (.round g limit) = some s' := by
      rw [DetectorSystem.step, if_pos ⟨hrunning, hidle, hedges⟩]
      exact hround
    refine ⟨s', hstep, ?_⟩
    rcases round_spec hedges hround with ⟨v, hpicks⟩ | ⟨rfl, hnone⟩
    · exact iff_of_false (by simp [hpicks.victim]) fun hno => hno v hpicks.cycle
    · exact iff_of_true hidle hnone
  picked g limit s' hstep v hv := by
    simp only [DetectorSystem.step] at hstep
    split at hstep
    · next hready =>
      obtain ⟨-, hidle, hedges⟩ := hready
      rcases round_spec hedges hstep with ⟨u, hpicks⟩ | ⟨rfl, -⟩
      · obtain rfl : u = v := Option.some.inj (hpicks.victim.symm.trans hv)
        have hactive := h.manager.active_of_cycle hpicks.cycle
        refine ⟨hpicks.cycle, hactive, fun hmem => ?_⟩
        have hfinished := (h.ended u hmem).resolve_left (by simp [hidle])
        simp [TransactionManager.Finished, hactive] at hfinished
      · rw [hidle] at hv
        cases hv
    · cases hstep
  aborted v hv := by
    constructor
    · refine ⟨(s.manager.lockManager.recorded v).toList, ?_⟩
      have hiter : s.manager.Iterates v
          (s.manager.lockManager.recorded v).toList :=
        ⟨Finset.nodup_toList _, Finset.toList_toFinset _⟩
      simp only [DetectorSystem.step, hv, TransactionManager.step, if_pos hiter]
      exact ⟨_, rfl⟩
    · intro order s' hstep
      have h' := h.step (a := .abortVictim order) trivial hstep
      simp only [DetectorSystem.step, hv] at hstep
      obtain ⟨m, hm, rfl⟩ := Option.map_eq_some_iff.mp hstep
      have hfinished := TransactionManager.abort_finished
        (h.named v (h.pending v hv)) hm
      refine ⟨hfinished, fun hcycle => ?_⟩
      have hactive := h'.manager.active_of_cycle hcycle
      simp [TransactionManager.Finished, hactive] at hfinished

/-- In every `Disciplined` run of the transaction manager with its detector no round picks
a transaction twice or one that has ended, so there are at most as many rounds with a
victim as transactions; a round finds a victim exactly when there is a deadlock, and once
it is aborted the victim is in none. -/
theorem run_clears {nodeId : Nat} {wal : Option Recovery.WriteAheadLog}
    {store : Store} {actions : List DetectorAction}
    (hok : Along step Disciplined (new nodeId wal store) actions)
    (hrun : run step (new nodeId wal store) actions = some s) : s.Clears := by
  have hinv : s.Inv := run_invariant (I := Inv)
    (fun s a s' h hok hstep => h.step hok hstep) (inv_new nodeId wal store) hok hrun
  exact hinv.clears

/-! ## Two writers -/

def crossedGraph : WaitGraph where
  edges := ⟨[("node_1_txn_2", {"node_1_txn_1"}), ("node_1_txn_1", {"node_1_txn_2"})],
    by decide⟩
  neighbors t :=
    if t = "node_1_txn_2" then ["node_1_txn_1"]
    else if t = "node_1_txn_1" then ["node_1_txn_2"] else []
  iterates t := by
    by_cases h₂ : t = "node_1_txn_2"
    · subst h₂
      decide
    · by_cases h₁ : t = "node_1_txn_1"
      · subst h₁
        decide
      · simp [h₁, h₂, Dict.get?, Ne.symm h₁, Ne.symm h₂]

/-- The second writer is aborted, and the first one gets its lock. -/
def crossedWriters : List DetectorAction :=
  [.start, .manager (.begin none), .manager (.begin none),
    .manager (.call 0 "node_1_txn_1" (.write "x" "k" "a")),
    .manager (.advance 0), .manager (.advance 0),
    .manager (.call 1 "node_1_txn_2" (.write "y" "k" "b")),
    .manager (.advance 1), .manager (.advance 1),
    .manager (.call 0 "node_1_txn_1" (.write "y" "k" "a")),
    .manager (.advance 0), .manager (.advance 0),
    .manager (.call 1 "node_1_txn_2" (.write "x" "k" "b")),
    .manager (.advance 1), .manager (.advance 1),
    .round crossedGraph 4, .abortVictim ["y"],
    .manager (.advance 0), .manager (.advance 0), .manager (.advance 0)]

theorem crossedWriters_clears :
    ∃ s, run step (new 1 none fun _ => none) crossedWriters = some s ∧
      s.victims = ["node_1_txn_2"] ∧ s.Clears := by
  have hview : (run step (new 1 none fun _ => none) crossedWriters).map
      DetectorSystem.victims = some ["node_1_txn_2"] := by
    decide +kernel
  obtain ⟨s, hrun, hvictims⟩ := Option.map_eq_some_iff.mp hview
  have hok : Along step Disciplined (new 1 none fun _ => none) crossedWriters := by
    decide +kernel
  exact ⟨s, hrun, hvictims, run_clears hok hrun⟩

end DetectorSystem

end DistributedMemory.Storage
