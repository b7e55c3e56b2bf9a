import DistributedMemory.Storage.Interleaving

/-!
# The lock table between interrupted commits and aborts

While a `commit` or an `abort` of a transaction runs, its locks may outlive its
status.  A transaction is live when it is active or some call that ends it is
still running.  Every run of orderly steps keeps the lock table to live
transactions, hence to active ones whenever no `commit` or `abort` is running.
-/

namespace DistributedMemory.Storage

open DistributedMemory.Library DistributedMemory.Recovery

namespace SharedManager

open TransactionManager

def Ends (endings : Dict ThreadId Ending) (t : TxnId) : Prop :=
  ∃ item ∈ endings.items, item.2.txnId = t

instance (endings : Dict ThreadId Ending) (t : TxnId) :
    Decidable (Ends endings t) :=
  inferInstanceAs (Decidable (∃ item ∈ endings.items, _))

def Live (s : SharedManager) (t : TxnId) : Prop :=
  s.manager.statusOf t = some .active ∨ Ends s.endings t

instance (s : SharedManager) (t : TxnId) : Decidable (s.Live t) :=
  inferInstanceAs (Decidable (_ ∨ _))

/-- No `commit` and no `abort` is in the middle of running. -/
def Quiet (s : SharedManager) : Prop := ∀ i, s.endings.get? i = none

/-- The locks of `t` are released, or go to another transaction that is live, or
there are none. -/
def inheritsWell (s : SharedManager) (t : TxnId) (txn : Transaction) : Bool :=
  match s.manager.heir txn with
  | none => true
  | some (p, _) => (p ≠ t ∧ s.Live p) ∨ ¬ s.manager.lockManager.HoldsLock t

/-- The last step of `commit` or `abort` finds its transaction in no queue, and
leaves no lock to a transaction that is not live. -/
def clearsWell (s : SharedManager) (e : Ending) : Bool :=
  match e.phase with
  | .marked =>
      !s.manager.lockManager.isQueued e.txnId &&
        match e.outcome, s.manager.transactions.get? e.txnId with
        | .commit, some txn => s.inheritsWell e.txnId txn
        | _, _ => true
  | _ => true

/--
A lock is attempted for a live transaction only, and a transaction that gives up
its locks waits in no queue and leaves no lock to one that is not live.
-/
def orderly (s : SharedManager) : SharedAction → Bool
  | .operate (.advance i) =>
      match s.manager.threads i with
      | .running call =>
          (call.phase ≠ .acquiring ∧ call.phase ≠ .retrying) ∨
            s.Live call.txnId
      | _ => true
  | .proceed i _ =>
      match s.endings.get? i with
      | none => true
      | some e => s.clearsWell e
  | _ => true

/-! ## Running calls -/

theorem ends_iff {endings : Dict ThreadId Ending} {t : TxnId} :
    Ends endings t ↔ ∃ i e, endings.get? i = some e ∧ e.txnId = t := by
  constructor
  · rintro ⟨⟨i, e⟩, hmem, ht⟩
    exact ⟨i, e, Dict.mem_items_iff.mp hmem, ht⟩
  · rintro ⟨i, e, hget, ht⟩
    exact ⟨(i, e), Dict.mem_items_iff.mpr hget, ht⟩

private theorem ends_set_iff {endings : Dict ThreadId Ending} {i : ThreadId}
    {e e' : Ending} (hget : endings.get? i = some e)
    (hsame : e'.txnId = e.txnId) (t : TxnId) :
    Ends (endings.set i e') t ↔ Ends endings t := by
  simp only [ends_iff, Dict.get?_set]
  constructor
  · rintro ⟨j, x, hx, rfl⟩
    split at hx
    · cases hx
      exact ⟨i, e, hget, hsame.symm⟩
    · exact ⟨j, x, hx, rfl⟩
  · rintro ⟨j, x, hx, rfl⟩
    by_cases hj : j = i
    · subst hj
      rw [hget] at hx
      cases hx
      exact ⟨j, e', by rw [if_pos rfl], hsame⟩
    · exact ⟨j, x, by rw [if_neg hj, hx], rfl⟩

private theorem ends_of_set {endings : Dict ThreadId Ending} {i : ThreadId}
    {e : Ending} {t : TxnId} (h : Ends (endings.set i e) t) :
    Ends endings t ∨ t = e.txnId := by
  obtain ⟨j, x, hx, rfl⟩ := ends_iff.mp h
  rw [Dict.get?_set] at hx
  split at hx
  · cases hx
    exact .inr rfl
  · exact .inl (ends_iff.mpr ⟨j, x, hx, rfl⟩)

private theorem ends_set_of_fresh {endings : Dict ThreadId Ending} {i : ThreadId}
    (hidle : endings.get? i = none) (e : Ending) {t : TxnId}
    (h : Ends endings t) : Ends (endings.set i e) t := by
  obtain ⟨j, x, hx, rfl⟩ := ends_iff.mp h
  have hj : j ≠ i := by
    rintro rfl
    rw [hidle] at hx
    cases hx
  exact ends_iff.mpr ⟨j, x, by rw [Dict.get?_set_ne _ _ hj, hx], rfl⟩

theorem ends_pop {endings : Dict ThreadId Ending} {i : ThreadId} {e : Ending}
    (hget : endings.get? i = some e) {t : TxnId} :
    (Ends (endings.pop i) t → Ends endings t) ∧
      (Ends endings t → t ≠ e.txnId → Ends (endings.pop i) t) := by
  simp only [ends_iff, Dict.get?_pop]
  constructor
  · rintro ⟨j, x, hx, rfl⟩
    split at hx
    · cases hx
    · exact ⟨j, x, hx, rfl⟩
  · rintro ⟨j, x, hx, rfl⟩ hne
    have hj : j ≠ i := by
      rintro rfl
      rw [hget] at hx
      cases hx
      exact hne rfl
    exact ⟨j, x, by rw [if_neg hj, hx], rfl⟩

private theorem Quiet.not_ends {s : SharedManager} (h : s.Quiet) (t : TxnId) :
    ¬ Ends s.endings t := by
  intro hends
  obtain ⟨i, e, hget, -⟩ := ends_iff.mp hends
  rw [h i] at hget
  cases hget

/-! ## The invariant -/

structure Inv (s : SharedManager) : Prop where
  valid : s.manager.lockManager.Valid
  named : ∀ t x, s.manager.statusOf t = some x →
    ∃ i, i ≤ s.manager.seq ∧ t = txnName s.manager.nodeId i
  known : ∀ t, Ends s.endings t → s.manager.statusOf t ≠ none
  live : ∀ r t, (s.manager.lockManager.entry r).Mentions t → s.Live t
  indexed : ∀ t, s.Live t → s.manager.lockManager.Indexed t

theorem inv_new (nodeId : Nat) (wal : Option WriteAheadLog) (store : Store) :
    (new nodeId wal store).Inv where
  valid := LockManager.valid_new
  named := by simp [new, TransactionManager.new, statusOf]
  known := by simp [new, Ends, Dict.empty]
  live := by simp [new, TransactionManager.new]
  indexed := by
    simp [new, TransactionManager.new, LockManager.Indexed, LockEntry.new]

theorem Inv.frame {s s' : SharedManager} (h : s.Inv)
    (hlocks : s'.manager.lockManager = s.manager.lockManager)
    (hseq : s'.manager.seq = s.manager.seq)
    (hnode : s'.manager.nodeId = s.manager.nodeId)
    (hknown : ∀ t, s'.manager.statusOf t = none ↔ s.manager.statusOf t = none)
    (hends : ∀ t, Ends s'.endings t → s.Live t)
    (hlive : ∀ t, s'.Live t ↔ s.Live t) : s'.Inv where
  valid := hlocks ▸ h.valid
  named t x hx := by
    rw [hseq, hnode]
    obtain ⟨y, hy⟩ := Option.ne_none_iff_exists'.mp
      fun hnone => by simp [(hknown t).mpr hnone] at hx
    exact h.named t y hy
  known t ht := by
    rw [Ne, hknown]
    rcases hends t ht with hactive | hends
    · simp [hactive]
    · exact h.known t hends
  live r t ht := (hlive t).mpr (h.live r t (hlocks ▸ ht))
  indexed t ht := hlocks ▸ h.indexed t ((hlive t).mp ht)

theorem Inv.rest {s s' : SharedManager} (h : s.Inv)
    (hlocks : s'.manager.lockManager = s.manager.lockManager)
    (hseq : s'.manager.seq = s.manager.seq)
    (hnode : s'.manager.nodeId = s.manager.nodeId)
    (hstatus : ∀ t, s'.manager.statusOf t = s.manager.statusOf t)
    (hends : ∀ t, Ends s'.endings t ↔ Ends s.endings t) : s'.Inv :=
  h.frame hlocks hseq hnode (fun t => by rw [hstatus])
    (fun t ht => .inr ((hends t).mp ht))
    (fun t => by rw [Live, Live, hstatus, hends])

theorem Inv.fresh {s : SharedManager} (h : s.Inv) :
    s.manager.statusOf (txnName s.manager.nodeId (s.manager.seq + 1)) =
      none := by
  cases hget : s.manager.statusOf
      (txnName s.manager.nodeId (s.manager.seq + 1)) with
  | none => rfl
  | some x =>
      obtain ⟨i, hle, hname⟩ := h.named _ _ hget
      have := txnName_injective hname
      omega

theorem Inv.begin {s : SharedManager} (h : s.Inv) (parent : Option TxnId) :
    Inv { s with manager := (s.manager.begin parent).1 } where
  valid := h.valid
  named u x hx := by
    change ∃ i, i ≤ s.manager.seq + 1 ∧ u = txnName s.manager.nodeId i
    rw [begin_statusOf] at hx
    split at hx
    · next heq => exact ⟨s.manager.seq + 1, le_rfl, heq⟩
    · obtain ⟨i, hle, hname⟩ := h.named u x hx
      exact ⟨i, by omega, hname⟩
  known u hu := by
    rw [begin_statusOf]
    split
    · simp
    · exact h.known u hu
  live r u hu := by
    refine (h.live r u hu).imp_left fun hactive => ?_
    rw [begin_statusOf, hactive]
    split <;> rfl
  indexed u hu := by
    by_cases hnew : u = txnName s.manager.nodeId (s.manager.seq + 1)
    · -- A new transaction is not in the table yet.
      intro r hheld
      rcases h.live r u (.inl hheld) with hactive | hends
      · rw [hnew, h.fresh] at hactive
        cases hactive
      · exact absurd (hnew ▸ h.fresh) (h.known u hends)
    · refine h.indexed u (hu.imp_left fun hactive => ?_)
      rwa [begin_statusOf, if_neg hnew] at hactive

theorem Inv.locked {s : SharedManager} (h : s.Inv) {i : ThreadId} {call : Call}
    {lt : LockType} {lm : LockManager} {e : LockEntry} {granted : List TxnId}
    {answer : Bool} (hlive : s.Live call.txnId) (thread : Thread)
    (acquires : Acquires (s.manager.lockManager.entry call.op.resource)
      call.txnId lt e granted answer)
    (rewrites : s.manager.lockManager.Rewrites lm call.op.resource e granted) :
    Inv { s with
      manager := { s.manager with lockManager := lm }.setThread i thread } where
  valid := h.valid.acquires acquires rewrites
  named := h.named
  known := h.known
  live r u hu := by
    rw [setThread_lockManager, rewrites.entry] at hu
    split at hu
    · rcases (acquires.mentions u).mp hu with hold | rfl
      · exact h.live _ u hold
      · exact hlive
    · exact h.live r u hu
  indexed u hu := (h.indexed u hu).acquires acquires rewrites

/-! ## The steps of `commit` and `abort` -/

private theorem applyBuffer_statusOf {m : TransactionManager} {t : TxnId}
    {txn : Transaction} (hget : m.transactions.get? t = some txn)
    (outcome : Outcome) (u : TxnId) :
    (m.applyBuffer t txn outcome).statusOf u = m.statusOf u := by
  cases outcome with
  | commit => rfl
  | abort =>
      simp only [applyBuffer, statusOf_putTxn]
      split
      · next heq => rw [heq, statusOf, hget, Option.map_some]
      · rfl

theorem clearLocks_statusOf (m : TransactionManager) (t : TxnId)
    (txn : Transaction) (order : List Resource) (outcome : Outcome)
    (u : TxnId) :
    (m.clearLocks t txn order outcome).statusOf u = m.statusOf u := by
  cases outcome with
  | commit =>
      obtain ⟨extra, hget, -⟩ := passLocks_transactions m t txn order u
      simp only [clearLocks, statusOf, hget, Option.map_map, Function.comp_def]
  | abort => rfl

theorem clearLocks_lockManager (m : TransactionManager) (t : TxnId)
    (txn : Transaction) (order : List Resource) (outcome : Outcome) :
    (∃ p parent, outcome = .commit ∧ m.heir txn = some (p, parent) ∧
      (m.clearLocks t txn order outcome).lockManager =
        m.lockManager.transferLocks t p order) ∨
    (m.clearLocks t txn order outcome).lockManager =
      (m.lockManager.releaseAll t order).1 := by
  cases outcome with
  | commit =>
      have hpass : m.clearLocks t txn order .commit =
          m.passLocks t txn order := rfl
      rw [hpass, passLocks]
      split
      · next p parent hheir => exact .inl ⟨p, parent, rfl, hheir, rfl⟩
      · exact .inr rfl
  | abort => exact .inr rfl

private theorem clearLocks_seq (m : TransactionManager) (t : TxnId)
    (txn : Transaction) (order : List Resource) (outcome : Outcome) :
    (m.clearLocks t txn order outcome).seq = m.seq := by
  cases outcome with
  | commit => exact passLocks_seq m t txn order
  | abort => rfl

private theorem clearLocks_nodeId (m : TransactionManager) (t : TxnId)
    (txn : Transaction) (order : List Resource) (outcome : Outcome) :
    (m.clearLocks t txn order outcome).nodeId = m.nodeId := by
  cases outcome with
  | commit => exact passLocks_nodeId m t txn order
  | abort => rfl

/-- Whom the last step leaves in the table: nobody new but a live heir, and `t`
only if a live `t` was its own heir, which `inheritsWell` excludes. -/
theorem clearLocks_mentions {s : SharedManager} (h : s.Inv) {t : TxnId}
    {txn : Transaction} {order : List Resource} {outcome : Outcome}
    (hlive : s.Live t) (hiter : s.manager.Iterates t order)
    (hfree : ¬ s.manager.lockManager.isQueued t)
    (hwell : outcome = .commit → s.inheritsWell t txn = true) {r : Resource}
    {u : TxnId} (hu : ((s.manager.clearLocks t txn order
      outcome).lockManager.entry r).Mentions u) : u ≠ t ∧ s.Live u := by
  have hindexed := h.indexed t hlive
  have hqueued : ∀ {v}, (s.manager.lockManager.entry r).Queues v →
      v ≠ t ∧ s.Live v := by
    intro v hv
    refine ⟨?_, h.live r v (.inr hv)⟩
    rintro rfl
    exact hfree (LockManager.isQueued_iff.mpr ⟨r, hv⟩)
  rcases clearLocks_lockManager s.manager t txn order outcome with
    ⟨p, parent, hcommit, hheir, hlm⟩ | hlm
  · rw [hlm, LockManager.transferLocks_mentions hindexed hiter.1 hiter.2] at hu
    rcases hu with ⟨hne, hheld⟩ | ⟨hheld, rfl⟩ | hq
    · exact ⟨hne, h.live r u (.inl hheld)⟩
    · have := hwell hcommit
      simp only [inheritsWell, hheir, decide_eq_true_eq] at this
      exact this.resolve_right fun hnone => hnone ⟨r, hindexed r hheld, hheld⟩
    · exact hqueued hq
  · rw [hlm, LockManager.releaseAll_mentions h.valid hindexed hiter.1
      hiter.2] at hu
    rcases hu with ⟨hne, hheld⟩ | hq
    · exact ⟨hne, h.live r u (.inl hheld)⟩
    · exact hqueued hq

private theorem clearLocks_valid {s : SharedManager} (h : s.Inv) {t : TxnId}
    (txn : Transaction) {order : List Resource} (outcome : Outcome)
    (hiter : s.manager.Iterates t order) :
    (s.manager.clearLocks t txn order outcome).lockManager.Valid ∧
      ∀ u, u ≠ t → s.manager.lockManager.Indexed u →
        (s.manager.clearLocks t txn order outcome).lockManager.Indexed u := by
  rcases clearLocks_lockManager s.manager t txn order outcome with
    ⟨p, -, -, -, hlm⟩ | hlm
  · rw [hlm]
    exact ⟨h.valid.transferLocks hiter.1,
      fun u hu => LockManager.Indexed.transferLocks hiter.1 hu⟩
  · rw [hlm]
    exact ⟨h.valid.releaseAll hiter.1,
      fun u hu => LockManager.Indexed.releaseAll h.valid hiter.1 hu⟩

theorem Inv.cleared {s : SharedManager} (h : s.Inv) {i : ThreadId} {e : Ending}
    {txn : Transaction} {order : List Resource}
    (hget : s.endings.get? i = some e)
    (hiter : s.manager.Iterates e.txnId order)
    (hfree : ¬ s.manager.lockManager.isQueued e.txnId)
    (hwell : e.outcome = .commit → s.inheritsWell e.txnId txn = true) :
    Inv ⟨s.manager.clearLocks e.txnId txn order e.outcome, s.endings.pop i⟩ := by
  have hlive : s.Live e.txnId := .inr (ends_iff.mpr ⟨i, e, hget, rfl⟩)
  have hmentions := fun r u =>
    clearLocks_mentions (r := r) (u := u) h hlive hiter hfree hwell
  have hvalid := clearLocks_valid h txn e.outcome hiter
  refine ⟨hvalid.1, fun u x hx => ?_, fun u hu => ?_, fun r u hu => ?_,
    fun u hu => ?_⟩
  · rw [clearLocks_statusOf] at hx
    rw [clearLocks_seq, clearLocks_nodeId]
    exact h.named u x hx
  · rw [clearLocks_statusOf]
    exact h.known u ((ends_pop hget).1 hu)
  · obtain ⟨hne, hu⟩ := hmentions r u hu
    rw [Live, clearLocks_statusOf]
    exact hu.imp_right fun hends => (ends_pop hget).2 hends hne
  · by_cases hne : u = e.txnId
    · -- Nothing is left of `t`.
      intro r hheld
      exact absurd hne (hmentions r u (.inl hheld)).1
    · refine hvalid.2 u hne (h.indexed u ?_)
      rw [Live, clearLocks_statusOf] at hu
      exact hu.imp_right (ends_pop hget).1

/-! ## Steps and runs -/

private theorem step_operate {s s' : SharedManager} {a : TxnAction}
    (h : s.step (.operate a) = some s') :
    ∃ m, s.manager.step a = some m ∧ (∀ t order, a ≠ .commit t order) ∧
      (∀ t order, a ≠ .abort t order) ∧ s' = { s with manager := m } := by
  have hother : ∀ a', (∀ t order, a' ≠ .commit t order) →
      (∀ t order, a' ≠ .abort t order) → s.step (.operate a') =
        (s.manager.step a').map fun m => { s with manager := m } := by
    intro a' hcommit habort
    cases a' with
    | commit t order => exact absurd rfl (hcommit t order)
    | abort t order => exact absurd rfl (habort t order)
    | _ => rfl
  have hcommit : ∀ t order, a ≠ .commit t order := by
    rintro t order rfl
    cases h
  have habort : ∀ t order, a ≠ .abort t order := by
    rintro t order rfl
    cases h
  rw [hother a hcommit habort] at h
  obtain ⟨m, hm, rfl⟩ := Option.map_eq_some_iff.mp h
  exact ⟨m, hm, hcommit, habort, rfl⟩

theorem Inv.operate {s : SharedManager} {a : TxnAction}
    {m : TransactionManager} (h : s.Inv) (hok : s.orderly (.operate a) = true)
    (hcommit : ∀ t order, a ≠ .commit t order)
    (habort : ∀ t order, a ≠ .abort t order)
    (hstep : s.manager.step a = some m) : Inv { s with manager := m } := by
  cases step_spec hstep with
  | began parent => exact h.begin parent
  | answered => exact h.rest rfl rfl rfl (fun _ => rfl) (fun _ => .rfl)
  | started => exact h.rest rfl rfl rfl (fun _ => rfl) (fun _ => .rfl)
  | locked i call lt lm e granted answer thread running attempt mode acquires
      rewrites next =>
      refine h.locked ?_ thread acquires rewrites
      have hlive : (call.phase ≠ .acquiring ∧ call.phase ≠ .retrying) ∨
          s.Live call.txnId := by
        simpa only [orderly, running, decide_eq_true_eq] using hok
      rcases attempt with hphase | hphase | hheld
      · exact hlive.resolve_left fun hne => hne.1 hphase
      · exact hlive.resolve_left fun hne => hne.2 hphase
      · exact h.live _ _ (.inl hheld)
  | moved => exact h.rest rfl rfl rfl (fun _ => rfl) (fun _ => .rfl)
  | finished i call txn running granted known =>
      refine h.rest ?_ ?_ ?_ (finish_statusOf known i call.op) (fun _ => .rfl)
      · cases call.op <;> rfl
      · cases call.op <;> rfl
      · cases call.op <;> rfl
  | committed t order => exact absurd rfl (hcommit t order)
  | aborted t order => exact absurd rfl (habort t order)
  | refused => exact h

theorem Inv.enter {s s' : SharedManager} (h : s.Inv) {i : ThreadId} {t : TxnId}
    {outcome : Outcome} (hstep : s.enter i t outcome = some s') : s'.Inv := by
  unfold SharedManager.enter at hstep
  split at hstep
  · cases hstep
  · next hidle =>
    split at hstep
    · cases hstep
      exact h
    · next txn hactive =>
      cases hstep
      have hlive : s.Live t := .inl (statusOf_of_getActive hactive)
      have hends : ∀ u, Ends (s.endings.set i ⟨t, outcome, .checked⟩) u →
          s.Live u := by
        intro u hu
        rcases ends_of_set hu with hu | rfl
        · exact .inr hu
        · exact hlive
      refine h.frame rfl rfl rfl (fun _ => .rfl) hends fun u => ⟨?_, ?_⟩
      · rintro (hactive | hu)
        · exact .inl hactive
        · exact hends u hu
      · exact Or.imp_right (ends_set_of_fresh hidle _)

theorem Inv.proceed {s s' : SharedManager} (h : s.Inv) {i : ThreadId}
    {order : List Resource} (hok : s.orderly (.proceed i order) = true)
    (hstep : s.proceed i order = some s') : s'.Inv := by
  unfold SharedManager.proceed at hstep
  split at hstep
  · cases hstep
  · next e hget =>
    split at hstep
    · cases hstep
    · next txn htxn =>
      have hends : ∀ phase u,
          Ends (s.endings.set i { e with phase := phase }) u ↔
            Ends s.endings u :=
        fun _ => ends_set_iff hget rfl
      split at hstep
      · cases hstep
        exact h.rest rfl rfl rfl (fun _ => rfl) (hends _)
      · cases hstep
        refine h.rest ?_ ?_ ?_ (applyBuffer_statusOf htxn e.outcome) (hends _)
        · cases e.outcome <;> rfl
        · cases e.outcome <;> rfl
        · cases e.outcome <;> rfl
      · cases hstep
        have hlive : Ends s.endings e.txnId := ends_iff.mpr ⟨i, e, hget, rfl⟩
        refine h.frame rfl rfl rfl (fun u => ?_) (fun u hu =>
          .inr ((hends _ u).mp hu)) fun u => ?_
        · rw [statusOf_putTxn]
          split
          · next heq =>
            subst heq
            simp [statusOf, htxn]
          · rfl
        · simp only [Live, hends, statusOf_putTxn]
          split
          · next heq =>
            subst heq
            simp [hlive]
          · rfl
      · next hphase =>
        split at hstep
        · next hiter =>
          cases hstep
          simp only [orderly, hget, clearsWell, hphase, Bool.and_eq_true,
            Bool.not_eq_true', ← Bool.not_eq_true] at hok
          refine h.cleared hget hiter hok.1 fun hcommit => ?_
          simpa [hcommit, htxn] using hok.2
        · cases hstep

theorem Inv.step {s s' : SharedManager} {a : SharedAction} (h : s.Inv)
    (hok : s.orderly a = true) (hstep : s.step a = some s') : s'.Inv := by
  cases a with
  | operate a =>
      obtain ⟨m, hm, hcommit, habort, rfl⟩ := step_operate hstep
      exact h.operate hok hcommit habort hm
  | enter i t outcome => exact h.enter hstep
  | proceed i order => exact h.proceed hok hstep

/-- Orderly runs leave the lock table to active transactions whenever no
`commit` or `abort` is in the middle of running. -/
theorem run_locksActive (nodeId : Nat) (wal : Option WriteAheadLog)
    (initial : Store) (actions : List SharedAction) (s : SharedManager)
    (hok : Along step (fun s a => s.orderly a) (new nodeId wal initial) actions)
    (hrun : run step (new nodeId wal initial) actions = some s)
    (hquiet : s.Quiet) : s.manager.LocksActive := by
  have hinv : s.Inv := run_invariant (fun _ _ _ h hok hstep => h.step hok hstep)
    (inv_new nodeId wal initial) hok hrun
  intro r t ht
  exact (hinv.live r t ht).resolve_right (hquiet.not_ends t)

/-- A child writes and passes its lock on to its parent; a reader queues and then
waits in the middle of the parent's commit, which grants it the lock. -/
def inheritedLock : List SharedAction :=
  [.operate (.begin none), .operate (.begin (some "node_0_txn_1")),
    .operate (.begin none),
    .operate (.call 0 "node_0_txn_2" (.write "f" "a" "1")),
    .operate (.advance 0), .operate (.advance 0)] ++
  wholeCall 0 "node_0_txn_2" .commit ["f"] ++
  [.operate (.call 1 "node_0_txn_3" (.read "f" "a")),
    .enter 0 "node_0_txn_1" .commit, .proceed 0 [], .proceed 0 [],
    .operate (.advance 1), .proceed 0 [], .operate (.advance 1),
    .proceed 0 ["f"],
    .operate (.advance 1), .operate (.advance 1), .operate (.advance 1)]

theorem inheritedLock_locksActive :
    ∃ s, run step (new 0 (some .new) fun _ => none) inheritedLock = some s ∧
      (s.manager.lockManager.entry "f").holders = {"node_0_txn_3"} ∧
      s.manager.LocksActive := by
  have hend : (run step (new 0 (some .new) fun _ => none) inheritedLock).map
      (fun s => ((s.manager.lockManager.entry "f").holders,
        s.endings.items)) = some ({"node_0_txn_3"}, []) := by
    decide +kernel
  obtain ⟨s, hrun, hs⟩ := Option.map_eq_some_iff.mp hend
  obtain ⟨hholders, hendings⟩ := Prod.mk.inj hs
  refine ⟨s, hrun, hholders, run_locksActive 0 (some .new) _ inheritedLock s
    (by decide +kernel) hrun fun i => ?_⟩
  rw [Dict.get?_eq_none_iff, hendings]
  simp

/-- A write times out while it is queued, its transaction is aborted, and the
commit of the other one grants the lock to the aborted one. -/
def abandonedRequest : List SharedAction :=
  [.operate (.begin none), .operate (.begin none),
    .operate (.call 0 "node_0_txn_1" (.write "f" "a" "1")),
    .operate (.advance 0), .operate (.advance 0),
    .operate (.call 1 "node_0_txn_2" (.write "f" "a" "2")),
    .operate (.advance 1), .operate (.advance 1), .operate (.timeout 1)] ++
  wholeCall 1 "node_0_txn_2" .abort [] ++
  wholeCall 0 "node_0_txn_1" .commit ["f"]

theorem abandonedRequest_not_locksActive :
    ∃ s, run step (new 0 (some .new) fun _ => none) abandonedRequest = some s ∧
      s.Quiet ∧ s.manager.statusOf "node_0_txn_2" = some .aborted ∧
      (s.manager.lockManager.entry "f").holders = {"node_0_txn_2"} ∧
      ¬ s.manager.LocksActive := by
  have hend : (run step (new 0 (some .new) fun _ => none)
      abandonedRequest).map (fun s => (s.manager.statusOf "node_0_txn_2",
        (s.manager.lockManager.entry "f").holders, s.endings.items)) =
      some (some .aborted, {"node_0_txn_2"}, []) := by
    decide +kernel
  obtain ⟨s, hrun, hs⟩ := Option.map_eq_some_iff.mp hend
  obtain ⟨hstatus, hs⟩ := Prod.mk.inj hs
  obtain ⟨hholders, hendings⟩ := Prod.mk.inj hs
  refine ⟨s, hrun, fun i => ?_, hstatus, hholders, fun hall => ?_⟩
  · rw [Dict.get?_eq_none_iff, hendings]
    simp
  · have hactive := hall "f" "node_0_txn_2" (.inl (by simp [hholders]))
    rw [hstatus] at hactive
    cases hactive

end SharedManager

end DistributedMemory.Storage
