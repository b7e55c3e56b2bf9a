import DistributedMemory.Library.Run
import DistributedMemory.Storage.LockInvariant

/-!
# Serializability of the transaction manager

The abstract view of a run is a list of transactions executed one after another:
`replay` applies their write buffers in the order of their commits.  A run
refines it when the store is the result of the replay and every committed
transaction has read what the replay held when its turn came.

The invariant ties the lock table to what an active transaction has recorded:
it holds the lock of every resource in `locksHeld`, exclusively where it has
buffered a write, and what it has read is still in the store.  It does not
survive a call that completes after its transaction has committed, which the
source does not exclude; `timely` leaves such steps out.
-/

namespace DistributedMemory.Storage

open DistributedMemory.Library

namespace TransactionManager

def bufferOf (m : TransactionManager) (t : TxnId) : List (String × String) :=
  match m.transactions.get? t with
  | none => []
  | some txn => txn.writeBuffer.items

def replay (m : TransactionManager) (store : Store) (ts : List TxnId) :
    Store :=
  ts.foldl (fun store t => install store (m.bufferOf t)) store

/--
The manager agrees with the serial execution of the committed transactions in
commit order, from the store `initial`.
-/
structure Serializable (initial : Store) (m : TransactionManager) : Prop where
  committed : ∀ t, t ∈ m.commits ↔ m.statusOf t = some .committed
  once : m.commits.Nodup
  store : m.store = m.replay initial m.commits
  reads : ∀ before t after txn, m.commits = before ++ t :: after →
    m.transactions.get? t = some txn →
    ∀ b v, txn.readSet.get? b = some v →
      v = m.replay initial before (splitKey b)

/-- The resource named by a new call has no colon. -/
def colonFreeCall : TxnAction → Bool
  | .call _ _ op => ColonFree op.resource
  | _ => true

/-- A call that goes on with its granted lock belongs to a transaction that has
not committed in the meantime. -/
def timely (m : TransactionManager) : TxnAction → Bool
  | .advance i =>
      match m.threads i with
      | .running call =>
          call.phase ≠ .granted ∨ m.statusOf call.txnId ≠ some .committed
      | _ => true
  | _ => true

private theorem open_of_timely {m : TransactionManager} {i : ThreadId} {call : Call}
    (h : m.timely (.advance i)) (running : m.threads i = .running call)
    (granted : call.phase = .granted) :
    m.statusOf call.txnId ≠ some .committed := by
  simpa [timely, running, granted] using h

/-! ## Replay -/

private theorem install_of_unwritten {items : List (String × String)} {key : RecordKey}
    (h : ∀ item ∈ items, splitKey item.1 ≠ key) (store : Store) :
    install store items key = store key := by
  induction items generalizing store with
  | nil => rfl
  | cons item rest ih =>
      have hhead : key ≠ ((splitKey item.1).1, (splitKey item.1).2) :=
        fun heq => h item (by simp) heq.symm
      have hstep : install store (item :: rest) =
          install (writeRecord store (splitKey item.1).1 (splitKey item.1).2
            item.2) rest := rfl
      rw [hstep, ih fun item' hmem => h item' (List.mem_cons_of_mem _ hmem)]
      simp only [writeRecord, Function.update_of_ne hhead]

private theorem replay_append (m : TransactionManager) (store : Store)
    (before after : List TxnId) :
    m.replay store (before ++ after) =
      m.replay (m.replay store before) after := by
  simp only [replay, List.foldl_append]

theorem replay_congr {m m' : TransactionManager} {ts : List TxnId}
    (h : ∀ t ∈ ts, m'.bufferOf t = m.bufferOf t) (store : Store) :
    m'.replay store ts = m.replay store ts := by
  induction ts generalizing store with
  | nil => rfl
  | cons t rest ih =>
      simp only [replay, List.foldl_cons] at ih ⊢
      rw [h t (by simp)]
      exact ih (fun u hu => h u (List.mem_cons_of_mem _ hu)) _

def contents (m : TransactionManager) (t : TxnId) :
    Option (TransactionStatus × Dict String (Option String) ×
      Dict String String) :=
  (m.transactions.get? t).map fun txn =>
    (txn.status, txn.readSet, txn.writeBuffer)

theorem bufferOf_of_contents {m m' : TransactionManager} {t : TxnId}
    (h : m'.contents t = m.contents t) : m'.bufferOf t = m.bufferOf t := by
  unfold contents at h
  unfold bufferOf
  cases h₁ : m.transactions.get? t <;> cases h₂ : m'.transactions.get? t <;>
    simp_all

theorem statusOf_of_contents {m m' : TransactionManager} {t : TxnId}
    (h : m'.contents t = m.contents t) : m'.statusOf t = m.statusOf t := by
  unfold contents at h
  unfold statusOf
  cases h₁ : m.transactions.get? t <;> cases h₂ : m'.transactions.get? t <;>
    simp_all

theorem Serializable.frame {initial : Store} {m m' : TransactionManager}
    (h : Serializable initial m) (hcommits : m'.commits = m.commits)
    (hstore : m'.store = m.store)
    (hsame : ∀ t, m.statusOf t = some .committed ∨
      m'.statusOf t = some .committed → m'.contents t = m.contents t) :
    Serializable initial m' := by
  have hold : ∀ t ∈ m.commits, m'.contents t = m.contents t := fun t ht =>
    hsame t (.inl ((h.committed t).mp ht))
  have hreplay : ∀ ts, (∀ t ∈ ts, t ∈ m.commits) →
      m'.replay initial ts = m.replay initial ts := fun ts hts =>
    replay_congr (fun t ht => bufferOf_of_contents (hold t (hts t ht))) initial
  refine ⟨fun t => ?_, hcommits ▸ h.once, ?_, ?_⟩
  · rw [hcommits, h.committed t]
    constructor
    · intro hc
      rw [statusOf_of_contents (hsame t (.inl hc)), hc]
    · intro hc
      rw [← statusOf_of_contents (hsame t (.inr hc)), hc]
  · rw [hstore, h.store, hcommits, hreplay m.commits fun _ => id]
  · intro before t after txn heq hget b v hread
    rw [hcommits] at heq
    have ht : t ∈ m.commits := by simp [heq]
    have hcontents := hold t ht
    simp only [contents, hget, Option.map_some] at hcontents
    obtain ⟨old, hold', hfields⟩ := Option.map_eq_some_iff.mp hcontents.symm
    simp only [Prod.mk.injEq] at hfields
    rw [hreplay before fun u hu => by simp [heq, hu]]
    exact h.reads before t after old heq hold' b v (hfields.2.1 ▸ hread)

/-! ## The invariant -/

structure Owns (m : TransactionManager) (t : TxnId) (txn : Transaction) :
    Prop where
  locks : ∀ r lt, (r, lt) ∈ txn.locksHeld → m.lockManager.Holds t r lt
  buffer : ∀ b v, txn.writeBuffer.get? b = some v →
    ∃ r k, ColonFree r ∧ b = bufKey r k ∧ (r, .exclusive) ∈ txn.locksHeld
  reads : ∀ b v, txn.readSet.get? b = some v →
    ∃ r k, ColonFree r ∧ b = bufKey r k ∧
      (∃ lt, (r, lt) ∈ txn.locksHeld) ∧ v = m.store (r, k)

structure Inv (m : TransactionManager) : Prop where
  lock : m.LockInv
  owns : ∀ t txn, m.getActive t = some txn → m.Owns t txn
  granted : ∀ i call txn, m.threads i = .running call →
    call.phase = .granted → m.getActive call.txnId = some txn →
    m.lockManager.Holds call.txnId call.op.resource call.op.mode
  colonFree : ∀ i call, m.threads i = .running call →
    ColonFree call.op.resource

theorem Owns.frame {m m' : TransactionManager} {t : TxnId} {txn : Transaction}
    (h : m.Owns t txn)
    (hlocks : ∀ r lt, m.lockManager.Holds t r lt → m'.lockManager.Holds t r lt)
    (hstore : ∀ r lt k, m.lockManager.Holds t r lt →
      m'.store (r, k) = m.store (r, k)) : m'.Owns t txn := by
  refine ⟨fun r lt hmem => hlocks r lt (h.locks r lt hmem), h.buffer, ?_⟩
  intro b v hread
  obtain ⟨r, k, hfree, hb, ⟨lt, hlt⟩, hv⟩ := h.reads b v hread
  exact ⟨r, k, hfree, hb, ⟨lt, hlt⟩,
    by rw [hstore r lt k (h.locks r lt hlt), hv]⟩

theorem inv_new (nodeId : Nat) (wal : Option Recovery.WriteAheadLog)
    (store : Store) : (new nodeId wal store).Inv where
  lock := lockInv_new nodeId wal store
  owns := by simp [new, getActive]
  granted := by simp [new]
  colonFree := by simp [new]

private theorem serializable_new (nodeId : Nat) (wal : Option Recovery.WriteAheadLog)
    (store : Store) : Serializable store (new nodeId wal store) where
  committed := by simp [new, statusOf]
  once := by simp [new]
  store := by simp [new, replay]
  reads := by simp [new]

/-! ## Steps of a call -/

theorem Inv.rethread {m : TransactionManager} (h : m.Inv) {i : ThreadId}
    {thread : Thread} {lm : LockManager}
    (events : Dict (TxnId × Resource) ThreadId) (signalled : Finset ThreadId)
    (hlock : ({ m with
      lockManager := lm
      waitEvents := events
      signalled := signalled }.setThread i thread).LockInv)
    (hholds : ∀ u r lt, m.lockManager.Holds u r lt → lm.Holds u r lt)
    (hcalls : ∀ call, thread = .running call → ColonFree call.op.resource)
    (hgranted : ∀ call, thread = .running call → call.phase = .granted →
      lm.Holds call.txnId call.op.resource call.op.mode) :
    ({ m with
      lockManager := lm
      waitEvents := events
      signalled := signalled }.setThread i thread).Inv where
  lock := hlock
  owns t txn hactive :=
    (h.owns t txn hactive).frame (fun r lt => hholds t r lt)
      (fun _ _ _ _ => rfl)
  granted j call txn hrun hphase hactive := by
    rw [threads_setThread] at hrun
    split at hrun
    · exact hgranted call hrun hphase
    · exact hholds _ _ _ (h.granted j call txn hrun hphase hactive)
  colonFree j call hrun := by
    rw [threads_setThread] at hrun
    split at hrun
    · exact hcalls call hrun
    · exact h.colonFree j call hrun

private theorem Owns.booked {m : TransactionManager} {t : TxnId} {txn : Transaction}
    {op : Op} (h : m.Owns t txn) (hfree : ColonFree op.resource)
    (hlock : m.lockManager.Holds t op.resource op.mode) :
    m.Owns t (bookedTxn m.store txn op) := by
  cases op with
  | read resource key =>
      refine ⟨?_, ?_, ?_⟩
      · intro r lt hmem
        rcases Finset.mem_insert.mp hmem with heq | hmem
        · obtain ⟨rfl, rfl⟩ := Prod.mk.inj heq
          exact hlock
        · exact h.locks r lt hmem
      · intro b v hb
        obtain ⟨r, k, hr, heq, hx⟩ := h.buffer b v hb
        exact ⟨r, k, hr, heq, Finset.mem_insert_of_mem hx⟩
      · intro b v hb
        simp only [bookedTxn, Dict.get?_set] at hb
        split at hb
        · next heq =>
          exact ⟨resource, key, hfree, heq,
            ⟨.shared, Finset.mem_insert_self _ _⟩, (Option.some.inj hb).symm⟩
        · obtain ⟨r, k, hr, heq, ⟨lt, hlt⟩, hv⟩ := h.reads b v hb
          exact ⟨r, k, hr, heq, ⟨lt, Finset.mem_insert_of_mem hlt⟩, hv⟩
  | write resource key value =>
      refine ⟨?_, ?_, ?_⟩
      · intro r lt hmem
        rcases Finset.mem_insert.mp hmem with heq | hmem
        · obtain ⟨rfl, rfl⟩ := Prod.mk.inj heq
          exact hlock
        · exact h.locks r lt (Finset.mem_of_mem_erase hmem)
      · intro b v hb
        simp only [bookedTxn, Dict.get?_set] at hb
        split at hb
        · next heq =>
          exact ⟨resource, key, hfree, heq, Finset.mem_insert_self _ _⟩
        · obtain ⟨r, k, hr, heq, hx⟩ := h.buffer b v hb
          exact ⟨r, k, hr, heq, Finset.mem_insert_of_mem
            (Finset.mem_erase.mpr ⟨by simp, hx⟩)⟩
      · intro b v hb
        obtain ⟨r, k, hr, heq, ⟨lt, hlt⟩, hv⟩ := h.reads b v hb
        -- The shared entry of the written resource became an exclusive one.
        by_cases hres : r = resource
        · subst hres
          exact ⟨r, k, hr, heq, ⟨.exclusive, Finset.mem_insert_self _ _⟩, hv⟩
        · exact ⟨r, k, hr, heq, ⟨lt, Finset.mem_insert_of_mem
            (Finset.mem_erase.mpr ⟨by simp [hres], hlt⟩)⟩, hv⟩

theorem Inv.finish {m : TransactionManager} (h : m.Inv) {i : ThreadId}
    {call : Call} {txn : Transaction} (hrun : m.threads i = .running call)
    (hphase : call.phase = .granted)
    (hget : m.transactions.get? call.txnId = some txn)
    (hlock : (m.finish i call.txnId txn call.op).LockInv) :
    (m.finish i call.txnId txn call.op).Inv := by
  have hlm : (m.finish i call.txnId txn call.op).lockManager = m.lockManager := by
    cases call.op <;> rfl
  have hstore : (m.finish i call.txnId txn call.op).store = m.store := by
    cases call.op <;> rfl
  have hactive : ∀ u x, (m.finish i call.txnId txn call.op).getActive u = some x →
      m.getActive u = some x ∨ u = call.txnId ∧
        m.getActive u = some txn ∧ x = bookedTxn m.store txn call.op := by
    intro u x hx
    rw [getActive, finish_transactions, ← getActive, getActive_putTxn] at hx
    split at hx
    · next heq =>
      rw [bookedTxn_status] at hx
      split at hx
      · next hstatus =>
        refine .inr ⟨heq, ?_, (Option.some.inj hx).symm⟩
        rw [heq]
        exact getActive_eq_some.mpr ⟨hget, hstatus⟩
      · cases hx
    · exact .inl hx
  refine ⟨hlock, fun u x hx => ?_, fun j c x hj hphase' hx => ?_,
    fun j c hj => h.colonFree j c (finish_threads m i _ txn call.op hj)⟩
  · have hown : m.Owns u x := by
      rcases hactive u x hx with hold | ⟨rfl, hold, rfl⟩
      · exact h.owns u x hold
      · exact (h.owns _ txn hold).booked (h.colonFree i call hrun)
          (h.granted i call txn hrun hphase hold)
    exact hown.frame (fun r lt hr => hlm ▸ hr) (fun r lt k _ => by rw [hstore])
  · rw [hlm]
    have hj' := finish_threads m i _ txn call.op hj
    rcases hactive _ x hx with hold | ⟨-, hold, -⟩
    · exact h.granted j c x hj' hphase' hold
    · exact h.granted j c txn hj' hphase' hold

/-! ## The end of a transaction -/

theorem Inv.ending {m m' : TransactionManager} (h : m.Inv) {t : TxnId}
    (hlock : m'.LockInv) (hfinished : m'.Finished t)
    (hholds : ∀ u, u ≠ t → ∀ r lt, m.lockManager.Holds u r lt →
      m'.lockManager.Holds u r lt)
    (hothers : ∀ u, u ≠ t → ∃ extra,
      m'.transactions.get? u = (m.transactions.get? u).map (fun x =>
        { x with locksHeld := x.locksHeld ∪ extra }) ∧
      ∀ r lt, (r, lt) ∈ extra → m'.lockManager.Holds u r lt)
    (hstore : ∀ u, u ≠ t → ∀ r lt k, m.lockManager.Holds u r lt →
      m'.store (r, k) = m.store (r, k))
    (hthreads : m'.threads = m.threads) : m'.Inv := by
  have hactive : ∀ u x, m'.getActive u = some x → u ≠ t ∧ ∃ y extra,
      m.getActive u = some y ∧
      x = { y with locksHeld := y.locksHeld ∪ extra } ∧
      ∀ r lt, (r, lt) ∈ extra → m'.lockManager.Holds u r lt := by
    intro u x hx
    have hu : u ≠ t := by
      rintro rfl
      exact not_finished_of_getActive hx hfinished
    obtain ⟨extra, hget, hextra⟩ := hothers u hu
    obtain ⟨hx, hstatus⟩ := getActive_eq_some.mp hx
    rw [hget] at hx
    obtain ⟨y, hy, rfl⟩ := Option.map_eq_some_iff.mp hx
    exact ⟨hu, y, extra, getActive_eq_some.mpr ⟨hy, hstatus⟩, rfl, hextra⟩
  refine ⟨hlock, fun u x hx => ?_, fun j call x hrun hphase hx => ?_,
    fun j call hrun => h.colonFree j call (hthreads ▸ hrun)⟩
  · obtain ⟨hu, y, extra, hy, rfl, hextra⟩ := hactive u x hx
    have hown : m'.Owns u y := (h.owns u y hy).frame (hholds u hu) (hstore u hu)
    refine ⟨fun r lt hmem => ?_, fun b v hb => ?_, fun b v hb => ?_⟩
    · rcases Finset.mem_union.mp hmem with hmem | hmem
      · exact hown.locks r lt hmem
      · exact hextra r lt hmem
    · obtain ⟨r, k, hfree, heq, hx⟩ := hown.buffer b v hb
      exact ⟨r, k, hfree, heq, Finset.mem_union_left _ hx⟩
    · obtain ⟨r, k, hfree, heq, ⟨lt, hlt⟩, hv⟩ := hown.reads b v hb
      exact ⟨r, k, hfree, heq, ⟨lt, Finset.mem_union_left _ hlt⟩, hv⟩
  · obtain ⟨hu, y, extra, hy, -⟩ := hactive _ x hx
    exact hholds _ hu _ _ (h.granted j call y (hthreads ▸ hrun) hphase hy)

theorem Inv.unwritten {m : TransactionManager} (h : m.Inv) {t u : TxnId}
    {txn : Transaction} (hactive : m.getActive t = some txn) (hne : u ≠ t)
    {r : Resource} {lt : LockType} (hu : m.lockManager.Holds u r lt)
    (k : String) : ∀ item ∈ txn.writeBuffer.items, splitKey item.1 ≠ (r, k) := by
  rintro ⟨b, v⟩ hmem heq
  have hown := h.owns t txn hactive
  obtain ⟨r', k', hfree, rfl, hx⟩ := hown.buffer b v (Dict.mem_items_iff.mp hmem)
  rw [splitKey_bufKey hfree] at heq
  obtain ⟨rfl, rfl⟩ := Prod.mk.inj heq
  exact hne ((hown.locks r' .exclusive hx).eq_of_exclusive h.lock.valid hu)

theorem Inv.abort {m : TransactionManager} (h : m.Inv) {t : TxnId}
    {txn : Transaction} {order : List Resource}
    (hactive : m.getActive t = some txn) (hiter : m.Iterates t order) :
    (m.abort t order).Inv := by
  refine h.ending (t := t) (h.lock.abort hactive hiter) ?_ ?_ (fun u hu =>
    ⟨∅, ?_, by simp⟩) ?_ (abort_threads hactive order)
  · exact .inr (by rw [abort_statusOf hactive, if_pos rfl])
  · rw [abort_lockManager hactive]
    exact fun u hu r lt =>
      LockManager.Holds.releaseAll h.lock.valid hiter.1 hu
  · rw [abort_eq hactive]
    simp only [releaseAll_transactions, transactions_putTxn, if_neg hu,
      log_transactions]
    cases m.transactions.get? u <;> simp
  · rw [abort_eq hactive]
    exact fun _ _ _ _ _ _ => rfl

theorem Inv.commit {m : TransactionManager} (h : m.Inv) {t : TxnId}
    {txn : Transaction} {order : List Resource}
    (hactive : m.getActive t = some txn) (hiter : m.Iterates t order) :
    (m.commit t order).1.Inv := by
  have hown := h.owns t txn hactive
  have hindexed := h.lock.indexed t (not_finished_of_getActive hactive)
  refine h.ending (t := t) (h.lock.commit hactive hiter) ?_ ?_ (fun u hu => ?_)
    (fun u hu r lt k hr => ?_) (commit_threads hactive order)
  · exact .inl (by rw [commit_statusOf hactive, if_pos rfl])
  · rcases commit_lockManager hactive order with ⟨p, _, _, hlm⟩ | ⟨_, hlm⟩
    · rw [hlm]
      exact fun u hu r lt => LockManager.Holds.transferLocks hiter.1 hu
    · rw [hlm]
      exact fun u hu r lt =>
        LockManager.Holds.releaseAll h.lock.valid hiter.1 hu
  · obtain ⟨extra, hextra, hnonempty⟩ := commit_transactions hactive order u
    refine ⟨extra, ?_, fun r lt hmem => ?_⟩
    · rw [hextra]
      simp only [installed, transactions_putTxn, if_neg hu, log_transactions]
    · -- Only a parent inherits, and it then holds what its child held.
      obtain ⟨rfl, parent, hheir⟩ := hnonempty (Finset.ne_empty_of_mem hmem)
      rcases commit_lockManager hactive order with ⟨p, q, hp, hlm⟩ | ⟨hnone, -⟩
      · rw [hheir] at hp
        obtain ⟨rfl, -⟩ := Prod.mk.inj (Option.some.inj hp)
        rw [hlm]
        have hheld := hown.locks r lt hmem
        refine LockManager.Holds.inherited hiter.1 hheld ?_
        rw [← List.mem_toFinset, hiter.2]
        exact hindexed r hheld.held
      · rw [hheir] at hnone
        cases hnone
  · rw [commit_store hactive]
    exact install_of_unwritten (h.unwritten hactive hu hr k) m.store

theorem Serializable.abort {initial : Store} {m : TransactionManager}
    (h : Serializable initial m) {t : TxnId} {txn : Transaction}
    {order : List Resource} (hactive : m.getActive t = some txn) :
    Serializable initial (m.abort t order) := by
  rw [abort_eq hactive]
  refine h.frame rfl rfl fun u hu => ?_
  have hne : u ≠ t := by
    rintro rfl
    rcases hu with hu | hu
    · rw [statusOf_of_getActive hactive] at hu
      cases hu
    · simp [statusOf, transactions_putTxn] at hu
  simp only [contents, releaseAll_transactions, transactions_putTxn,
    if_neg hne, log_transactions]

theorem commit_contents {m : TransactionManager} {t : TxnId}
    {txn : Transaction} (hactive : m.getActive t = some txn)
    (order : List Resource) (u : TxnId) :
    (m.commit t order).1.contents u =
      if u = t then some (.committed, txn.readSet, txn.writeBuffer)
      else m.contents u := by
  obtain ⟨extra, hget, -⟩ := commit_transactions hactive order u
  simp only [contents, hget, installed, transactions_putTxn, log_transactions]
  by_cases hu : u = t <;> simp [hu, Function.comp_def]

theorem Serializable.commit {initial : Store} {m : TransactionManager}
    (h : Serializable initial m) (hinv : m.Inv) {t : TxnId}
    {txn : Transaction} {order : List Resource}
    (hactive : m.getActive t = some txn) :
    Serializable initial (m.commit t order).1 := by
  have hnew : t ∉ m.commits := by
    rw [h.committed, statusOf_of_getActive hactive]
    simp
  have hown := hinv.owns t txn hactive
  have hothers : ∀ u, u ≠ t →
      (m.commit t order).1.contents u = m.contents u := fun u hu => by
    rw [commit_contents hactive, if_neg hu]
  have hself := commit_contents hactive order t
  rw [if_pos rfl] at hself
  have hreplay : ∀ ts, (∀ u ∈ ts, u ∈ m.commits) →
      (m.commit t order).1.replay initial ts = m.replay initial ts :=
    fun ts hts => replay_congr (fun u hu => bufferOf_of_contents (hothers u (by
      rintro rfl
      exact hnew (hts u hu)))) initial
  have hbuffer : (m.commit t order).1.bufferOf t = txn.writeBuffer.items := by
    obtain ⟨x, hx, heq⟩ := Option.map_eq_some_iff.mp hself
    simp only [Prod.mk.injEq] at heq
    simp only [bufferOf, hx, heq.2.2]
  refine ⟨fun u => ?_, ?_, ?_, ?_⟩
  · rw [commit_commits hactive, List.mem_append, List.mem_singleton,
      commit_statusOf hactive]
    by_cases hu : u = t
    · simp [hu]
    · simpa [hu] using h.committed u
  · rw [commit_commits hactive, List.nodup_append]
    exact ⟨h.once, by simp, by
      rintro a ha b hb rfl
      exact hnew (List.mem_singleton.mp hb ▸ ha)⟩
  · rw [commit_commits hactive, replay_append, hreplay _ fun _ => id, ← h.store,
      commit_store hactive]
    simp only [replay, List.foldl_cons, List.foldl_nil, hbuffer]
  · intro before u after x heq hx b v hread
    rw [commit_commits hactive] at heq
    rcases List.eq_nil_or_concat after with rfl | ⟨rest, last, rfl⟩
    · -- `u` is the transaction that has just committed.
      obtain ⟨rfl, hu⟩ := List.append_inj' heq rfl
      obtain rfl : t = u := by simpa using hu
      have hx' : x.readSet = txn.readSet := by
        rw [contents, hx] at hself
        simp only [Option.map_some, Option.some.injEq, Prod.mk.injEq] at hself
        exact hself.2.1
      rw [hx'] at hread
      obtain ⟨r, k, hfree, rfl, -, rfl⟩ := hown.reads b v hread
      rw [hreplay _ fun _ => id, ← h.store, splitKey_bufKey hfree]
    · -- `u` had committed before.
      rw [List.concat_eq_append, ← List.cons_append, ← List.append_assoc] at heq
      have hm := (List.append_inj' heq rfl).1
      have hu : u ∈ m.commits := by simp [hm]
      have hne : u ≠ t := by
        rintro rfl
        exact hnew hu
      have hc := hothers u hne
      simp only [contents, hx, Option.map_some] at hc
      obtain ⟨old, hold, hfields⟩ := Option.map_eq_some_iff.mp hc.symm
      simp only [Prod.mk.injEq] at hfields
      rw [hreplay before fun w hw => by simp [hm, hw]]
      exact h.reads before u rest old hm hold b v (hfields.2.1 ▸ hread)

/-! ## Runs -/

theorem Inv.begin {m : TransactionManager} (h : m.Inv)
    (parent : Option TxnId) : (m.begin parent).1.Inv := by
  have hfresh := h.lock.fresh
  have hlookup : ∀ u, (m.begin parent).1.transactions.get? u =
      if u = txnName m.nodeId (m.seq + 1) then
        some (.new (txnName m.nodeId (m.seq + 1)) parent)
      else m.transactions.get? u := fun u => by
    simp only [TransactionManager.begin, log_transactions, transactions_putTxn]
  have hactive : ∀ u x, u ≠ txnName m.nodeId (m.seq + 1) →
      (m.begin parent).1.getActive u = some x → m.getActive u = some x :=
    fun u x hu hx => by
      simpa only [getActive, hlookup, if_neg hu] using hx
  refine ⟨h.lock.begin parent, fun u x hx => ?_,
    fun j call x hrun hphase hx => ?_, h.colonFree⟩
  · by_cases hu : u = txnName m.nodeId (m.seq + 1)
    · have hnew := (getActive_eq_some.mp hx).1
      rw [hlookup, if_pos hu] at hnew
      obtain rfl := Option.some.inj hnew
      exact ⟨by simp [Transaction.new], by simp [Transaction.new],
        by simp [Transaction.new]⟩
    · exact (h.owns u x (hactive u x hu hx)).frame (fun _ _ => id)
        (fun _ _ _ _ => rfl)
  · have hne : call.txnId ≠ txnName m.nodeId (m.seq + 1) := fun heq =>
      h.lock.known j call hrun (heq ▸ hfresh)
    exact h.granted j call x hrun hphase (hactive _ x hne hx)

theorem Serializable.finish {initial : Store} {m : TransactionManager}
    (h : Serializable initial m) {i : ThreadId} {t : TxnId}
    {txn : Transaction} {op : Op} (hget : m.transactions.get? t = some txn)
    (hopen : m.statusOf t ≠ some .committed) :
    Serializable initial (m.finish i t txn op) := by
  have hframe : (m.finish i t txn op).commits = m.commits ∧
      (m.finish i t txn op).store = m.store := by
    cases op <;> exact ⟨rfl, rfl⟩
  refine h.frame hframe.1 hframe.2 fun u hu => ?_
  have hne : u ≠ t := by
    rintro rfl
    rcases hu with hu | hu
    · exact hopen hu
    · rw [statusOf, finish_transactions, transactions_putTxn, if_pos rfl,
        Option.map_some, bookedTxn_status] at hu
      exact hopen (by rw [statusOf, hget, Option.map_some, hu])
  simp only [contents, finish_transactions, transactions_putTxn, if_neg hne]

theorem Inv.step {m m' : TransactionManager} {a : TxnAction} (h : m.Inv)
    (hfree : colonFreeCall a) (hstep : m.step a = some m') : m'.Inv := by
  have hlock := h.lock.step hstep
  cases step_spec hstep with
  | began parent => exact h.begin parent
  | answered i t op reply =>
      exact h.rethread m.waitEvents m.signalled hlock (fun _ _ _ => id)
        (by simp) (by simp)
  | started i t op phase txn active covered =>
      refine h.rethread m.waitEvents m.signalled hlock (fun _ _ _ => id) ?_ ?_
      · rintro call ⟨⟩
        simpa [colonFreeCall] using hfree
      · rintro call ⟨⟩ hphase
        obtain ⟨hmode, hmem⟩ := covered hphase
        rw [hmode]
        exact (h.owns t txn active).locks _ _ hmem
  | locked i call lt lm e granted answer thread running attempt mode acquires
      rewrites next =>
      refine h.rethread _ _ hlock (fun u r lt hu => hu.acquires acquires rewrites)
        ?_ ?_
      · rintro c rfl
        rcases next with ⟨-, heq⟩ | ⟨-, -, hsame⟩
        · obtain rfl := Thread.running.inj heq
          exact h.colonFree i call running
        · rw [(hsame c rfl).2]
          exact h.colonFree i call running
      · rintro c rfl hphase
        rcases next with ⟨rfl, heq⟩ | ⟨-, hungranted, -⟩
        · obtain rfl := Thread.running.inj heq
          have hcovers := LockManager.holds_of_acquires acquires rewrites
          rcases mode with rfl | rfl
          · exact hcovers
          · exact ⟨hcovers.held, fun _ => hcovers.mode rfl⟩
        · exact absurd hphase (hungranted c rfl)
  | moved i call _ thread events signalled running action unattempted ungranted
      same =>
      refine h.rethread _ _ hlock (fun _ _ _ => id) ?_ ?_
      · rintro c rfl
        rw [(same c rfl).2]
        exact h.colonFree i call running
      · rintro c rfl hphase
        exact absurd hphase (ungranted c rfl)
  | finished i call txn running granted known =>
      exact h.finish running granted known hlock
  | committed t order txn active iterates => exact h.commit active iterates
  | aborted t order txn active iterates => exact h.abort active iterates
  | refused => exact h

theorem Serializable.step {initial : Store} {m m' : TransactionManager}
    {a : TxnAction} (h : Serializable initial m) (hinv : m.Inv)
    (htimely : m.timely a) (hstep : m.step a = some m') :
    Serializable initial m' := by
  cases step_spec hstep with
  | began parent =>
      refine h.frame rfl rfl fun u hu => ?_
      have hne : u ≠ txnName m.nodeId (m.seq + 1) := by
        rintro rfl
        rcases hu with hu | hu
        · rw [hinv.lock.fresh] at hu
          cases hu
        · rw [begin_statusOf, if_pos rfl] at hu
          cases hu
      simp only [contents, TransactionManager.begin, log_transactions,
        transactions_putTxn, if_neg hne]
  | answered => exact h.frame rfl rfl fun _ _ => rfl
  | started => exact h.frame rfl rfl fun _ _ => rfl
  | locked => exact h.frame rfl rfl fun _ _ => rfl
  | moved => exact h.frame rfl rfl fun _ _ => rfl
  | finished i call txn running granted known =>
      exact h.finish known (open_of_timely htimely running granted)
  | committed t order txn active iterates => exact h.commit hinv active
  | aborted t order txn active iterates => exact h.abort active
  | refused => exact h

/--
Strict two-phase locking makes every run serializable in commit order, as long
as no call completes after the commit of its own transaction.
-/
theorem run_serializable (nodeId : Nat) (wal : Option Recovery.WriteAheadLog)
    (initial : Store) (actions : List TxnAction) (m : TransactionManager)
    (hfree : ∀ a ∈ actions, colonFreeCall a)
    (htimely : Along step (fun m a => m.timely a) (new nodeId wal initial)
      actions)
    (hrun : run step (new nodeId wal initial) actions = some m) :
    Serializable initial m := by
  have hstep : ∀ m a m', m.Inv ∧ Serializable initial m →
      colonFreeCall a ∧ m.timely a → m.step a = some m' →
      m'.Inv ∧ Serializable initial m' := by
    rintro m a m' ⟨hinv, hserial⟩ ⟨hfree, htimely⟩ hstep
    exact ⟨hinv.step hfree hstep, hserial.step hinv htimely hstep⟩
  exact (run_invariant hstep
    ⟨inv_new nodeId wal initial, serializable_new nodeId wal initial⟩
    (along_and hfree htimely) hrun).2

/-- The second transaction waits for the first, is granted the lock by its
commit, reads what it wrote and commits in turn. -/
def waitingReader : List TxnAction :=
  [.begin none, .begin none,
    .call 0 "node_0_txn_1" (.write "f" "a" "1"), .advance 0, .advance 0,
    .call 1 "node_0_txn_2" (.read "f" "a"), .advance 1, .advance 1,
    .commit "node_0_txn_1" ["f"],
    .advance 1, .advance 1, .advance 1,
    .commit "node_0_txn_2" ["f"]]

theorem waitingReader_serializable :
    ∃ m, run step (new 0 (some .new) fun _ => none) waitingReader = some m ∧
      m.commits = ["node_0_txn_1", "node_0_txn_2"] ∧
      Serializable (fun _ => none) m := by
  have hcommits : (run step (new 0 (some .new) fun _ => none)
      waitingReader).map commits = some ["node_0_txn_1", "node_0_txn_2"] := by
    decide +kernel
  obtain ⟨m, hrun, hm⟩ := Option.map_eq_some_iff.mp hcommits
  exact ⟨m, hrun, hm, run_serializable 0 (some .new) _ waitingReader m
    (by decide) (by decide +kernel) hrun⟩

/-- The second transaction commits while its own write still waits for the
first one; the write is granted afterwards and returns `True`. -/
def lateWrite : List TxnAction :=
  [.begin none, .begin none,
    .call 0 "node_0_txn_1" (.write "f" "a" "1"), .advance 0, .advance 0,
    .call 1 "node_0_txn_2" (.write "f" "b" "2"), .advance 1, .advance 1,
    .commit "node_0_txn_2" [],
    .commit "node_0_txn_1" ["f"],
    .advance 1, .advance 1, .advance 1]

theorem lateWrite_not_serializable :
    (∀ a ∈ lateWrite, colonFreeCall a) ∧
      ∃ m, run step (new 0 (some .new) fun _ => none) lateWrite = some m ∧
        m.threads 1 = .returned (.success true) ∧
        m.commits = ["node_0_txn_2", "node_0_txn_1"] ∧
        ¬ Serializable (fun _ => none) m := by
  have hend : (run step (new 0 (some .new) fun _ => none) lateWrite).map
      (fun m => (m.threads 1, m.commits, m.store ("f", "b"),
        m.replay (fun _ => none) m.commits ("f", "b"))) =
      some (.returned (.success true), ["node_0_txn_2", "node_0_txn_1"], none,
        some "2") := by
    decide +kernel
  obtain ⟨m, hrun, hm⟩ := Option.map_eq_some_iff.mp hend
  simp only [Prod.mk.injEq] at hm
  obtain ⟨hthread, hcommits, hstore, hreplay⟩ := hm
  refine ⟨by decide, m, hrun, hthread, hcommits, fun h => ?_⟩
  rw [h.store, hreplay] at hstore
  cases hstore

end TransactionManager

end DistributedMemory.Storage
