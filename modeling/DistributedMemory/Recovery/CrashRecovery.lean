import DistributedMemory.Recovery.Journal
import DistributedMemory.Recovery.LogTrace
import DistributedMemory.Storage.Serializability

/-!
# Recovery from the log of a transaction manager

The manager's log, record map and statuses are a journal, and every step of the
manager is a step of the journal or leaves it: strict two-phase locking keeps
two active transactions from writing one record, and the write buffer of an
active transaction is what it has logged.  So a crash after any record is
recovered from, as long as no write completes after the commit of its own
transaction.
-/

namespace DistributedMemory.Storage

open DistributedMemory.Library DistributedMemory.Recovery

def Op.filled : Op → Bool
  | .read _ _ => true
  | .write _ _ value => value ≠ ""

namespace TransactionManager

def journal (m : TransactionManager) : Journal :=
  ⟨m.logged, m.store, m.statusOf⟩

def filledCall : TxnAction → Bool
  | .call _ _ op => op.filled
  | _ => true

/-- A write that goes on with its granted lock belongs to a transaction that has
not committed in the meantime. -/
def timelyWrite (m : TransactionManager) : TxnAction → Bool
  | .advance i =>
      match m.threads i with
      | .running ⟨t, .write _ _ _, .granted⟩ => m.statusOf t ≠ some .committed
      | _ => true
  | _ => true

def activeBuffer (m : TransactionManager) (t : TxnId) :
    Option (Dict String String) :=
  (m.getActive t).map Transaction.writeBuffer

/-- The write buffer of an active transaction is what it has logged. -/
structure Books (m : TransactionManager) : Prop where
  opened : m.wal ≠ none
  filled : ∀ i call, m.threads i = .running call → call.op.filled
  named : ∀ t r k, m.journal.Wrote t (r, k) → ColonFree r
  buffers : ∀ t buffer, m.activeBuffer t = some buffer → ∀ r k, ColonFree r →
    (buffer.get? (bufKey r k)).map some =
      latest (writesBy (fun u => u = t) m.logged) (r, k)

theorem activeBuffer_of_contents {m m' : TransactionManager} {t : TxnId}
    (h : m'.contents t = m.contents t) :
    m'.activeBuffer t = m.activeBuffer t := by
  have hview : ∀ n : TransactionManager, n.activeBuffer t =
      (n.contents t).bind fun c =>
        if c.1 = .active then some c.2.2 else none := by
    intro n
    unfold activeBuffer getActive contents
    cases n.transactions.get? t with
    | none => rfl
    | some txn =>
        by_cases hs : txn.status = .active <;> simp [hs]
  rw [hview, hview, h]

theorem Books.frame {m m' : TransactionManager} (h : m.Books)
    (hwal : m'.wal = m.wal) (hjournal : m'.journal = m.journal)
    (hfilled : ∀ i call, m'.threads i = .running call → call.op.filled)
    (hbuffers : ∀ t, m'.activeBuffer t = m.activeBuffer t) : m'.Books where
  opened := hwal ▸ h.opened
  filled := hfilled
  named := hjournal ▸ h.named
  buffers t buffer hb r k hr := by
    have hlogged : m'.logged = m.logged := congrArg Journal.entries hjournal
    rw [hlogged]
    exact h.buffers t buffer (hbuffers t ▸ hb) r k hr

theorem Books.mark {m m' : TransactionManager} (h : m.Books) {e : LogEntry}
    (htype : e.entryType ≠ .write) (hlogged : m'.logged = m.logged ++ [e])
    (hthreads : m'.threads = m.threads) (hopened : m'.wal ≠ none)
    (hbuffers : ∀ u buffer, m'.activeBuffer u = some buffer →
      m.activeBuffer u = some buffer ∨
        buffer = .empty ∧ ∀ key, ¬ m.journal.Wrote u key) : m'.Books where
  opened := hopened
  filled i call hrun := h.filled i call (hthreads ▸ hrun)
  named u r k hw := by
    refine h.named u r k ?_
    have : Journal.Wrote ⟨m.logged ++ [e], m'.store, m'.statusOf⟩ u (r, k) :=
      hlogged ▸ hw
    simpa [htype] using (Journal.wrote_concat (j := m.journal)).mp this
  buffers u buffer hb r k hr := by
    rw [hlogged, writesBy_concat_other _ _ (.inl htype)]
    rcases hbuffers u buffer hb with hold | ⟨rfl, hnone⟩
    · exact h.buffers u buffer hold r k hr
    · exact (Journal.not_wrote_latest (hnone (r, k))).symm

/-! ## Locks and logged writes -/

private theorem holds_of_wrote {m : TransactionManager} (h : m.Inv) (hb : m.Books)
    {t : TxnId} {r : Resource} {k : String} (hr : ColonFree r)
    (hactive : m.statusOf t = some .active) (hwrote : m.journal.Wrote t (r, k)) :
    m.lockManager.Holds t r .exclusive := by
  obtain ⟨txn, hget, hstatus⟩ := Option.map_eq_some_iff.mp hactive
  have htxn : m.getActive t = some txn := getActive_eq_some.mpr ⟨hget, hstatus⟩
  have hbuffer := hb.buffers t txn.writeBuffer (by simp [activeBuffer, htxn])
    r k hr
  have hsome := Journal.wrote_iff.mp hwrote
  rw [show m.journal.entries = m.logged from rfl, ← hbuffer, Ne,
    Option.map_eq_none_iff] at hsome
  obtain ⟨v, hv⟩ := Option.ne_none_iff_exists'.mp hsome
  have hown := h.owns t txn htxn
  obtain ⟨r', k', hr', heq, hheld⟩ := hown.buffer _ v hv
  obtain ⟨rfl, -⟩ := Prod.mk.inj (bufKey_injective hr hr' heq)
  exact hown.locks r .exclusive hheld

theorem install_eq (store : Store) (items : List (String × String)) :
    install store items =
      assign (items.map fun item => (splitKey item.1, some item.2)) store := by
  simp only [assign, List.foldl_map]
  rfl

theorem latest_buffer {m : TransactionManager} (h : m.Inv) {t : TxnId}
    {txn : Transaction} (htxn : m.getActive t = some txn) {r : Resource}
    (hr : ColonFree r) (k : String) :
    latest (txn.writeBuffer.items.map fun item =>
      (splitKey item.1, some item.2)) (r, k) =
      (txn.writeBuffer.get? (bufKey r k)).map some := by
  have hkey : ∀ b v, (b, v) ∈ txn.writeBuffer.items → splitKey b = (r, k) →
      txn.writeBuffer.get? (bufKey r k) = some v := by
    intro b v hmem heq
    have hget := Dict.mem_items_iff.mp hmem
    obtain ⟨r', k', hr', rfl, -⟩ := (h.owns t txn htxn).buffer b v hget
    rw [splitKey_bufKey hr'] at heq
    obtain ⟨rfl, rfl⟩ := Prod.mk.inj heq
    exact hget
  cases hget : txn.writeBuffer.get? (bufKey r k) with
  | none =>
      rw [Option.map_none, latest_eq_none_iff]
      rintro u hu heq
      obtain ⟨⟨b, v⟩, hmem, rfl⟩ := List.mem_map.mp hu
      rw [hkey b v hmem heq] at hget
      cases hget
  | some v =>
      rw [Option.map_some]
      refine latest_of_agree ?_ ?_
      · intro w hw
        obtain ⟨⟨b, x⟩, hmem, heq⟩ := List.mem_map.mp hw
        obtain ⟨hsplit, rfl⟩ := Prod.mk.inj heq
        have := hkey b x hmem hsplit
        rw [hget] at this
        exact congrArg some (Option.some.inj this).symm
      · exact ⟨some v, List.mem_map.mpr ⟨(bufKey r k, v),
          Dict.mem_items_iff.mpr hget, by rw [splitKey_bufKey hr]⟩⟩

theorem install_buffer {m : TransactionManager} (h : m.Inv) (hb : m.Books)
    {t : TxnId} {txn : Transaction} (htxn : m.getActive t = some txn) :
    install m.store txn.writeBuffer.items =
      assign (writesBy (fun u => u = t) m.logged) m.store := by
  rw [install_eq]
  funext ⟨r, k⟩
  rw [assign_apply, assign_apply]
  by_cases hr : ColonFree r
  · rw [latest_buffer h htxn hr, hb.buffers t txn.writeBuffer
      (by simp [activeBuffer, htxn]) r k hr]
  · have hwrites : latest (writesBy (fun u => u = t) m.logged) (r, k) = none :=
      Journal.not_wrote_latest (j := m.journal) fun hw => hr (hb.named t r k hw)
    have hbuffer : latest (txn.writeBuffer.items.map fun item =>
        (splitKey item.1, some item.2)) (r, k) = none := by
      rw [latest_eq_none_iff]
      rintro u hu heq
      obtain ⟨⟨b, v⟩, hmem, rfl⟩ := List.mem_map.mp hu
      obtain ⟨r', k', hr', rfl, -⟩ := (h.owns t txn htxn).buffer b v
        (Dict.mem_items_iff.mp hmem)
      rw [splitKey_bufKey hr'] at heq
      obtain ⟨rfl, -⟩ := Prod.mk.inj heq
      exact hr hr'
    rw [hwrites, hbuffer]

/-! ## Steps -/

theorem statusOf_eq_update {m m' : TransactionManager} {t : TxnId}
    {x : TransactionStatus} (h : ∀ u, m'.statusOf u =
      if u = t then some x else m.statusOf u) :
    m'.statusOf = Function.update m.statusOf t (some x) := by
  funext u
  rw [h, Function.update_apply]

private theorem begin_refines {m : TransactionManager} (h : m.Inv) (hb : m.Books)
    (hknown : ∀ t key, m.journal.Wrote t key → m.statusOf t ≠ none)
    (parent : Option TxnId) :
    (m.begin parent).1.Books ∧ m.journal.Step (m.begin parent).1.journal := by
  have hfresh := h.lock.fresh
  obtain ⟨lsn, hlogged⟩ := logged_of_wal (n := (m.begin parent).1) hb.opened
    rfl
  have hopened : (m.begin parent).1.wal ≠ none := by
    simpa [TransactionManager.begin] using hb.opened
  refine ⟨hb.mark (by simp) hlogged rfl hopened fun u buffer hu => ?_, ?_⟩
  · by_cases hnew : u = txnName m.nodeId (m.seq + 1)
    · refine .inr ⟨?_, fun key hw => hknown u key hw (hnew ▸ hfresh)⟩
      have : (m.begin parent).1.activeBuffer u = some .empty := by
        simp [activeBuffer, getActive, TransactionManager.begin,
          transactions_putTxn, hnew, Transaction.new]
      rw [this] at hu
      exact (Option.some.inj hu).symm
    · refine .inl ?_
      rw [← hu]
      refine (activeBuffer_of_contents ?_).symm
      simp [contents, TransactionManager.begin, transactions_putTxn, hnew]
  · have hstatus := statusOf_eq_update (begin_statusOf m parent)
    simp only [journal, hlogged, hstatus]
    exact .began (j := m.journal) lsn _ hfresh

private theorem finishWrite_refines {m : TransactionManager} (h : m.Inv) (hb : m.Books)
    {i : ThreadId} {t : TxnId} {resource key value : String}
    {txn : Transaction} (hget : m.transactions.get? t = some txn)
    (hrun : m.threads i = .running ⟨t, .write resource key value, .granted⟩)
    (hopen : m.statusOf t ≠ some .committed) :
    (m.finishWrite i t txn resource key value).Books ∧
      m.journal.Step (m.finishWrite i t txn resource key value).journal := by
  have hfree : ColonFree resource := h.colonFree i _ hrun
  have hkey := recordKey_bufKey hfree key
  obtain ⟨lsn, hlogged⟩ := logged_of_wal
    (n := m.finishWrite i t txn resource key value) hb.opened rfl
  have hfinish : m.finishWrite i t txn resource key value =
      m.finish i t txn (.write resource key value) := rfl
  have hstatus : (m.finishWrite i t txn resource key value).statusOf =
      m.statusOf := funext fun u => by
    rw [hfinish, finish_statusOf hget]
  have hunfinished : m.statusOf t = some .active ∨
      m.statusOf t = some .aborted := by
    have hknown := h.lock.known i _ hrun
    rcases hs : m.statusOf t with _ | _ | _ | _
    · exact absurd hs hknown
    · exact .inl rfl
    · exact absurd hs hopen
    · exact .inr rfl
  refine ⟨⟨?_, fun j call hj => ?_, fun u r k hw => ?_,
    fun u buffer hu r k hr => ?_⟩, ?_⟩
  · simpa [finishWrite] using hb.opened
  · exact hb.filled j call (finish_threads m i t txn _ (hfinish ▸ hj))
  · have hw : Journal.Wrote ⟨m.logged ++ [⟨lsn, t, .write, bufKey resource key,
        (readRecord m.store resource key).getD "", value⟩], m.store,
        m.statusOf⟩ u (r, k) := by
      have hstore : (m.finishWrite i t txn resource key value).store =
          m.store := rfl
      simpa only [journal, hlogged, hstatus, hstore] using hw
    rcases (Journal.wrote_concat (j := m.journal)).mp hw with hw | ⟨-, -, heq⟩
    · exact hb.named u r k hw
    · rw [hkey] at heq
      obtain ⟨rfl, -⟩ := Prod.mk.inj heq
      exact hfree
  · rw [hlogged, writesBy_concat, latest_append]
    by_cases hut : u = t
    · subst hut
      -- The buffer and the log gain the same write.
      obtain ⟨old, hold, hnew⟩ : ∃ old, m.activeBuffer u = some old ∧
          buffer = old.set (bufKey resource key) value := by
        simp only [activeBuffer, getActive, hfinish, finish_transactions,
          transactions_putTxn, if_true, bookedTxn] at hu ⊢
        by_cases hs : txn.status = .active
        · simp only [hs, if_true, Option.map_some, Option.some.injEq] at hu
          exact ⟨txn.writeBuffer, by simp [hget, hs], hu.symm⟩
        · simp [hs] at hu
      rw [hnew, Dict.get?_set, ← hb.buffers u old hold r k hr]
      by_cases heq : bufKey r k = bufKey resource key
      · have hpair := bufKey_injective hr hfree heq
        simp [heq, hkey, hpair]
      · have hpair : (resource, key) ≠ (r, k) := by
          rintro hpair
          obtain ⟨rfl, rfl⟩ := Prod.mk.inj hpair
          exact heq rfl
        simp [heq, hkey, hpair]
    · have hsame : (m.finishWrite i t txn resource key value).activeBuffer u =
          m.activeBuffer u := by
        refine activeBuffer_of_contents ?_
        rw [hfinish]
        simp only [contents, finish_transactions, transactions_putTxn,
          if_neg hut]
      rw [if_neg (by simp [Ne.symm hut]), latest_nil, Option.none_or]
      exact hb.buffers u buffer (hsame ▸ hu) r k hr
  · simp only [journal, hlogged, hstatus]
    refine .wrote (j := m.journal) lsn t resource key value hfree ?_
      hunfinished ?_
    · simpa [Op.filled] using hb.filled i _ hrun
    · -- Two writers of the resource would both hold it exclusively.
      intro hactive u hne hu hwrote
      have hheld := holds_of_wrote h hb hfree hu hwrote
      obtain ⟨x, hx, hs⟩ := Option.map_eq_some_iff.mp hactive
      have hmine := h.granted i _ x hrun rfl (getActive_eq_some.mpr ⟨hx, hs⟩)
      exact hne (hmine.eq_of_exclusive h.lock.valid hheld)

private theorem commit_refines {m : TransactionManager} (h : m.Inv) (hb : m.Books)
    {t : TxnId} {txn : Transaction} (hactive : m.getActive t = some txn)
    (order : List Resource) : (m.commit t order).1.Books ∧
      m.journal.Step (m.commit t order).1.journal := by
  obtain ⟨lsn, hlogged⟩ := logged_of_wal (n := (m.commit t order).1) hb.opened
    (commit_wal hactive order)
  refine ⟨hb.mark (by simp) hlogged (commit_threads hactive order) ?_
    fun u buffer hu => .inl ?_, ?_⟩
  · rw [commit_wal hactive]
    simpa using hb.opened
  · have hcontents := commit_contents hactive order u
    by_cases hut : u = t
    · rw [if_pos hut] at hcontents
      obtain ⟨x, hx, heq⟩ := Option.map_eq_some_iff.mp hcontents
      simp only [Prod.mk.injEq] at heq
      simp [activeBuffer, getActive, hx, heq.1] at hu
    · rw [if_neg hut] at hcontents
      rw [← hu, activeBuffer_of_contents hcontents]
  · simp only [journal, hlogged, commit_store hactive,
      install_buffer h hb hactive,
      statusOf_eq_update (commit_statusOf hactive order)]
    exact .committed (j := m.journal) lsn t (statusOf_of_getActive hactive)

private theorem abort_refines {m : TransactionManager} (hb : m.Books)
    {t : TxnId} {txn : Transaction} (hactive : m.getActive t = some txn)
    (order : List Resource) : (m.abort t order).Books ∧
      m.journal.Step (m.abort t order).journal := by
  have hwal : (m.abort t order).wal = m.wal.map (·.logAbort t) := by
    rw [abort_eq hactive]
    rfl
  have hstore : (m.abort t order).store = m.store := by
    rw [abort_eq hactive]
    rfl
  obtain ⟨lsn, hlogged⟩ := logged_of_wal (n := m.abort t order) hb.opened hwal
  refine ⟨hb.mark (by simp) hlogged (abort_threads hactive order) ?_
    fun u buffer hu => .inl ?_, ?_⟩
  · rw [hwal]
    simpa using hb.opened
  · by_cases hut : u = t
    · simp [abort_eq hactive, activeBuffer, getActive, transactions_putTxn,
        hut] at hu
    · rw [← hu]
      refine (activeBuffer_of_contents ?_).symm
      simp only [abort_eq hactive, contents, releaseAll_transactions,
        transactions_putTxn, if_neg hut, log_transactions]
  · simp only [journal, hlogged, hstore,
      statusOf_eq_update (abort_statusOf hactive order)]
    exact .aborted (j := m.journal) lsn t (statusOf_of_getActive hactive)

theorem step_refines {m m' : TransactionManager} {a : TxnAction} (h : m.Inv)
    (hb : m.Books)
    (hknown : ∀ t key, m.journal.Wrote t key → m.statusOf t ≠ none)
    (hfilled : filledCall a) (htimely : m.timelyWrite a)
    (hstep : m.step a = some m') :
    m'.Books ∧ (m'.journal = m.journal ∨ m.journal.Step m'.journal) := by
  -- Only thread `i` changes, to a call that writes no empty value.
  have hset : ∀ {n : TransactionManager} {i : ThreadId} {thread : Thread},
      n.threads = m.threads →
      (∀ c, thread = .running c → c.op.filled) →
      ∀ j call, (n.setThread i thread).threads j = .running call →
        call.op.filled := by
    intro n i thread hn hthread j call hrun
    rw [threads_setThread] at hrun
    split at hrun
    · exact hthread call hrun
    · exact hb.filled j call (hn ▸ hrun)
  cases step_spec hstep with
  | began parent => exact (begin_refines h hb hknown parent).imp_right .inr
  | answered i t op reply =>
      exact ⟨hb.frame rfl rfl (hset rfl (by simp)) fun _ => rfl, .inl rfl⟩
  | started i t op phase txn active covered =>
      refine ⟨hb.frame rfl rfl (hset rfl ?_) fun _ => rfl, .inl rfl⟩
      rintro c ⟨⟩
      exact hfilled
  | locked i call lt lm e granted answer thread running attempt mode acquires
      rewrites next =>
      refine ⟨hb.frame rfl rfl (hset rfl ?_) fun _ => rfl, .inl rfl⟩
      rintro c rfl
      rcases next with ⟨-, heq⟩ | ⟨-, -, hsame⟩
      · obtain rfl := Thread.running.inj heq
        exact hb.filled i call running
      · rw [(hsame c rfl).2]
        exact hb.filled i call running
  | moved i call _ thread events signalled running action unattempted ungranted
      same =>
      refine ⟨hb.frame rfl rfl (hset rfl ?_) fun _ => rfl, .inl rfl⟩
      rintro c rfl
      rw [(same c rfl).2]
      exact hb.filled i call running
  | finished i call txn running granted known =>
      obtain ⟨t, op, phase⟩ := call
      subst granted
      cases op with
      | read resource key =>
          have hjournal : (m.finish i t txn (.read resource key)).journal =
              m.journal := by
            have := funext (finish_statusOf known i (.read resource key))
            simp only [journal, this]
            rfl
          refine ⟨hb.frame rfl hjournal ?_ fun u => ?_, .inl hjournal⟩
          · exact fun j c hj => hb.filled j c (finish_threads m i t txn _ hj)
          · simp only [activeBuffer, getActive, finish_transactions,
              transactions_putTxn]
            by_cases hut : u = t
            · subst hut
              rw [if_pos rfl, known]
              simp only [bookedTxn]
              by_cases hs : txn.status = .active <;> simp [hs]
            · rw [if_neg hut]
      | write resource key value =>
          have hopen : m.statusOf t ≠ some .committed := by
            simpa [timelyWrite, running] using htimely
          exact (finishWrite_refines h hb known running hopen).imp_right .inr
  | committed t order txn active iterates =>
      exact (commit_refines h hb active order).imp_right .inr
  | aborted t order txn active iterates =>
      exact (abort_refines hb active order).imp_right .inr
  | refused => exact ⟨hb, .inl rfl⟩

/-! ## Runs -/

structure Recoverable (initial : Store) (m : TransactionManager) : Prop where
  inv : m.Inv
  books : m.Books
  journal : m.journal.Inv initial
  cuts : ∀ cut, cut <+: m.logged → ∃ j : Journal, j.Inv initial ∧
    j.entries = cut

theorem recoverable_new (nodeId : Nat) {initial : Store}
    (hfull : ∀ key, initial key ≠ some "") :
    (new nodeId (some .new) initial).Recoverable initial where
  inv := inv_new nodeId (some .new) initial
  books :=
    { opened := by simp [new]
      filled := by simp [new]
      named := by
        rintro t r k ⟨e, he, -⟩
        cases he
      buffers := by simp [new, activeBuffer, getActive] }
  journal := Journal.inv_initial hfull
  cuts cut hcut := by
    obtain rfl := List.prefix_nil.mp hcut
    exact ⟨_, Journal.inv_initial hfull, rfl⟩

theorem Recoverable.step {initial : Store} {m m' : TransactionManager}
    {a : TxnAction} (h : m.Recoverable initial) (hfree : colonFreeCall a)
    (hfilled : filledCall a) (htimely : m.timelyWrite a)
    (hstep : m.step a = some m') : m'.Recoverable initial := by
  obtain ⟨hbooks, hjournal⟩ :=
    step_refines h.inv h.books h.journal.known hfilled htimely hstep
  have hinv : m'.journal.Inv initial := by
    rcases hjournal with hsame | hstep
    · exact hsame ▸ h.journal
    · exact h.journal.step hstep
  refine ⟨h.inv.step hfree hstep, hbooks, hinv, fun cut hcut => ?_⟩
  -- A cut of the new log is the new log itself or a cut of the old one.
  have hlogged : m'.logged = m.logged ∨ ∃ e, m'.logged = m.logged ++ [e] := by
    rcases hjournal with hsame | hstep
    · exact .inl (congrArg Journal.entries hsame)
    · obtain ⟨e, he⟩ := hstep.entries
      exact .inr ⟨e, he⟩
  rcases hlogged with hsame | ⟨e, he⟩
  · exact h.cuts cut (hsame ▸ hcut)
  · rw [he, List.prefix_concat_iff] at hcut
    rcases hcut with rfl | hcut
    · exact ⟨m'.journal, hinv, he⟩
    · exact h.cuts cut hcut

theorem run_recoverable {nodeId : Nat} {initial : Store}
    {actions : List TxnAction} {m : TransactionManager}
    (hfull : ∀ key, initial key ≠ some "")
    (hfree : ∀ a ∈ actions, colonFreeCall a)
    (hfilled : ∀ a ∈ actions, filledCall a)
    (htimely : Along step (fun m a => m.timelyWrite a)
      (new nodeId (some .new) initial) actions)
    (hrun : run step (new nodeId (some .new) initial) actions = some m) :
    m.Recoverable initial := by
  refine run_invariant ?_ (recoverable_new nodeId hfull)
    (along_and hfree (along_and hfilled htimely)) hrun
  rintro m a m' h ⟨hfree, hfilled, htimely⟩ hstep
  exact h.step hfree hfilled htimely hstep

/--
Whatever record the crash comes after and whatever logged writes had reached the
record files, recovery leaves in every record the last committed write in commit
order, or what the record held before the run.
-/
theorem run_recover (nodeId : Nat) (initial : Store) (actions : List TxnAction)
    (m : TransactionManager) (cut : List LogEntry) (image : Store)
    (order : List TxnId) (hfull : ∀ key, initial key ≠ some "")
    (hfree : ∀ a ∈ actions, colonFreeCall a)
    (hfilled : ∀ a ∈ actions, filledCall a)
    (htimely : Along step (fun m a => m.timelyWrite a)
      (new nodeId (some .new) initial) actions)
    (hrun : run step (new nodeId (some .new) initial) actions = some m)
    (hcut : cut <+: m.logged) (himage : CrashImage initial cut image) :
    (recover (.reopen cut) image order).store = committedState initial cut := by
  obtain ⟨j, hj, rfl⟩ :=
    (run_recoverable hfull hfree hfilled htimely hrun).cuts cut hcut
  exact hj.recover rfl himage order

/-- One transaction commits a write of a record; another one writes it after
waiting for the lock and is cut off by the crash. -/
def unfinishedWriter : List TxnAction :=
  [.begin none, .begin none,
    .call 0 "node_0_txn_1" (.write "f" "a" "1"), .advance 0, .advance 0,
    .call 1 "node_0_txn_2" (.write "f" "a" "2"), .advance 1, .advance 1,
    .commit "node_0_txn_1" ["f"],
    .advance 1, .advance 1, .advance 1]

theorem unfinishedWriter_recover :
    ∃ m, run step (new 0 (some .new) fun _ => none) unfinishedWriter = some m ∧
      m.logged.length = 5 ∧ (recover (.reopen m.logged)
        (writeRecord (fun _ => none) "f" "a" "2") ["node_0_txn_2"]).store =
      committedState (fun _ => none) m.logged := by
  have hlog : (run step (new 0 (some .new) fun _ => none) unfinishedWriter).map
      logged = some [⟨1, "node_0_txn_1", .begin, "", "", ""⟩,
        ⟨2, "node_0_txn_2", .begin, "", "", ""⟩,
        ⟨3, "node_0_txn_1", .write, "f:a", "", "1"⟩,
        ⟨4, "node_0_txn_1", .commit, "", "", ""⟩,
        ⟨5, "node_0_txn_2", .write, "f:a", "1", "2"⟩] := by
    decide +kernel
  obtain ⟨m, hrun, hm⟩ := Option.map_eq_some_iff.mp hlog
  have hkey : recordKey "f:a" = ("f", "a") := by decide
  refine ⟨m, hrun, by rw [hm]; rfl, run_recover 0 _ unfinishedWriter m m.logged _
    _ (by simp) (by decide) (by decide) (by decide +kernel) hrun
    (List.prefix_refl _) fun key => ?_⟩
  -- The write of the unfinished transaction has reached the file.
  by_cases hk : key = ("f", "a")
  · subst hk
    exact .inr ⟨⟨5, "node_0_txn_2", .write, "f:a", "1", "2"⟩, by simp [hm], rfl,
      hkey, by simp [hm, Records], by simp [writeRecord]⟩
  · exact .inl (by simp [writeRecord, hk])

/-- A write still waits when its transaction commits; it is granted by the later
commit of the other writer of the record, and logged after both. -/
def lateLoggedWrite : List TxnAction :=
  [.begin none, .begin none,
    .call 0 "node_0_txn_1" (.write "f" "a" "1"), .advance 0, .advance 0,
    .call 1 "node_0_txn_2" (.write "f" "a" "2"), .advance 1, .advance 1,
    .commit "node_0_txn_2" [],
    .commit "node_0_txn_1" ["f"],
    .advance 1, .advance 1, .advance 1]

theorem lateLoggedWrite_not_recovered :
    (∀ a ∈ lateLoggedWrite, colonFreeCall a ∧ filledCall a) ∧
      ∃ m, run step (new 0 (some .new) fun _ => none) lateLoggedWrite = some m ∧
        CrashImage (fun _ => none) m.logged (fun _ => none) ∧
        (recover (.reopen m.logged) (fun _ => none) []).store ≠
          committedState (fun _ => none) m.logged := by
  have hend : (run step (new 0 (some .new) fun _ => none) lateLoggedWrite).map
      (fun m => ((recover (.reopen m.logged) (fun _ => none) []).store
        ("f", "a"), committedState (fun _ => none) m.logged ("f", "a"))) =
      some (some "2", some "1") := by
    decide +kernel
  obtain ⟨m, hrun, hm⟩ := Option.map_eq_some_iff.mp hend
  obtain ⟨hrecovered, hcommitted⟩ := Prod.mk.inj hm
  refine ⟨by decide, m, hrun, fun _ => .inl rfl, fun heq => ?_⟩
  rw [heq, hcommitted] at hrecovered
  exact absurd hrecovered (by decide)

end TransactionManager

end DistributedMemory.Storage
