import DistributedMemory.Recovery.Journal

/-!
# Logs with a checkpoint

A checkpoint record lists the transactions that are active.  `recover` reads the
log from the last such record on, so what a listed transaction has written
before it is neither redone nor undone.  A journal that goes on after the record
tells what is then missing: only a committed write that has not been installed
and has no later write of its transaction to stand for it.
-/

namespace DistributedMemory.Recovery

open DistributedMemory.Library DistributedMemory.Storage

def activeTxns (m : TransactionManager) : List TxnId :=
  (m.transactions.items.filter fun item => item.2.status = .active).map Prod.fst

/-- `RecoveryManager.checkpoint`: one record with the active transactions. -/
def checkpoint (wal : WriteAheadLog) (m : TransactionManager) : WriteAheadLog :=
  wal.logCheckpoint (activeTxns m)

/-- The log without its checkpoint records. -/
def withoutCheckpoint (entries : List LogEntry) : List LogEntry :=
  entries.filter fun e => e.entryType ≠ .checkpoint

/-- A log with one checkpoint record, between the records `found` before it and
the records `own` after it. -/
structure Marked (found : List LogEntry) (mark : LogEntry)
    (own entries : List LogEntry) : Prop where
  log : entries = found ++ mark :: own
  type : mark.entryType = .checkpoint
  found : ∀ e ∈ found, e.entryType ≠ .checkpoint ∧ e.lsn < mark.lsn
  own : ∀ e ∈ own, e.entryType ≠ .checkpoint ∧ mark.lsn < e.lsn

/-! ## The names in a checkpoint record -/

theorem mem_of_mem_splitActive {names : List TxnId}
    (hcomma : ∀ t ∈ names, ',' ∉ t.toList) {t : TxnId}
    (ht : t ∈ splitActive (",".intercalate names)) : t ∈ names := by
  rw [splitActive] at ht
  split at ht
  · simp at ht
  · next hne =>
    have hnames : names ≠ [] := by
      rintro rfl
      exact hne rfl
    have hsplit : (",".intercalate names).toList.splitOn ',' =
        names.map String.toList := by
      rw [String.toList_intercalate]
      refine List.splitOn_intercalate ',' (fun l hl => ?_) (by simpa using hnames)
      obtain ⟨u, hu, rfl⟩ := List.mem_map.mp hl
      exact hcomma u hu
    rw [hsplit, List.mem_toFinset, List.map_map] at ht
    obtain ⟨u, hu, rfl⟩ := List.mem_map.mp ht
    simpa using hu

/-! ## What the analysis finds -/

section Marked

variable {found own entries : List LogEntry} {mark : LogEntry}
  (h : Marked found mark own entries)

include h

theorem Marked.lastCheckpoint_eq : lastCheckpoint entries =
    (mark.lsn, splitActive mark.afterValue) := by
  rw [h.log, List.append_cons, lastCheckpoint_append _ fun e he => (h.own e he).1]
  simp only [lastCheckpoint, List.foldl_append, List.foldl_cons, List.foldl_nil,
    if_pos h.type]

theorem Marked.relevant_eq : relevant entries = mark :: own := by
  have hfound : (found.filter fun e => e.lsn ≥ mark.lsn) = [] := by
    rw [List.filter_eq_nil_iff]
    intro e he
    have := (h.found e he).2
    simp only [decide_eq_true_eq]
    omega
  have hown : (own.filter fun e => e.lsn ≥ mark.lsn) = own := by
    rw [List.filter_eq_self]
    intro e he
    have := (h.own e he).2
    simp only [decide_eq_true_eq]
    omega
  rw [relevant, h.lastCheckpoint_eq, h.log, List.filter_append, hfound,
    List.nil_append, List.filter_cons_of_pos (by simp), hown]

theorem Marked.withoutCheckpoint_eq :
    withoutCheckpoint entries = found ++ own := by
  have hall : ∀ es : List LogEntry, (∀ e ∈ es, e.entryType ≠ .checkpoint) →
      es.filter (fun e => e.entryType ≠ .checkpoint) = es := by
    intro es hes
    rw [List.filter_eq_self]
    exact fun e he => decide_eq_true (hes e he)
  rw [withoutCheckpoint, h.log, List.filter_append,
    List.filter_cons_of_neg (by simp [h.type]),
    hall found fun e he => (h.found e he).1, hall own fun e he => (h.own e he).1]

theorem Marked.records {types : List EntryType}
    (hmark : EntryType.checkpoint ∉ types) (t : TxnId) :
    Records types (relevant entries) t ↔ Records types own t := by
  rw [h.relevant_eq, ← List.singleton_append, records_append, records_singleton,
    h.type]
  simp [hmark]

theorem Marked.mem_committedIn (t : TxnId) : t ∈ committedIn entries ↔
    Records [.commit, .globalCommit] own t := by
  rw [committedIn, (mem_analyze _ t).2.1, h.records (by simp)]

theorem Marked.mem_activeIn (t : TxnId) : t ∈ activeIn entries ↔
    (Records [.begin] own t ∨ t ∈ splitActive mark.afterValue) ∧
      ¬ Records [.commit, .globalCommit] own t ∧
      ¬ Records [.abort, .globalAbort] own t := by
  rw [activeIn, Finset.mem_sdiff, Finset.mem_sdiff, Finset.mem_union,
    h.mem_committedIn, abortedIn, (mem_analyze _ t).1, (mem_analyze _ t).2.2,
    h.records (by simp), h.records (by simp), h.lastCheckpoint_eq, and_assoc]

theorem Marked.recover_store {wal : WriteAheadLog} (hwal : wal.entries = entries)
    (store : Store) (order : List TxnId) : (recover wal store order).store =
      assign (undoneWrites (fun t => t ∈ activeIn entries) own)
        (assign (writesBy (fun t => t ∈ committedIn entries) own) store) := by
  have hwrites : ∀ p, writesBy p (mark :: own) = writesBy p own := fun p => by
    rw [writesBy, writesBy, List.filter_cons_of_neg (by simp [h.type])]
  have hundone : ∀ p, undoneWrites p (mark :: own) = undoneWrites p own :=
    fun p => by
      rw [undoneWrites, undoneWrites, List.reverse_cons, List.filter_append,
        List.filter_cons_of_neg (by simp [h.type]), List.filter_nil,
        List.append_nil]
  rw [recover_store_relevant, hwal, h.relevant_eq, hwrites, hundone]

theorem Marked.concat {e : LogEntry} (htype : e.entryType ≠ .checkpoint)
    (hlsn : mark.lsn < e.lsn) :
    Marked found mark (own ++ [e]) (entries ++ [e]) where
  log := by simp [h.log]
  type := h.type
  found := h.found
  own e' he := by
    rcases List.mem_append.mp he with he | he
    · exact h.own e' he
    · obtain rfl := List.mem_singleton.mp he
      exact ⟨htype, hlsn⟩

end Marked

/-! ## The checkpoint record left out -/

theorem writesBy_withoutCheckpoint (p : TxnId → Bool)
    (entries : List LogEntry) :
    writesBy p (withoutCheckpoint entries) = writesBy p entries := by
  rw [writesBy, writesBy, withoutCheckpoint, List.filter_filter]
  congr 1
  refine List.filter_congr fun e _ => ?_
  by_cases h : e.entryType = .write <;> simp [h]

namespace Journal

def plain (j : Journal) : Journal :=
  ⟨withoutCheckpoint j.entries, j.store, j.status⟩

theorem plain_concat (j : Journal) {e : LogEntry}
    (h : e.entryType ≠ .checkpoint) (store : Store)
    (status : TxnId → Option TransactionStatus) :
    plain ⟨j.entries ++ [e], store, status⟩ =
      ⟨j.plain.entries ++ [e], store, status⟩ := by
  simp only [plain, withoutCheckpoint, List.filter_append]
  rw [List.filter_cons_of_pos (by simpa), List.filter_nil]

theorem plain_wrote {j : Journal} {t : TxnId} {key : RecordKey} :
    j.plain.Wrote t key ↔ j.Wrote t key := by
  constructor
  · rintro ⟨e, he, hwrite⟩
    exact ⟨e, List.mem_of_mem_filter he, hwrite⟩
  · rintro ⟨e, he, hwrite, hkey⟩
    exact ⟨e, List.mem_filter.mpr ⟨he, by simp [hwrite]⟩, hwrite, hkey⟩

theorem Step.plain {j j' : Journal} (h : j.Step j') :
    j.plain.Step j'.plain := by
  cases h with
  | began lsn t fresh =>
      rw [plain_concat j (by simp)]
      exact .began (j := j.plain) lsn t fresh
  | wrote lsn t resource key after colonFree filled unfinished alone =>
      rw [plain_concat j (by simp)]
      refine .wrote (j := j.plain) lsn t resource key after colonFree filled
        unfinished fun ht u hne hu hw => ?_
      exact alone ht u hne hu (plain_wrote.mp hw)
  | committed lsn t active =>
      rw [plain_concat j (by simp), ← writesBy_withoutCheckpoint]
      exact .committed (j := j.plain) lsn t active
  | aborted lsn t active =>
      rw [plain_concat j (by simp)]
      exact .aborted (j := j.plain) lsn t active

end Journal

/-! ## A journal that goes on after a checkpoint -/

namespace Journal

/-- The journal `j` goes on from `old` with the records `own`. -/
structure Since (old j : Journal) (own : List LogEntry) : Prop where
  log : j.entries = old.entries ++ own
  begun : ∀ e ∈ own, e.entryType = .begin → old.status e.txnId = none
  late : ∀ e ∈ own, e.entryType = .write →
    old.status e.txnId ≠ some .committed
  apart : ∀ e ∈ own, e.entryType = .write → ∀ t, j.status t = some .active →
    old.Wrote t (recordKey e.resource) →
    e.txnId = t ∨ j.status e.txnId = some .aborted

theorem since_refl (j : Journal) : j.Since j [] where
  log := by simp
  begun := by simp
  late := by simp
  apart := by simp

section Since

variable {initial : Store} {old j j' : Journal} {own : List LogEntry}
  (hold : old.Inv initial) (h : j.Inv initial) (hs : old.Since j own)

include hold h hs

private theorem Since.committed_of {t : TxnId} (ht : old.status t = some .committed) :
    j.status t = some .committed := by
  rw [← h.commit, hs.log, records_append]
  exact .inl ((hold.commit t).mpr ht)

theorem Since.known_of {t : TxnId} (ht : old.status t ≠ none) :
    j.status t ≠ none := by
  rw [← h.begin, hs.log, records_append]
  exact .inl ((hold.begin t).mpr ht)

omit hold h in
private theorem Since.wrote_of {t : TxnId} {key : RecordKey} (hw : old.Wrote t key) :
    j.Wrote t key := by
  obtain ⟨e, he, hwrite⟩ := hw
  exact ⟨e, by rw [hs.log]; exact List.mem_append_left _ he, hwrite⟩

theorem Since.mark {lsn : Nat} {t : TxnId} {type : EntryType}
    {x : TransactionStatus} {store : Store}
    (hmark : (type = .begin ∧ x = .active ∧ j.status t = none) ∨
      ((type = .commit ∨ type = .abort) ∧ x ≠ .active ∧
        j.status t = some .active)) :
    old.Since ⟨j.entries ++ [⟨lsn, t, type, "", "", ""⟩], store,
      Function.update j.status t (some x)⟩
      (own ++ [⟨lsn, t, type, "", "", ""⟩]) := by
  have htype : type ≠ .write := by
    rcases hmark with ⟨rfl, -⟩ | ⟨rfl | rfl, -⟩ <;> simp
  refine ⟨by rw [hs.log, List.append_assoc], fun e he hbegin => ?_,
    fun e he hwrite => ?_, fun e he hwrite u hu hw => ?_⟩
  · rcases List.mem_append.mp he with he | he
    · exact hs.begun e he hbegin
    · obtain rfl := List.mem_singleton.mp he
      rcases hmark with ⟨-, -, hnone⟩ | ⟨rfl | rfl, -⟩
      · by_contra hsome
        exact hs.known_of hold h hsome hnone
      · cases hbegin
      · cases hbegin
  · rcases List.mem_append.mp he with he | he
    · exact hs.late e he hwrite
    · obtain rfl := List.mem_singleton.mp he
      exact absurd hwrite htype
  · rcases List.mem_append.mp he with he | he
    · have hut : u ≠ t := by
        rintro rfl
        rcases hmark with ⟨-, -, hnone⟩ | ⟨-, hx, -⟩
        · exact hs.known_of hold h (hold.known u _ hw) hnone
        · simp [hx] at hu
      dsimp only at hu ⊢
      rw [Function.update_of_ne hut] at hu
      refine (hs.apart e he hwrite u hu hw).imp_right fun haborted => ?_
      have het : e.txnId ≠ t := by
        rintro heq
        rw [heq] at haborted
        rcases hmark with ⟨-, -, hnone⟩ | ⟨-, -, hactive⟩
        · rw [hnone] at haborted
          cases haborted
        · rw [hactive] at haborted
          cases haborted
      rw [Function.update_of_ne het]
      exact haborted
    · obtain rfl := List.mem_singleton.mp he
      exact absurd hwrite htype

theorem Since.step (hstep : j.Step j') : ∃ e, old.Since j' (own ++ [e]) := by
  cases hstep with
  | began lsn t fresh => exact ⟨_, hs.mark hold h (.inl ⟨rfl, rfl, fresh⟩)⟩
  | committed lsn t active =>
      exact ⟨_, hs.mark hold h (.inr ⟨.inl rfl, by simp, active⟩)⟩
  | aborted lsn t active =>
      exact ⟨_, hs.mark hold h (.inr ⟨.inr rfl, by simp, active⟩)⟩
  | wrote lsn t resource key after colonFree filled unfinished alone =>
      refine ⟨_, by rw [hs.log, List.append_assoc], fun e he hbegin => ?_,
        fun e he hwrite => ?_, fun e he hwrite u hu hw => ?_⟩
      · rcases List.mem_append.mp he with he | he
        · exact hs.begun e he hbegin
        · obtain rfl := List.mem_singleton.mp he
          cases hbegin
      · rcases List.mem_append.mp he with he | he
        · exact hs.late e he hwrite
        · obtain rfl := List.mem_singleton.mp he
          intro hcommitted
          have := hs.committed_of hold h hcommitted
          rcases unfinished with ht | ht <;> simp [ht] at this
      · rcases List.mem_append.mp he with he | he
        · exact hs.apart e he hwrite u hu hw
        · -- No other active transaction has written the record.
          obtain rfl := List.mem_singleton.mp he
          rw [recordKey_bufKey colonFree] at hw
          rcases unfinished with ht | ht
          · by_contra hnot
            refine alone ht u (fun heq => hnot (.inl heq.symm)) hu ?_
            exact hs.wrote_of hw
          · exact .inr ht

end Since

/-! ## Recovery from the checkpoint -/

section Recovery

variable {initial : Store} {old j : Journal} {own entries : List LogEntry}
  {mark : LogEntry} (hold : old.Inv initial) (h : j.Inv initial)
  (hs : old.Since j own) (hmark : Marked old.entries mark own entries)

include hold h hs

private theorem Since.commit_iff {e : LogEntry} (he : e ∈ own)
    (hwrite : e.entryType = .write) :
    Records [.commit, .globalCommit] own e.txnId ↔
      j.status e.txnId = some .committed := by
  rw [← h.records_commit, hs.log, records_append]
  refine (or_iff_right fun hcommit => hs.late e he hwrite ?_).symm
  exact (hold.records_commit _).mp hcommit

include hmark in
private theorem Since.active_of (hlisted : ∀ t ∈ splitActive mark.afterValue,
      old.status t = some .active) {t : TxnId}
    (ht : t ∈ activeIn entries) : j.status t = some .active := by
  obtain ⟨hbegan, hcommit, habort⟩ := (hmark.mem_activeIn t).mp ht
  have hfirst : old.status t = none ∨ old.status t = some .active := by
    rcases hbegan with ⟨e, he, htype, rfl⟩ | hin
    · exact .inl (hs.begun e he (List.mem_singleton.mp htype))
    · exact .inr (hlisted t hin)
  have hbegun : j.status t ≠ none := by
    rcases hbegan with hbegan | hin
    · rw [← h.begin, hs.log, records_append]
      exact .inr hbegan
    · exact hs.known_of hold h (by simp [hlisted t hin])
  have hcommitted : j.status t ≠ some .committed := by
    rw [Ne, ← h.records_commit, hs.log, records_append, not_or,
      hold.records_commit]
    exact ⟨by rcases hfirst with ht | ht <;> simp [ht], hcommit⟩
  have haborted : j.status t ≠ some .aborted := by
    rw [Ne, ← h.records_abort, hs.log, records_append, not_or,
      hold.records_abort]
    exact ⟨by rcases hfirst with ht | ht <;> simp [ht], habort⟩
  rcases hstatus : j.status t with _ | _ | _ | _
  · exact absurd hstatus hbegun
  · rfl
  · exact absurd hstatus hcommitted
  · exact absurd hstatus haborted

include hmark in
/-- Recovery from the checkpoint leaves the store of the journal exactly when
the files already hold what no committed write after the checkpoint stands
for. -/
theorem Since.recover_iff (hlisted : ∀ t ∈ splitActive mark.afterValue,
      old.status t = some .active) {image : Store}
    (hopen : ∀ t key, j.status t = some .active → j.Wrote t key →
      image key = j.store key) (order : List TxnId) :
    (recover (.reopen entries) image order).store = j.store ↔
      ∀ key, latest (writesBy j.committed own) key = none →
        image key = j.store key := by
  have hown : ∀ e ∈ own, e ∈ j.entries := fun e he => by
    rw [hs.log]
    exact List.mem_append_right _ he
  have hactive : ∀ t, decide (t ∈ activeIn entries) = true →
      j.status t = some .active := fun t ht =>
    hs.active_of hold h hmark hlisted (of_decide_eq_true ht)
  have hredo : writesBy (fun t => t ∈ committedIn entries) own =
      writesBy j.committed own := by
    refine writesBy_congr fun e he hwrite => ?_
    rw [Journal.committed, decide_eq_decide, hmark.mem_committedIn,
      hs.commit_iff hold h he hwrite]
  rw [hmark.recover_store rfl, hredo]
  constructor
  · intro heq key hnone
    have hkey := congrFun heq key
    rw [assign_apply, assign_apply, hnone, Option.getD_none] at hkey
    cases hundone : latest (undoneWrites (fun t => t ∈ activeIn entries)
        own) key with
    | none => rwa [hundone] at hkey
    | some v =>
        obtain ⟨e, he, hwrite, ht, hk, -⟩ :=
          mem_undoneWrites.mp (mem_of_latest hundone)
        exact hopen e.txnId key (hactive _ ht) ⟨e, hown e he, hwrite, rfl, hk⟩
  · intro hfiles
    funext key
    rw [assign_apply, assign_apply]
    cases hundone : latest (undoneWrites (fun t => t ∈ activeIn entries)
        own) key with
    | some v => exact h.undone_store hown hactive (mem_of_latest hundone)
    | none =>
        rw [Option.getD_none]
        cases hlast : latest (writesBy j.committed own) key with
        | none => exact hfiles key hlast
        | some v =>
            rw [h.state, assign_apply, hs.log, writesBy_append, latest_append,
              hlast]
            rfl

include hmark in
theorem Since.checkpoint_iff (hlisted : ∀ t ∈ splitActive mark.afterValue,
      old.status t = some .active) {image : Store}
    (himage : CrashImage initial j.entries image)
    (hopen : ∀ t key, j.status t = some .active → j.Wrote t key →
      image key = j.store key) (order order' : List TxnId) :
    (recover (.reopen entries) image order).store =
        (recover (.reopen (withoutCheckpoint entries)) image order').store ↔
      ∀ key, latest (writesBy j.committed own) key = none →
        image key = j.store key := by
  have hplain : withoutCheckpoint entries = j.entries :=
    hmark.withoutCheckpoint_eq.trans hs.log.symm
  rw [hplain, h.recover rfl himage order', h.committedState_eq]
  exact hs.recover_iff hold h hmark hlisted hopen order

omit hold h in
/-- What an active transaction last wrote before the checkpoint, no committed
one has written since. -/
theorem Since.unwritten {t : TxnId} (active : j.status t = some .active)
    {key : RecordKey} (hwrote : j.Wrote t key)
    (hnone : ∀ e ∈ own, e.entryType = .write → e.txnId = t →
      recordKey e.resource ≠ key) :
    latest (writesBy (fun u => u = t || j.committed u) own) key = none := by
  obtain ⟨e₀, he₀, hwrite₀, ht₀, hkey₀⟩ := hwrote
  have hbefore : old.Wrote t key := by
    rw [hs.log] at he₀
    rcases List.mem_append.mp he₀ with he₀ | he₀
    · exact ⟨e₀, he₀, hwrite₀, ht₀, hkey₀⟩
    · exact absurd hkey₀ (hnone e₀ he₀ hwrite₀ ht₀)
  rw [latest_eq_none_iff]
  rintro ⟨_, v⟩ hmem rfl
  obtain ⟨e, he, hwrite, hp, hkey, -⟩ := mem_writesBy.mp hmem
  rw [Bool.or_eq_true, decide_eq_true_eq] at hp
  rcases hp with ht | hcommitted
  · exact hnone e he hwrite ht hkey
  · have hcommitted : j.status e.txnId = some .committed :=
      of_decide_eq_true hcommitted
    rcases hs.apart e he hwrite t active (hkey ▸ hbefore) with ht | haborted
    · rw [ht, active] at hcommitted
      cases hcommitted
    · rw [haborted] at hcommitted
      cases hcommitted

end Recovery

end Journal

end DistributedMemory.Recovery
