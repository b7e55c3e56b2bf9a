import DistributedMemory.Recovery.Recovery
import DistributedMemory.Storage.Transaction

/-!
# What a log is for

The abstract view of a node that logs its writes: the records, the record map,
and the status of every transaction that has begun.  A write changes the log
alone, and no two active transactions write one record; the commit of a
transaction carries its logged writes out.

From a log made in this way `recover` restores the committed state, whatever
logged writes had reached the record files.
-/

namespace DistributedMemory.Recovery

open DistributedMemory.Library DistributedMemory.Storage

structure Journal where
  entries : List LogEntry
  store : Store
  status : TxnId → Option TransactionStatus

def committers (entries : List LogEntry) : List TxnId :=
  (entries.filter fun e => e.entryType = .commit).map LogEntry.txnId

def committedWrites (entries : List LogEntry) :
    List (RecordKey × Option String) :=
  (committers entries).flatMap fun t => writesBy (fun u => u = t) entries

/-- Every record holds the last committed write in commit order, or what it held
at first. -/
def committedState (initial : Store) (entries : List LogEntry) : Store :=
  assign (committedWrites entries) initial

/-- A record map that a crash may leave: each record as it was at first, or with
some logged write of a transaction that has not aborted. -/
def CrashImage (initial : Store) (entries : List LogEntry) (store : Store) :
    Prop :=
  ∀ key, store key = initial key ∨ ∃ e ∈ entries, e.entryType = .write ∧
    recordKey e.resource = key ∧ ¬ Records [.abort] entries e.txnId ∧
    store key = some e.afterValue

namespace Journal

def Wrote (j : Journal) (t : TxnId) (key : RecordKey) : Prop :=
  ∃ e ∈ j.entries, e.entryType = .write ∧ e.txnId = t ∧
    recordKey e.resource = key

def committed (j : Journal) (t : TxnId) : Bool :=
  j.status t = some .committed

/-- The steps of a disciplined node.  A write of an aborted transaction may come
late and does no harm; one of a committed transaction is not a step. -/
inductive Step (j : Journal) : Journal → Prop where
  | began (lsn : Nat) (t : TxnId) (fresh : j.status t = none) :
      Step j ⟨j.entries ++ [⟨lsn, t, .begin, "", "", ""⟩], j.store,
        Function.update j.status t (some .active)⟩
  | wrote (lsn : Nat) (t : TxnId) (resource : Resource) (key after : String)
      (colonFree : ColonFree resource) (filled : after ≠ "")
      (unfinished : j.status t = some .active ∨ j.status t = some .aborted)
      (alone : j.status t = some .active → ∀ u, u ≠ t →
        j.status u = some .active → ¬ j.Wrote u (resource, key)) :
      Step j ⟨j.entries ++ [⟨lsn, t, .write, bufKey resource key,
        (j.store (resource, key)).getD "", after⟩], j.store, j.status⟩
  | committed (lsn : Nat) (t : TxnId) (active : j.status t = some .active) :
      Step j ⟨j.entries ++ [⟨lsn, t, .commit, "", "", ""⟩],
        assign (writesBy (fun u => u = t) j.entries) j.store,
        Function.update j.status t (some .committed)⟩
  | aborted (lsn : Nat) (t : TxnId) (active : j.status t = some .active) :
      Step j ⟨j.entries ++ [⟨lsn, t, .abort, "", "", ""⟩], j.store,
        Function.update j.status t (some .aborted)⟩

theorem Step.entries {j j' : Journal} (h : j.Step j') :
    ∃ e, j'.entries = j.entries ++ [e] := by
  cases h <;> exact ⟨_, rfl⟩

/-- What holds of a journal that began with the map `initial`. -/
structure Inv (initial : Store) (j : Journal) : Prop where
  types : ∀ e ∈ j.entries, e.entryType ∈
    [EntryType.begin, .write, .commit, .abort]
  begin : ∀ t, Records [.begin] j.entries t ↔ j.status t ≠ none
  commit : ∀ t, Records [.commit] j.entries t ↔ j.status t = some .committed
  abort : ∀ t, Records [.abort] j.entries t ↔ j.status t = some .aborted
  known : ∀ t key, j.Wrote t key → j.status t ≠ none
  full : ∀ key, j.store key ≠ some ""
  filled : ∀ e ∈ j.entries, e.entryType = .write → e.afterValue ≠ ""
  state : j.store = assign (writesBy j.committed j.entries) initial
  order : ∀ key, latest (writesBy j.committed j.entries) key =
    latest (committedWrites j.entries) key
  alone : ∀ t u key, j.status t = some .active → j.status u = some .active →
    j.Wrote t key → j.Wrote u key → t = u
  last : ∀ t key, j.status t = some .active → j.Wrote t key →
    latest (writesBy (fun u => u = t || j.committed u) j.entries) key =
      latest (writesBy (fun u => u = t) j.entries) key
  before : ∀ e ∈ j.entries, e.entryType = .write →
    j.status e.txnId = some .active →
    e.beforeValue = (j.store (recordKey e.resource)).getD ""

end Journal

/-! ## The log after one more record -/

theorem recordKey_bufKey {resource : Resource} (h : ColonFree resource)
    (key : String) : recordKey (bufKey resource key) = (resource, key) := by
  rw [recordKey, if_pos (contains_colon_bufKey resource key),
    splitKey_bufKey h]

theorem writesBy_concat (p : TxnId → Bool) (entries : List LogEntry)
    (e : LogEntry) : writesBy p (entries ++ [e]) = writesBy p entries ++
      if e.entryType = .write ∧ p e.txnId then
        [(recordKey e.resource, some e.afterValue)]
      else [] := by
  rw [writesBy_append]
  by_cases h : e.entryType = .write <;> cases hp : p e.txnId <;>
    simp [writesBy, h, hp]

theorem writesBy_concat_other (p : TxnId → Bool) (entries : List LogEntry)
    {e : LogEntry} (h : e.entryType ≠ .write ∨ p e.txnId = false) :
    writesBy p (entries ++ [e]) = writesBy p entries := by
  rw [writesBy_concat, if_neg, List.append_nil]
  rintro ⟨hwrite, hp⟩
  rcases h with h | h
  · exact h hwrite
  · simp [h] at hp

theorem committers_concat (entries : List LogEntry) (e : LogEntry) :
    committers (entries ++ [e]) = committers entries ++
      if e.entryType = .commit then [e.txnId] else [] := by
  by_cases h : e.entryType = .commit <;>
    simp [committers, List.filter_append, h]

private theorem mem_committers {entries : List LogEntry} {t : TxnId} :
    t ∈ committers entries ↔ Records [.commit] entries t := by
  simp only [committers, Records, List.mem_map, List.mem_filter,
    decide_eq_true_eq, List.mem_singleton, and_assoc]

private theorem flatMap_writesBy_concat {ts : List TxnId} {entries : List LogEntry}
    {e : LogEntry} (h : e.entryType ≠ .write ∨ e.txnId ∉ ts) :
    (ts.flatMap fun t => writesBy (fun u => u = t) (entries ++ [e])) =
      ts.flatMap fun t => writesBy (fun u => u = t) entries := by
  refine List.flatMap_congr fun t ht => writesBy_concat_other _ _ ?_
  refine h.imp_right fun hnot => decide_eq_false ?_
  rintro rfl
  exact hnot ht

theorem latest_writesBy_congr {p q : TxnId → Bool} {entries : List LogEntry}
    {key : RecordKey} (h : ∀ e ∈ entries, e.entryType = .write →
      recordKey e.resource = key → p e.txnId = q e.txnId) :
    latest (writesBy p entries) key = latest (writesBy q entries) key := by
  induction entries using List.reverseRecOn with
  | nil => rfl
  | append_singleton rest e ih =>
      have hrest := ih fun e' he' => h e' (by simp [he'])
      simp only [writesBy_concat, latest_append, hrest]
      by_cases hwrite : e.entryType = .write ∧ recordKey e.resource = key
      · simp only [hwrite.1, h e (by simp) hwrite.1 hwrite.2]
      · have hnone : ∀ b : Bool, latest (if e.entryType = .write ∧ b then
            [(recordKey e.resource, some e.afterValue)] else []) key =
              none := by
          intro b
          split
          · next hb =>
            rw [latest_singleton, if_neg fun heq => hwrite ⟨hb.1, heq⟩]
          · rfl
        rw [hnone, hnone]

namespace Journal

theorem wrote_concat {j : Journal} {e : LogEntry} {store : Store}
    {status : TxnId → Option TransactionStatus} {t : TxnId} {key : RecordKey} :
    Wrote ⟨j.entries ++ [e], store, status⟩ t key ↔ j.Wrote t key ∨
      (e.entryType = .write ∧ e.txnId = t ∧ recordKey e.resource = key) := by
  simp only [Wrote, List.mem_append, List.mem_singleton, or_and_right,
    exists_or, exists_eq_left]

theorem wrote_iff {j : Journal} {t : TxnId} {key : RecordKey} :
    j.Wrote t key ↔
      latest (writesBy (fun u => u = t) j.entries) key ≠ none := by
  simp only [Ne, latest_eq_none_iff, Wrote, not_forall, not_not]
  constructor
  · rintro ⟨e, hmem, hwrite, ht, hkey⟩
    exact ⟨(key, some e.afterValue), mem_writesBy.mpr
      ⟨e, hmem, hwrite, decide_eq_true ht, hkey, rfl⟩, rfl⟩
  · rintro ⟨⟨_, v⟩, hmem, rfl⟩
    obtain ⟨e, hmem, hwrite, ht, hkey, -⟩ := mem_writesBy.mp hmem
    exact ⟨e, hmem, hwrite, of_decide_eq_true ht, hkey⟩

/-- The journal after the commit of `t`, which logs the record `e`. -/
def afterCommit (j : Journal) (t : TxnId) (e : LogEntry) : Journal :=
  ⟨j.entries ++ [e], assign (writesBy (fun u => u = t) j.entries) j.store,
    Function.update j.status t (some .committed)⟩

theorem afterCommit_committed (j : Journal) (t : TxnId) (e : LogEntry) :
    (j.afterCommit t e).committed = fun u => u = t || j.committed u := by
  funext u
  by_cases hu : u = t
  · subst hu
    simp [Journal.committed, afterCommit]
  · simp [Journal.committed, afterCommit, hu]

/-! ## The invariant -/

theorem inv_initial {initial : Store} (h : ∀ key, initial key ≠ some "") :
    Inv initial ⟨[], initial, fun _ => none⟩ where
  types := by simp
  begin := by simp
  commit := by simp
  abort := by simp
  known := by simp [Wrote]
  full := h
  filled := by simp
  state := rfl
  order := by simp [writesBy, committedWrites, committers]
  alone := by simp
  last := by simp
  before := by simp

theorem not_wrote_latest {j : Journal} {t : TxnId} {key : RecordKey}
    (h : ¬ j.Wrote t key) :
    latest (writesBy (fun u => u = t) j.entries) key = none := by
  by_contra hsome
  exact h (wrote_iff.mpr hsome)

private theorem latest_without {j : Journal} {t : TxnId} {key : RecordKey}
    (h : ¬ j.Wrote t key) (p : TxnId → Bool) :
    latest (writesBy (fun u => u = t || p u) j.entries) key =
      latest (writesBy p j.entries) key := by
  refine latest_writesBy_congr fun e he hwrite hkey => ?_
  have hne : e.txnId ≠ t := by
    rintro rfl
    exact h ⟨e, he, hwrite, rfl, hkey⟩
  simp [hne]

private theorem Inv.not_committer {initial : Store} {j : Journal} (h : j.Inv initial)
    {t : TxnId} (ht : j.status t ≠ some .committed) :
    t ∉ committers j.entries := by
  rw [mem_committers, h.commit]
  exact ht

theorem Inv.marked {initial : Store} {j : Journal} (h : j.Inv initial)
    (lsn : Nat) {t : TxnId} {type : EntryType} {x : TransactionStatus}
    (hmark : (type = .begin ∧ x = .active ∧ j.status t = none) ∨
      (type = .commit ∧ x = .committed ∧ j.status t = some .active) ∨
      (type = .abort ∧ x = .aborted ∧ j.status t = some .active)) :
    (∀ e ∈ j.entries ++ [⟨lsn, t, type, "", "", ""⟩], e.entryType ∈
      [EntryType.begin, .write, .commit, .abort]) ∧
    ∀ u,
      (Records [.begin] (j.entries ++ [⟨lsn, t, type, "", "", ""⟩]) u ↔
        Function.update j.status t (some x) u ≠ none) ∧
      (Records [.commit] (j.entries ++ [⟨lsn, t, type, "", "", ""⟩]) u ↔
        Function.update j.status t (some x) u = some .committed) ∧
      (Records [.abort] (j.entries ++ [⟨lsn, t, type, "", "", ""⟩]) u ↔
        Function.update j.status t (some x) u = some .aborted) := by
  refine ⟨fun e he => ?_, fun u => ?_⟩
  · rcases List.mem_append.mp he with he | he
    · exact h.types e he
    · obtain rfl := List.mem_singleton.mp he
      rcases hmark with ⟨rfl, -⟩ | ⟨rfl, -⟩ | ⟨rfl, -⟩ <;> simp
  · simp only [records_append, records_singleton, h.begin, h.commit, h.abort]
    by_cases hu : u = t
    · subst hu
      rcases hmark with ⟨rfl, rfl, ht⟩ | ⟨rfl, rfl, ht⟩ | ⟨rfl, rfl, ht⟩ <;>
        simp [ht]
    · simp [Function.update_of_ne hu, Ne.symm hu]

section Steps

variable {initial : Store} {j : Journal} (h : j.Inv initial) {lsn : Nat}
  {t : TxnId}

include h

theorem Inv.mark {type : EntryType} {x : TransactionStatus}
    (hmark : (type = .begin ∧ x = .active ∧ j.status t = none) ∨
      (type = .abort ∧ x = .aborted ∧ j.status t = some .active)) :
    Inv initial ⟨j.entries ++ [⟨lsn, t, type, "", "", ""⟩], j.store,
      Function.update j.status t (some x)⟩ := by
  have htype : type ≠ .write ∧ type ≠ .commit := by
    rcases hmark with ⟨rfl, -⟩ | ⟨rfl, -⟩ <;> simp
  have hsame : ∀ p, writesBy p (j.entries ++ [⟨lsn, t, type, "", "", ""⟩]) =
      writesBy p j.entries := fun p => writesBy_concat_other p _ (.inl htype.1)
  have hwrote : ∀ {u key}, Wrote ⟨j.entries ++ [⟨lsn, t, type, "", "", ""⟩],
      j.store, Function.update j.status t (some x)⟩ u key → j.Wrote u key := by
    simp [wrote_concat, htype.1]
  have hactive : ∀ {u key}, j.Wrote u key →
      Function.update j.status t (some x) u = some .active →
      j.status u = some .active := by
    intro u key hwu hu
    rw [Function.update_apply] at hu
    split at hu
    · next heq =>
      subst heq
      rcases hmark with ⟨-, -, hnone⟩ | ⟨-, rfl, -⟩
      · exact absurd hnone (h.known u key hwu)
      · cases hu
    · exact hu
  have hcommitted : Journal.committed ⟨j.entries ++
      [⟨lsn, t, type, "", "", ""⟩], j.store,
      Function.update j.status t (some x)⟩ = j.committed := by
    funext u
    by_cases hu : u = t
    · subst hu
      rcases hmark with ⟨-, rfl, ht⟩ | ⟨-, rfl, ht⟩ <;>
        simp [Journal.committed, ht]
    · simp [Journal.committed, Function.update_of_ne hu]
  have horder : committedWrites (j.entries ++ [⟨lsn, t, type, "", "", ""⟩]) =
      committedWrites j.entries := by
    simp only [committedWrites, committers_concat, hsame, htype.2, if_false,
      List.append_nil]
  obtain ⟨htypes, hmarks⟩ := h.marked lsn
    (hmark.imp_right Or.inr)
  refine ⟨htypes, fun u => (hmarks u).1, fun u => (hmarks u).2.1,
    fun u => (hmarks u).2.2, fun u key hu => ?_, h.full, fun e he hwrite => ?_,
    ?_, fun key => ?_, fun u w key hu hw hwu hww => ?_, fun u key hu hwu => ?_,
    fun e he hwrite hu => ?_⟩
  · dsimp only
    rw [Function.update_apply]
    split
    · simp
    · exact h.known u key (hwrote hu)
  · rcases List.mem_append.mp he with he | he
    · exact h.filled e he hwrite
    · obtain rfl := List.mem_singleton.mp he
      exact absurd hwrite htype.1
  · rw [hcommitted, hsame]
    exact h.state
  · rw [hcommitted, hsame, horder]
    exact h.order key
  · exact h.alone u w key (hactive (hwrote hwu) hu) (hactive (hwrote hww) hw)
      (hwrote hwu) (hwrote hww)
  · rw [hcommitted, hsame, hsame]
    exact h.last u key (hactive (hwrote hwu) hu) (hwrote hwu)
  · rcases List.mem_append.mp he with he | he
    · have hwrote : j.Wrote e.txnId (recordKey e.resource) :=
        ⟨e, he, hwrite, rfl, rfl⟩
      exact h.before e he hwrite (hactive hwrote hu)
    · obtain rfl := List.mem_singleton.mp he
      exact absurd hwrite htype.1

theorem Inv.wrote {resource : Resource} {key after : String}
    (colonFree : ColonFree resource) (filled : after ≠ "")
    (unfinished : j.status t = some .active ∨ j.status t = some .aborted)
    (alone : j.status t = some .active → ∀ u, u ≠ t →
      j.status u = some .active → ¬ j.Wrote u (resource, key)) :
    Inv initial ⟨j.entries ++ [⟨lsn, t, .write, bufKey resource key,
      (j.store (resource, key)).getD "", after⟩], j.store, j.status⟩ := by
  have hkey := recordKey_bufKey colonFree key
  have hopen : j.committed t = false := by
    rcases unfinished with ht | ht <;> simp [Journal.committed, ht]
  have hother : ∀ {p : TxnId → Bool} {before : String}, p t = false →
      writesBy p (j.entries ++ [⟨lsn, t, .write, bufKey resource key, before,
        after⟩]) = writesBy p j.entries :=
    fun hp => writesBy_concat_other _ _ (.inr hp)
  have hnew : ∀ {p : TxnId → Bool} {before : String} (k : RecordKey),
      p t = true → latest (writesBy p (j.entries ++ [⟨lsn, t, .write,
        bufKey resource key, before, after⟩])) k =
      if (resource, key) = k then some (some after)
      else latest (writesBy p j.entries) k := by
    intro p before k hp
    rw [writesBy_concat, if_pos ⟨rfl, hp⟩, latest_append, latest_singleton,
      hkey]
    split <;> simp
  have hmarks : ∀ types, .write ∉ types → ∀ u, Records types (j.entries ++
      [⟨lsn, t, .write, bufKey resource key,
        (j.store (resource, key)).getD "", after⟩]) u ↔
      Records types j.entries u := by
    intro types hwrite u
    simp [records_append, records_singleton, hwrite]
  refine ⟨fun e he => ?_, fun u => ?_, fun u => ?_, fun u => ?_,
    fun u k hu => ?_, h.full, fun e he hwrite => ?_, ?_, fun k => ?_,
    fun u w k hu hw hwu hww => ?_, fun u k hu hwu => ?_,
    fun e he hwrite hu => ?_⟩
  · rcases List.mem_append.mp he with he | he
    · exact h.types e he
    · obtain rfl := List.mem_singleton.mp he
      simp
  · rw [hmarks _ (by simp)]
    exact h.begin u
  · rw [hmarks _ (by simp)]
    exact h.commit u
  · rw [hmarks _ (by simp)]
    exact h.abort u
  · rcases wrote_concat.mp hu with hu | ⟨-, rfl, -⟩
    · exact h.known u k hu
    · rcases unfinished with ht | ht <;> simp [ht]
  · rcases List.mem_append.mp he with he | he
    · exact h.filled e he hwrite
    · obtain rfl := List.mem_singleton.mp he
      exact filled
  · change j.store = assign (writesBy j.committed _) initial
    rw [hother hopen]
    exact h.state
  · change latest (writesBy j.committed _) k = _
    rw [hother hopen, committedWrites, committers_concat, if_neg (by simp),
      List.append_nil, flatMap_writesBy_concat (.inr ?_)]
    · exact h.order k
    · refine h.not_committer ?_
      rcases unfinished with ht | ht <;> simp [ht]
  · rcases wrote_concat.mp hwu with hwu | ⟨-, rfl, rfl⟩
    · rcases wrote_concat.mp hww with hww | ⟨-, rfl, rfl⟩
      · exact h.alone u w k hu hw hwu hww
      · by_contra hne
        exact alone hw u hne hu (hkey ▸ hwu)
    · rcases wrote_concat.mp hww with hww | ⟨-, rfl, -⟩
      · by_contra hne
        exact alone hu w (Ne.symm hne) hw (hkey ▸ hww)
      · rfl
  · change latest (writesBy (fun w => w = u || j.committed w) _) k = _
    by_cases hut : u = t
    · subst hut
      rw [hnew k (by simp), hnew k (by simp)]
      split
      · rfl
      · next hne =>
        refine h.last u k hu ?_
        exact (wrote_concat.mp hwu).resolve_right fun hw =>
          hne (hkey ▸ hw.2.2)
    · have htu : t ≠ u := Ne.symm hut
      rw [hother (by simp [htu, hopen]), hother (by simp [htu])]
      refine h.last u k hu ?_
      exact (wrote_concat.mp hwu).resolve_right fun hw => htu hw.2.1
  · rcases List.mem_append.mp he with he | he
    · exact h.before e he hwrite hu
    · obtain rfl := List.mem_singleton.mp he
      simp [hkey]

theorem Inv.committed (active : j.status t = some .active) :
    Inv initial ⟨j.entries ++ [⟨lsn, t, .commit, "", "", ""⟩],
      assign (writesBy (fun u => u = t) j.entries) j.store,
      Function.update j.status t (some .committed)⟩ := by
  have hsame : ∀ p, writesBy p (j.entries ++ [⟨lsn, t, .commit, "", "", ""⟩]) =
      writesBy p j.entries := fun p => writesBy_concat_other p _ (by simp)
  have hwrote : ∀ {store : Store} {status u key},
      Wrote ⟨j.entries ++ [⟨lsn, t, .commit, "", "", ""⟩], store, status⟩ u
        key → j.Wrote u key := by
    simp [wrote_concat]
  have hactive : ∀ {u}, Function.update j.status t (some .committed) u =
      some .active → u ≠ t ∧ j.status u = some .active := by
    intro u hu
    rw [Function.update_apply] at hu
    split at hu
    · cases hu
    · next hne => exact ⟨hne, hu⟩
  have hcommitted : Journal.committed ⟨j.entries ++
      [⟨lsn, t, .commit, "", "", ""⟩],
      assign (writesBy (fun u => u = t) j.entries) j.store,
      Function.update j.status t (some .committed)⟩ =
      fun u => u = t || j.committed u := j.afterCommit_committed t _
  have horder : committedWrites (j.entries ++
      [⟨lsn, t, .commit, "", "", ""⟩]) =
      committedWrites j.entries ++ writesBy (fun u => u = t) j.entries := by
    simp only [committedWrites, committers_concat, if_true,
      List.flatMap_append, List.flatMap_cons, List.flatMap_nil,
      List.append_nil, hsame]
  -- The last committed write is one of `t`, or `t` did not write the record.
  have hlatest : ∀ key,
      latest (writesBy (fun u => u = t || j.committed u) j.entries) key =
        (latest (writesBy (fun u => u = t) j.entries) key).or
          (latest (writesBy j.committed j.entries) key) := by
    intro key
    by_cases hw : j.Wrote t key
    · rw [h.last t key active hw]
      obtain ⟨v, hv⟩ := Option.ne_none_iff_exists'.mp (wrote_iff.mp hw)
      rw [hv, Option.some_or]
    · rw [latest_without hw, not_wrote_latest hw, Option.none_or]
  have hstore : ∀ key, assign (writesBy (fun u => u = t) j.entries) j.store
      key = (latest (writesBy (fun u => u = t) j.entries) key).getD
        (j.store key) := fun key => assign_apply _ _ key
  -- What another active transaction wrote, `t` did not.
  have hleft : ∀ {u key}, u ≠ t → j.status u = some .active → j.Wrote u key →
      ¬ j.Wrote t key := fun hne hu hwu hwt =>
    hne (h.alone _ t _ hu active hwu hwt)
  obtain ⟨htypes, hmarks⟩ := h.marked lsn
    (.inr (.inl ⟨rfl, rfl, active⟩))
  refine ⟨htypes, fun u => (hmarks u).1, fun u => (hmarks u).2.1,
    fun u => (hmarks u).2.2, fun u key hu => ?_, fun key => ?_,
    fun e he hwrite => ?_, ?_, fun key => ?_, fun u w key hu hw hwu hww => ?_,
    fun u key hu hwu => ?_, fun e he hwrite hu => ?_⟩
  · dsimp only
    rw [Function.update_apply]
    split
    · simp
    · exact h.known u key (hwrote hu)
  · dsimp only
    rw [hstore]
    cases hv : latest (writesBy (fun u => u = t) j.entries) key with
    | none => exact h.full key
    | some v =>
        obtain ⟨e, he, hwrite, -, -, rfl⟩ := mem_writesBy.mp (mem_of_latest hv)
        simpa using h.filled e he hwrite
  · rcases List.mem_append.mp he with he | he
    · exact h.filled e he hwrite
    · obtain rfl := List.mem_singleton.mp he
      cases hwrite
  · rw [hcommitted, hsame]
    funext key
    dsimp only
    rw [hstore, h.state, assign_apply, assign_apply, hlatest]
    cases latest (writesBy (fun u => u = t) j.entries) key <;> simp
  · rw [hcommitted, hsame, hlatest, horder, latest_append, h.order]
  · exact h.alone u w key (hactive hu).2 (hactive hw).2 (hwrote hwu)
      (hwrote hww)
  · obtain ⟨hne, hstatus⟩ := hactive hu
    have hunwritten := hleft hne hstatus (hwrote hwu)
    rw [hcommitted, hsame, hsame, ← h.last u key hstatus (hwrote hwu)]
    refine latest_writesBy_congr fun e he hwrite hkey => ?_
    have het : e.txnId ≠ t := fun heq =>
      hunwritten ⟨e, he, hwrite, heq, hkey⟩
    simp [het]
  · rcases List.mem_append.mp he with he | he
    · obtain ⟨hne, hu⟩ := hactive hu
      have hwu : j.Wrote e.txnId (recordKey e.resource) :=
        ⟨e, he, hwrite, rfl, rfl⟩
      dsimp only
      rw [hstore, not_wrote_latest (hleft hne hu hwu), Option.getD_none]
      exact h.before e he hwrite hu
    · obtain rfl := List.mem_singleton.mp he
      cases hwrite

theorem Inv.step {j' : Journal} (hstep : j.Step j') : j'.Inv initial := by
  cases hstep with
  | began lsn t fresh => exact h.mark (.inl ⟨rfl, rfl, fresh⟩)
  | wrote lsn t resource key after colonFree filled unfinished alone =>
      exact h.wrote colonFree filled unfinished alone
  | committed lsn t active => exact h.committed active
  | aborted lsn t active => exact h.mark (.inr ⟨rfl, rfl, active⟩)

end Steps

/-! ## Recovery -/

section Recovery

variable {initial : Store} {j : Journal} (h : j.Inv initial)

include h

theorem Inv.no_checkpoint : ∀ e ∈ j.entries, e.entryType ≠ .checkpoint := by
  intro e he htype
  have := h.types e he
  simp [htype] at this

theorem Inv.records_pair {type other : EntryType}
    (hother : other ∉ [EntryType.begin, .write, .commit, .abort]) (t : TxnId) :
    Records [type, other] j.entries t ↔ Records [type] j.entries t := by
  constructor
  · rintro ⟨e, he, htype, rfl⟩
    refine ⟨e, he, ?_, rfl⟩
    rcases List.mem_cons.mp htype with hc | hc
    · simp [hc]
    · rw [List.mem_singleton] at hc
      exact absurd (hc ▸ h.types e he) hother
  · rintro ⟨e, he, htype, rfl⟩
    exact ⟨e, he, by simp [List.mem_singleton.mp htype], rfl⟩

theorem Inv.records_commit (t : TxnId) :
    Records [.commit, .globalCommit] j.entries t ↔
      j.status t = some .committed := by
  rw [h.records_pair (by simp), h.commit]

theorem Inv.records_abort (t : TxnId) :
    Records [.abort, .globalAbort] j.entries t ↔
      j.status t = some .aborted := by
  rw [h.records_pair (by simp), h.abort]

theorem Inv.mem_committedIn (t : TxnId) :
    t ∈ committedIn j.entries ↔ j.status t = some .committed := by
  rw [Recovery.mem_committedIn h.no_checkpoint, h.records_commit]

theorem Inv.mem_activeIn (t : TxnId) :
    t ∈ activeIn j.entries ↔ j.status t = some .active := by
  rw [Recovery.mem_activeIn h.no_checkpoint, h.begin, h.records_commit,
    h.records_abort]
  rcases hs : j.status t with _ | _ | _ | _ <;> simp

theorem Inv.committedState_eq : committedState initial j.entries = j.store := by
  rw [h.state]
  funext key
  rw [committedState, assign_apply, assign_apply, h.order]

theorem Inv.store_written (key : RecordKey) : j.store key = initial key ∨
    ∃ e ∈ j.entries, e.entryType = .write ∧ recordKey e.resource = key ∧
      j.status e.txnId = some .committed ∧ j.store key = some e.afterValue := by
  rw [h.state, assign_apply]
  cases hlast : latest (writesBy j.committed j.entries) key with
  | none => exact .inl rfl
  | some v =>
      obtain ⟨e, he, hwrite, hp, hkey, rfl⟩ :=
        mem_writesBy.mp (mem_of_latest hlast)
      exact .inr ⟨e, he, hwrite, hkey, of_decide_eq_true hp, rfl⟩

theorem Inv.crashImage {image : Store} (himage : ∀ key,
      image key = initial key ∨ ∃ e ∈ j.entries, e.entryType = .write ∧
        recordKey e.resource = key ∧ j.status e.txnId = some .committed ∧
        image key = some e.afterValue) : CrashImage initial j.entries image := by
  intro key
  refine (himage key).imp_right ?_
  rintro ⟨e, he, hwrite, hkey, hcommitted, hvalue⟩
  refine ⟨e, he, hwrite, hkey, ?_, hvalue⟩
  rw [h.abort, hcommitted]
  simp

theorem Inv.undone_store {p : TxnId → Bool} {entries : List LogEntry}
    (hentries : ∀ e ∈ entries, e ∈ j.entries)
    (hp : ∀ t, p t = true → j.status t = some .active) {key : RecordKey}
    {v : Option String} (hv : (key, v) ∈ undoneWrites p entries) :
    v = j.store key := by
  obtain ⟨e, he, hwrite, hactive, hkey, rfl⟩ := mem_undoneWrites.mp hv
  rw [h.before e (hentries e he) hwrite (hp _ hactive), hkey]
  cases hstore : j.store key with
  | none => rfl
  | some v =>
      have hfull : v ≠ "" := by
        rintro rfl
        exact h.full key hstore
      simp [hfull]

theorem Inv.undone {t : TxnId} {key : RecordKey}
    (active : j.status t = some .active) (hwrote : j.Wrote t key) :
    latest (undoneWrites (fun u => u ∈ activeIn j.entries) j.entries) key =
      some (j.store key) := by
  have hp : ∀ u, decide (u ∈ activeIn j.entries) = true →
      j.status u = some .active := fun u hu =>
    (h.mem_activeIn u).mp (of_decide_eq_true hu)
  obtain ⟨e, he, hwrite, rfl, hkey⟩ := hwrote
  exact latest_of_agree (fun w hw => h.undone_store (fun _ => id) hp hw)
    ⟨_, mem_undoneWrites.mpr ⟨e, he, hwrite,
      decide_eq_true ((h.mem_activeIn _).mpr active), hkey, rfl⟩⟩

theorem Inv.recover {wal : WriteAheadLog} (hwal : wal.entries = j.entries)
    {store : Store} (himage : CrashImage initial j.entries store)
    (order : List TxnId) : (recover wal store order).store =
      committedState initial j.entries := by
  have hredo : writesBy (fun t => t ∈ committedIn j.entries) j.entries =
      writesBy j.committed j.entries :=
    writesBy_congr fun e _ _ => by
      rw [Journal.committed, decide_eq_decide, h.mem_committedIn]
  rw [recover_store (hwal ▸ h.no_checkpoint), hwal, hredo,
    h.committedState_eq]
  funext key
  rw [assign_apply]
  by_cases hactive : ∃ t, j.status t = some .active ∧ j.Wrote t key
  · obtain ⟨t, active, hwrote⟩ := hactive
    rw [h.undone active hwrote, Option.getD_some]
  · -- Nothing is undone here; what is not redone was not touched.
    have hnone : latest (undoneWrites (fun u => u ∈ activeIn j.entries)
        j.entries) key = none := by
      rw [latest_eq_none_iff]
      rintro ⟨_, v⟩ hmem rfl
      obtain ⟨e, he, hwrite, hp, hkey, -⟩ := mem_undoneWrites.mp hmem
      rw [decide_eq_true_eq, h.mem_activeIn] at hp
      exact hactive ⟨e.txnId, hp, e, he, hwrite, rfl, hkey⟩
    rw [hnone, Option.getD_none, h.state, assign_apply, assign_apply]
    cases hlast : latest (writesBy j.committed j.entries) key with
    | some v => rfl
    | none =>
        rw [Option.getD_none, Option.getD_none]
        refine (himage key).resolve_right ?_
        rintro ⟨e, he, hwrite, hkey, hlive, -⟩
        have hwrote : j.Wrote e.txnId key := ⟨e, he, hwrite, rfl, hkey⟩
        have hknown := h.known _ _ hwrote
        rw [h.abort] at hlive
        rcases hs : j.status e.txnId with _ | _ | _ | _
        · exact hknown hs
        · exact hactive ⟨e.txnId, hs, hwrote⟩
        · refine latest_eq_none_iff.mp hlast (key, some e.afterValue) ?_ rfl
          exact mem_writesBy.mpr ⟨e, he, hwrite, decide_eq_true hs, hkey, rfl⟩
        · exact hlive hs

end Recovery

end Journal

end DistributedMemory.Recovery
