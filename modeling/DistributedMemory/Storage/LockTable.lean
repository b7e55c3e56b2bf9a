import DistributedMemory.Library.Queue
import DistributedMemory.Storage.LockManager

/-!
# What the lock manager does to one entry

Each method rewrites the entry of one resource at a time and records the
transactions it grants.  The lemmas of this file describe every method by the
entry it leaves behind and by the recorded resources, so that invariants of the
lock table are proved on a single `LockEntry`.
-/

namespace DistributedMemory.Storage

open DistributedMemory.Library
open Queue (keepFirst)

namespace LockManager

/-! ## Reading the table after a write -/

@[simp] theorem entry_new (r : Resource) : new.entry r = .new r := rfl

@[simp] theorem recorded_new (t : TxnId) : new.recorded t = ∅ := rfl

theorem entry_putEntry (lm : LockManager) (r r' : Resource) (e : LockEntry) :
    (lm.putEntry r e).entry r' = if r' = r then e else lm.entry r' := by
  simp only [entry, putEntry, Dict.get?_set]
  split <;> rfl

@[simp] theorem recorded_putEntry (lm : LockManager) (r : Resource)
    (e : LockEntry) (t : TxnId) :
    (lm.putEntry r e).recorded t = lm.recorded t := rfl

@[simp] theorem entry_recordLock (lm : LockManager) (t : TxnId)
    (r r' : Resource) : (lm.recordLock t r).entry r' = lm.entry r' := rfl

theorem recorded_recordLock (lm : LockManager) (t u : TxnId) (r : Resource) :
    (lm.recordLock t r).recorded u =
      if u = t then insert r (lm.recorded t) else lm.recorded u := by
  simp only [recorded, recordLock, Dict.get?_set]
  split <;> rfl

@[simp] theorem entry_forgetTxn (lm : LockManager) (t : TxnId)
    (r : Resource) : (lm.forgetTxn t).entry r = lm.entry r := rfl

theorem recorded_forgetTxn (lm : LockManager) (t u : TxnId) :
    (lm.forgetTxn t).recorded u = if u = t then ∅ else lm.recorded u := by
  simp only [recorded, forgetTxn, Dict.get?_pop]
  split <;> rfl

theorem entry_of_get? {lm : LockManager} {r : Resource} {e : LockEntry}
    (h : lm.locks.get? r = some e) : lm.entry r = e := by
  simp [entry, h]

theorem entry_of_get?_none {lm : LockManager} {r : Resource}
    (h : lm.locks.get? r = none) : lm.entry r = .new r := by
  simp [entry, h]

/-- The table `lm'` differs from `lm` in the entry of `r`, which is now `e`,
and in having `r` recorded for the transactions of `granted`. -/
structure Rewrites (lm lm' : LockManager) (r : Resource) (e : LockEntry)
    (granted : List TxnId) : Prop where
  entry : ∀ r', lm'.entry r' = if r' = r then e else lm.entry r'
  recorded : ∀ u, lm'.recorded u =
    if u ∈ granted then insert r (lm.recorded u) else lm.recorded u

theorem Rewrites.here {lm lm' : LockManager} {r : Resource} {e : LockEntry}
    {granted : List TxnId} (h : Rewrites lm lm' r e granted) :
    lm'.entry r = e := by
  rw [h.entry, if_pos rfl]

theorem Rewrites.elsewhere {lm lm' : LockManager} {r r' : Resource}
    {e : LockEntry} {granted : List TxnId} (h : Rewrites lm lm' r e granted)
    (hne : r' ≠ r) : lm'.entry r' = lm.entry r' := by
  rw [h.entry, if_neg hne]

theorem rewrites_refl (lm : LockManager) (r : Resource) :
    Rewrites lm lm r (lm.entry r) [] :=
  ⟨fun r' => by split <;> simp_all, fun u => by simp⟩

theorem rewrites_putEntry (lm : LockManager) (r : Resource) (e : LockEntry) :
    Rewrites lm (lm.putEntry r e) r e [] :=
  ⟨fun r' => entry_putEntry lm r r' e, fun u => by simp⟩

theorem rewrites_record (lm : LockManager) (r : Resource) (e : LockEntry)
    (t : TxnId) : Rewrites lm ((lm.putEntry r e).recordLock t r) r e [t] := by
  refine ⟨fun r' => ?_, fun u => ?_⟩
  · rw [entry_recordLock, entry_putEntry]
  · rw [recorded_recordLock, recorded_putEntry, recorded_putEntry]
    by_cases h : u = t <;> simp [h]

end LockManager

/-! ## Acquiring -/

/-- What `acquire` did to the entry `e`: the five ways through its branches,
with the entry it leaves, the recorded grants and the answer. -/
inductive Acquires (e : LockEntry) (t : TxnId) (lt : LockType) :
    LockEntry → List TxnId → Bool → Prop where
  | covered (held : t ∈ e.holders)
      (mode : e.lockType = some .exclusive ∨ lt = .shared) :
      Acquires e t lt e [] true
  | upgraded (held : t ∈ e.holders) (alone : e.holders.card = 1)
      (mode : lt = .exclusive) :
      Acquires e t lt { e with lockType := some .exclusive } [t] true
  | first (free : e.holders = ∅) :
      Acquires e t lt
        { e with holders := insert t e.holders, lockType := some lt } [t] true
  | joined (fresh : t ∉ e.holders) (mode : e.lockType = some .shared)
      (shared : lt = .shared) :
      Acquires e t lt { e with holders := insert t e.holders } [t] true
  | queued (busy : e.holders ≠ ∅)
      (blocked : ¬ (t ∈ e.holders ∧
        (e.lockType = some .exclusive ∨ lt = .shared ∨ e.holders.card = 1))) :
      Acquires e t lt (e.enqueue t lt) [] false

theorem LockManager.acquire_spec (lm : LockManager) (t : TxnId) (r : Resource)
    (lt : LockType) :
    ∃ e granted, Acquires (lm.entry r) t lt e granted (lm.acquire t r lt).2 ∧
      Rewrites lm (lm.acquire t r lt).1 r e granted := by
  unfold LockManager.acquire
  dsimp only
  by_cases held : t ∈ (lm.entry r).holders
  · rw [if_pos held]
    by_cases hx : (lm.entry r).lockType = some .exclusive
    · rw [if_pos hx]
      exact ⟨_, _, .covered held (.inl hx), rewrites_putEntry _ _ _⟩
    · rw [if_neg hx]
      by_cases hs : lt = .shared
      · rw [if_pos hs]
        exact ⟨_, _, .covered held (.inr hs), rewrites_putEntry _ _ _⟩
      · rw [if_neg hs]
        by_cases alone : (lm.entry r).holders.card = 1
        · rw [if_pos alone]
          have mode : lt = .exclusive := by cases lt <;> simp_all
          exact ⟨_, _, .upgraded held alone mode, rewrites_record _ _ _ _⟩
        · rw [if_neg alone]
          refine ⟨_, _, .queued (Finset.ne_empty_of_mem held) ?_,
            rewrites_putEntry _ _ _⟩
          simp [hx, hs, alone]
  · rw [if_neg held]
    by_cases free : (lm.entry r).holders = ∅
    · rw [if_pos free]
      exact ⟨_, _, .first free, rewrites_record _ _ _ _⟩
    · rw [if_neg free]
      by_cases hs : (lm.entry r).lockType = some .shared ∧ lt = .shared
      · rw [if_pos hs]
        exact ⟨_, _, .joined held hs.1 hs.2, rewrites_record _ _ _ _⟩
      · rw [if_neg hs]
        exact ⟨_, _, .queued free (fun h => held h.1), rewrites_putEntry _ _ _⟩

/-! ## Serving the wait queue -/

private theorem drop_length_sharedRun (queue : List (TxnId × LockType)) :
    queue.drop (sharedRun queue).length =
      queue.dropWhile fun request => request.2 = .shared := by
  induction queue with
  | nil => rfl
  | cons request rest ih =>
      by_cases h : request.2 = .shared
      · simpa [sharedRun, h] using ih
      · simp [sharedRun, h]

theorem map_fst_eq_sharedRun_append (queue : List (TxnId × LockType)) :
    queue.map Prod.fst = sharedRun queue ++
      (queue.dropWhile fun request => request.2 = .shared).map Prod.fst := by
  rw [sharedRun, ← List.map_append, List.takeWhile_append_dropWhile]

private theorem dedupQueue_eq_keepFirst (holders seen : Finset TxnId)
    (queue : List (TxnId × LockType)) :
    dedupQueue holders seen queue = keepFirst Prod.fst (seen ∪ holders) queue := by
  induction queue generalizing seen with
  | nil => rfl
  | cons request rest ih =>
      rw [dedupQueue, keepFirst, ih, ih, Finset.insert_union]
      by_cases h : request.1 ∈ seen ∪ holders
      · rw [if_pos h, if_neg]
        rintro ⟨hseen, hholders⟩
        exact (Finset.mem_union.mp h).elim hseen hholders
      · rw [if_neg h, if_pos (by simpa using h)]

namespace LockEntry

def Queues (e : LockEntry) (t : TxnId) : Prop := ∃ lt, (t, lt) ∈ e.waitQueue

theorem queues_iff {e : LockEntry} {t : TxnId} :
    e.Queues t ↔ t ∈ e.waitQueue.map Prod.fst := by
  simp [Queues]

def Mentions (e : LockEntry) (t : TxnId) : Prop := t ∈ e.holders ∨ e.Queues t

@[simp] theorem not_mentions_new (r : Resource) (t : TxnId) :
    ¬ (LockEntry.new r).Mentions t := by
  simp [new, Mentions, Queues]

@[simp] theorem enqueue_holders (e : LockEntry) (t : TxnId) (lt : LockType) :
    (e.enqueue t lt).holders = e.holders := by
  unfold enqueue
  split <;> rfl

@[simp] theorem enqueue_lockType (e : LockEntry) (t : TxnId) (lt : LockType) :
    (e.enqueue t lt).lockType = e.lockType := by
  unfold enqueue
  split <;> rfl

@[simp] theorem enqueue_resource (e : LockEntry) (t : TxnId) (lt : LockType) :
    (e.enqueue t lt).resource = e.resource := by
  unfold enqueue
  split <;> rfl

theorem queues_enqueue (e : LockEntry) (t u : TxnId) (lt : LockType) :
    (e.enqueue t lt).Queues u ↔ e.Queues u ∨ u = t := by
  unfold enqueue
  split
  · next h =>
      refine ⟨.inl, ?_⟩
      rintro (hu | rfl)
      · exact hu
      · exact ⟨lt, h⟩
  · simp only [Queues, List.mem_append, List.mem_singleton, Prod.mk.injEq]
    constructor
    · rintro ⟨lt', h | ⟨rfl, rfl⟩⟩
      · exact .inl ⟨lt', h⟩
      · exact .inr rfl
    · rintro (⟨lt', h⟩ | rfl)
      · exact ⟨lt', .inl h⟩
      · exact ⟨lt, .inr ⟨rfl, rfl⟩⟩

private theorem grantWaiting_resource (e : LockEntry) :
    e.grantWaiting.1.resource = e.resource := by
  unfold grantWaiting
  split <;> rfl

theorem grantWaiting_holders (e : LockEntry) :
    e.grantWaiting.1.holders = e.holders ∪ e.grantWaiting.2.toFinset := by
  unfold grantWaiting
  split
  · simp
  · simp
  · rfl

theorem grantWaiting_waitQueue {e : LockEntry} {first : TxnId}
    {rest : List (TxnId × LockType)} (hqueue : e.waitQueue = (first, .shared) :: rest) :
    e.grantWaiting.1.waitQueue = keepFirst Prod.fst e.grantWaiting.1.holders
      (rest.dropWhile fun request => request.2 = .shared) := by
  simp only [grantWaiting, hqueue, List.length_cons, Nat.add_sub_cancel,
    drop_length_sharedRun, dedupQueue_eq_keepFirst, Finset.empty_union]
  exact Queue.keepFirst_take_one_append _ _

theorem grantWaiting_mentions (e : LockEntry) (t : TxnId) :
    e.grantWaiting.1.Mentions t ↔ e.Mentions t := by
  cases hqueue : e.waitQueue with
  | nil => simp only [grantWaiting, hqueue]
  | cons request rest =>
      obtain ⟨first, lt⟩ := request
      cases lt with
      | exclusive =>
          simp only [Mentions, queues_iff, grantWaiting, hqueue, Finset.mem_insert,
            List.map_cons, List.mem_cons]
          tauto
      | shared =>
          have hholders : t ∈ e.grantWaiting.1.holders ↔
              t ∈ e.holders ∨ t = first ∨ t ∈ sharedRun rest := by
            simp only [grantWaiting, hqueue, Finset.mem_union, List.mem_toFinset,
              List.mem_cons]
          rw [Mentions, queues_iff, grantWaiting_waitQueue hqueue,
            Queue.mem_keys_keepFirst, Mentions, queues_iff, hqueue, List.map_cons,
            map_fst_eq_sharedRun_append rest, List.mem_cons, List.mem_append,
            hholders]
          tauto

/-! ## Soundness of one entry -/

/-- An exclusive lock has one holder, the mode is unset exactly when there is no
holder, and nobody waits for a free resource. -/
structure Sound (e : LockEntry) : Prop where
  exclusive : e.lockType = some .exclusive → ∃ t, e.holders = {t}
  free : e.lockType = none ↔ e.holders = ∅
  idle : e.holders = ∅ → e.waitQueue = []

theorem sound_new (r : Resource) : (new r).Sound :=
  ⟨by simp [new], by simp [new], by simp [new]⟩

theorem Sound.eq_of_exclusive {e : LockEntry} (h : e.Sound)
    (hmode : e.lockType = some .exclusive) {t u : TxnId} (ht : t ∈ e.holders)
    (hu : u ∈ e.holders) : t = u := by
  obtain ⟨v, hv⟩ := h.exclusive hmode
  rw [hv, Finset.mem_singleton] at ht hu
  rw [ht, hu]

theorem Sound.acquires {e e' : LockEntry} {t : TxnId} {lt : LockType}
    {granted : List TxnId} {answer : Bool}
    (h : Acquires e t lt e' granted answer) (hsound : e.Sound) : e'.Sound := by
  cases h with
  | covered held mode => exact hsound
  | upgraded held alone mode =>
      obtain ⟨u, hu⟩ := Finset.card_eq_one.mp alone
      exact ⟨fun _ => ⟨u, hu⟩, by simp [hu], by simp [hu]⟩
  | first free => exact ⟨fun _ => ⟨t, by simp [free]⟩, by simp, by simp⟩
  | joined fresh mode shared =>
      exact ⟨by simp [mode], by simp [mode], by simp⟩
  | queued busy blocked =>
      refine ⟨?_, ?_, ?_⟩
      · simpa using hsound.exclusive
      · simpa using hsound.free
      · simp [busy]

private theorem sound_grantWaiting {e : LockEntry} (hfree : e.holders = ∅)
    (hmode : e.lockType = none) : e.grantWaiting.1.Sound := by
  unfold grantWaiting
  split
  · next hq => exact ⟨by simp [hmode], by simp [hmode, hfree], fun _ => hq⟩
  · next first rest hq =>
      exact ⟨fun _ => ⟨first, by simp [hfree]⟩, by simp, by simp⟩
  · exact ⟨by simp, by simp, by simp⟩

/-- `t` leaves the holders; when nobody is left, the queue is served. -/
def drop (e : LockEntry) (t : TxnId) : LockEntry × List TxnId :=
  let e := { e with holders := e.holders.erase t }
  if e.holders = ∅ then grantWaiting { e with lockType := none } else (e, [])

theorem drop_resource (e : LockEntry) (t : TxnId) :
    (e.drop t).1.resource = e.resource := by
  unfold drop
  dsimp only
  split
  · exact grantWaiting_resource _
  · rfl

theorem drop_mentions (e : LockEntry) (t u : TxnId) :
    (e.drop t).1.Mentions u ↔ (u ≠ t ∧ u ∈ e.holders) ∨ e.Queues u := by
  unfold drop
  dsimp only
  split
  · rw [grantWaiting_mentions]
    simp [Mentions, Queues]
  · simp [Mentions, Queues]

theorem mem_drop_holders {e : LockEntry} {t u : TxnId} :
    u ∈ (e.drop t).1.holders ↔
      (u ≠ t ∧ u ∈ e.holders) ∨ u ∈ (e.drop t).2 := by
  unfold drop
  dsimp only
  split
  · rw [grantWaiting_holders]
    simp
  · simp

theorem Sound.drop {e : LockEntry} (h : e.Sound) (t : TxnId) :
    (e.drop t).1.Sound := by
  unfold LockEntry.drop
  dsimp only
  split
  · next hfree => exact sound_grantWaiting hfree rfl
  · next hbusy =>
      have hne : e.holders ≠ ∅ := by
        intro hempty
        simp [hempty] at hbusy
      refine ⟨fun hmode => ?_, ?_, fun hempty => absurd hempty hbusy⟩
      · obtain ⟨u, hu⟩ := h.exclusive hmode
        refine ⟨u, ?_⟩
        rw [hu] at hbusy ⊢
        refine Finset.erase_eq_of_notMem ?_
        rintro ht
        simp [Finset.mem_singleton.mp ht] at hbusy
      · simp [hbusy, h.free, hne]

def handOver (e : LockEntry) (source target : TxnId) : LockEntry :=
  if source ∈ e.holders then
    { e with holders := insert target (e.holders.erase source) }
  else e

theorem Sound.handOver {e : LockEntry} (h : e.Sound) (source target : TxnId) :
    (e.handOver source target).Sound := by
  unfold LockEntry.handOver
  split
  · next hsource =>
      refine ⟨fun hmode => ?_, ?_, by simp⟩
      · obtain ⟨u, hu⟩ := h.exclusive hmode
        have : source = u := by simpa [hu] using hsource
        exact ⟨target, by simp [hu, this]⟩
      · simp [h.free, Finset.ne_empty_of_mem hsource]
  · exact h

theorem handOver_waitQueue (e : LockEntry) (source target : TxnId) :
    (e.handOver source target).waitQueue = e.waitQueue := by
  unfold handOver
  split <;> rfl

end LockEntry

theorem Acquires.queues {e e' : LockEntry} {t u : TxnId} {lt : LockType}
    {granted : List TxnId} {answer : Bool}
    (h : Acquires e t lt e' granted answer) (hu : e.Queues u) :
    e'.Queues u := by
  cases h with
  | covered held mode => exact hu
  | upgraded held alone mode => exact hu
  | first free => exact hu
  | joined fresh mode shared => exact hu
  | queued busy blocked => exact (LockEntry.queues_enqueue e t u lt).mpr (.inl hu)

namespace LockManager

/-! ## Releasing and transferring -/

def Keyed (lm : LockManager) : Prop := ∀ r, (lm.entry r).resource = r

private theorem foldl_recordLock_rewrites (granted : List TxnId) (r : Resource)
    {lm lm' : LockManager} {e : LockEntry} {before : List TxnId}
    (h : Rewrites lm lm' r e before) :
    Rewrites lm (granted.foldl (fun lm t => lm.recordLock t r) lm') r e
      (before ++ granted) := by
  induction granted generalizing lm' before with
  | nil => simpa using h
  | cons t rest ih =>
      have hstep : Rewrites lm (lm'.recordLock t r) r e (before ++ [t]) := by
        refine ⟨fun r' => by rw [entry_recordLock, h.entry], fun u => ?_⟩
        rw [recorded_recordLock, h.recorded, h.recorded]
        by_cases hu : u = t
        · subst hu
          by_cases hmem : u ∈ before <;> simp [hmem]
        · simp [hu]
      simpa using ih hstep

theorem dropHolder_spec {lm : LockManager} (hkeyed : lm.Keyed) (t : TxnId)
    (r : Resource) :
    Rewrites lm (lm.dropHolder t r).1 r ((lm.entry r).drop t).1
        ((lm.entry r).drop t).2 ∧
      (lm.dropHolder t r).2 = ((lm.entry r).drop t).2 := by
  unfold dropHolder
  split
  · next habsent =>
      have hnew := entry_of_get?_none habsent
      have hdrop : (lm.entry r).drop t = (lm.entry r, []) := by
        simp [hnew, LockEntry.drop, LockEntry.new, LockEntry.grantWaiting]
      rw [hdrop]
      exact ⟨rewrites_refl lm r, rfl⟩
  · next e hget =>
      have hentry := entry_of_get? hget
      have hres : e.resource = r := hentry ▸ hkeyed r
      unfold LockEntry.drop
      rw [hentry]
      dsimp only
      split
      · refine ⟨?_, rfl⟩
        simpa only [grantWaiting, hres, List.nil_append] using
          foldl_recordLock_rewrites _ r (rewrites_putEntry lm r _)
      · exact ⟨rewrites_putEntry _ _ _, rfl⟩

theorem release_entry {lm : LockManager} (hkeyed : lm.Keyed) (t : TxnId)
    (r r' : Resource) :
    (lm.release t r).entry r' =
      if r' = r then ((lm.entry r).drop t).1 else lm.entry r' := by
  unfold release
  cases hget : lm.locks.get? r with
  | none =>
      change lm.entry r' = _
      split
      · next heq =>
        subst heq
        simp [entry_of_get?_none hget, LockEntry.drop, LockEntry.new,
          LockEntry.grantWaiting]
      · rfl
  | some e =>
      have hdrop (index : Dict TxnId (Finset Resource)) :
          (dropHolder { lm with txnLocks := index } t r).1.entry r' =
            if r' = r then ((lm.entry r).drop t).1 else lm.entry r' := by
        have hkeyed' : Keyed { lm with txnLocks := index } := hkeyed
        exact (dropHolder_spec hkeyed' t r).1.entry r'
      cases lm.txnLocks.get? t with
      | none => exact hdrop lm.txnLocks
      | some rs => exact hdrop _

theorem Rewrites.queues {lm lm' : LockManager} {t : TxnId} {r r' : Resource}
    {lt : LockType} {e : LockEntry} {granted : List TxnId} {answer : Bool} {u : TxnId}
    (hrw : Rewrites lm lm' r e granted)
    (hacq : Acquires (lm.entry r) t lt e granted answer)
    (h : (lm.entry r').Queues u) : (lm'.entry r').Queues u := by
  rw [hrw.entry]
  split
  · next heq =>
    subst heq
    exact hacq.queues h
  · exact h

theorem keyed_new : new.Keyed := fun _ => rfl

theorem Rewrites.keyed {lm lm' : LockManager} {r : Resource} {e : LockEntry}
    {granted : List TxnId} (h : Rewrites lm lm' r e granted)
    (hkeyed : lm.Keyed) (hres : e.resource = r) : lm'.Keyed := by
  intro r'
  rw [h.entry]
  split
  · next heq => rw [hres, heq]
  · exact hkeyed r'

private theorem foldl_dropHolder (t : TxnId) {lm : LockManager}
    (hkeyed : lm.Keyed) {order : List Resource} (hnodup : order.Nodup)
    (acc : List (Resource × List TxnId)) :
    let out := order.foldl
      (fun (acc : LockManager × List (Resource × List TxnId)) r =>
        let (lm, newly) := acc.1.dropHolder t r
        (lm, if newly = [] then acc.2 else acc.2 ++ [(r, newly)]))
      (lm, acc)
    (∀ r, out.1.entry r =
        if r ∈ order then ((lm.entry r).drop t).1 else lm.entry r) ∧
      ∀ u r, r ∈ out.1.recorded u ↔ r ∈ lm.recorded u ∨
        r ∈ order ∧ u ∈ ((lm.entry r).drop t).2 := by
  induction order generalizing lm acc with
  | nil => simp
  | cons r rest ih =>
      obtain ⟨hfresh, hrest⟩ := List.nodup_cons.mp hnodup
      have hstep := (dropHolder_spec hkeyed t r).1
      have hkeyed' : (lm.dropHolder t r).1.Keyed :=
        hstep.keyed hkeyed (by rw [LockEntry.drop_resource, hkeyed r])
      simp only [List.foldl_cons]
      obtain ⟨hentry, hrecorded⟩ := ih hkeyed' hrest _
      refine ⟨fun r' => ?_, fun u r' => ?_⟩
      · rw [hentry, hstep.entry]
        by_cases h : r' = r
        · subst h
          simp [hfresh]
        · simp [h]
      · rw [hrecorded, hstep.entry, hstep.recorded]
        by_cases h : r' = r
        · subst h
          by_cases hu : u ∈ ((lm.entry r').drop t).2 <;> simp [hfresh, hu]
        · by_cases hu : u ∈ ((lm.entry r).drop t).2 <;> simp [h, hu]

theorem releaseAll_entry {lm : LockManager} (hkeyed : lm.Keyed) (t : TxnId)
    {order : List Resource} (hnodup : order.Nodup) (r : Resource) :
    (lm.releaseAll t order).1.entry r =
      if r ∈ order then ((lm.entry r).drop t).1 else lm.entry r :=
  (foldl_dropHolder t hkeyed hnodup []).1 r

theorem mem_releaseAll_recorded {lm : LockManager} (hkeyed : lm.Keyed)
    (t : TxnId) {order : List Resource} (hnodup : order.Nodup) {u : TxnId}
    (hu : u ≠ t) (r : Resource) :
    r ∈ (lm.releaseAll t order).1.recorded u ↔ r ∈ lm.recorded u ∨
      r ∈ order ∧ u ∈ ((lm.entry r).drop t).2 := by
  have h := (foldl_dropHolder t hkeyed hnodup []).2 u r
  simpa only [releaseAll, recorded_forgetTxn, hu, if_false] using h

private theorem transferLock_spec (source target : TxnId) (lm : LockManager)
    (r : Resource) :
    Rewrites lm (transferLock source target lm r) r
      ((lm.entry r).handOver source target)
      (if source ∈ (lm.entry r).holders then [target] else []) := by
  unfold transferLock LockEntry.handOver
  split
  · next habsent =>
      simpa [entry_of_get?_none habsent, LockEntry.new] using
        rewrites_refl lm r
  · next e hget =>
      rw [entry_of_get? hget]
      split
      · exact rewrites_record _ _ _ _
      · simpa [entry_of_get? hget] using rewrites_refl lm r

private theorem foldl_transferLock (source target : TxnId) (lm : LockManager)
    {order : List Resource} (hnodup : order.Nodup) :
    (∀ r, (order.foldl (transferLock source target) lm).entry r =
        if r ∈ order then (lm.entry r).handOver source target
        else lm.entry r) ∧
      ∀ u r, r ∈ (order.foldl (transferLock source target) lm).recorded u ↔
        r ∈ lm.recorded u ∨
          u = target ∧ r ∈ order ∧ source ∈ (lm.entry r).holders := by
  induction order generalizing lm with
  | nil => simp
  | cons r rest ih =>
      obtain ⟨hfresh, hrest⟩ := List.nodup_cons.mp hnodup
      have hstep := transferLock_spec source target lm r
      obtain ⟨hentry, hrecorded⟩ := ih (transferLock source target lm r) hrest
      refine ⟨fun r' => ?_, fun u r' => ?_⟩
      · rw [List.foldl_cons, hentry, hstep.entry]
        by_cases h : r' = r
        · subst h
          simp [hfresh]
        · simp [h]
      · rw [List.foldl_cons, hrecorded, hstep.entry, hstep.recorded]
        by_cases h : r' = r
        · subst h
          by_cases hsource : source ∈ (lm.entry r').holders <;>
            by_cases hu : u = target <;> simp [hfresh, hsource, hu]
        · by_cases hsource : source ∈ (lm.entry r).holders <;>
            by_cases hu : u = target <;> simp [h, hsource, hu]

theorem transferLocks_entry (lm : LockManager) (source target : TxnId)
    {order : List Resource} (hnodup : order.Nodup) (r : Resource) :
    (lm.transferLocks source target order).entry r =
      if r ∈ order then (lm.entry r).handOver source target
      else lm.entry r :=
  (foldl_transferLock source target lm hnodup).1 r

theorem mem_transferLocks_recorded (lm : LockManager) (source target : TxnId)
    {order : List Resource} (hnodup : order.Nodup) {u : TxnId}
    (hu : u ≠ source) (r : Resource) :
    r ∈ (lm.transferLocks source target order).recorded u ↔
      r ∈ lm.recorded u ∨
        u = target ∧ r ∈ order ∧ source ∈ (lm.entry r).holders := by
  have h := (foldl_transferLock source target lm hnodup).2 u r
  simpa only [transferLocks, recorded_forgetTxn, hu, if_false] using h

theorem upgrade_spec (lm : LockManager) (t : TxnId) (r : Resource) :
    (∃ e granted, Acquires (lm.entry r) t .exclusive e granted true ∧
        Rewrites lm (lm.upgrade t r).1 r e granted ∧
        t ∈ (lm.entry r).holders ∧ (lm.upgrade t r).2 = true) ∨
      ((lm.upgrade t r).1 = lm ∧ (lm.upgrade t r).2 = false) := by
  unfold upgrade
  split
  · exact .inr ⟨rfl, rfl⟩
  · next e hget =>
      rw [entry_of_get? hget]
      by_cases held : t ∈ e.holders
      · rw [if_neg (not_not.mpr held)]
        by_cases hx : e.lockType = some .exclusive
        · rw [if_pos hx]
          have hrefl := rewrites_refl lm r
          rw [entry_of_get? hget] at hrefl
          exact .inl ⟨_, _, .covered held (.inl hx), hrefl, held, rfl⟩
        · rw [if_neg hx]
          by_cases alone : e.holders.card = 1
          · rw [if_pos alone]
            exact .inl ⟨_, _, .upgraded held alone rfl,
              rewrites_record _ _ _ _, held, rfl⟩
          · rw [if_neg alone]
            exact .inr ⟨rfl, rfl⟩
      · rw [if_pos held]
        exact .inr ⟨rfl, rfl⟩

end LockManager

end DistributedMemory.Storage
