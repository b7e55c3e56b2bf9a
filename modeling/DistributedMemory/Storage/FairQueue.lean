import DistributedMemory.Library.Queue
import DistributedMemory.Storage.LockSafety

/-!
# Serving a wait queue

`_grant_waiting` pops the head of the queue of a free resource, scans the requests
behind a shared head, cuts the queue by the number of grants, puts the request at
which the scan stopped in front again and drops repetitions.  In the end the front of
the queue is granted, nobody is overtaken and nobody is lost.
-/

namespace DistributedMemory.Storage

open DistributedMemory.Library
open Queue (Precedes)

/-! ## The method statement by statement -/

/-- The variables of `_grant_waiting`; the manager stands for its `_txn_locks`. -/
structure Serving where
  manager : LockManager
  entry : LockEntry
  granted : List TxnId

namespace Serving

/-- A transaction becomes a holder, is recorded and goes to the end of `granted`. -/
def grant (s : Serving) (t : TxnId) : Serving where
  manager := s.manager.recordLock t s.entry.resource
  entry := { s.entry with holders := insert t s.entry.holders }
  granted := s.granted ++ [t]

/-- The loop over the queue behind a shared head, with `still_waiting`. -/
def scan : Serving → List (TxnId × LockType) → Serving × List (TxnId × LockType)
  | s, [] => (s, [])
  | s, (t, .shared) :: rest => (s.grant t).scan rest
  | s, (t, .exclusive) :: _ => (s, [(t, .exclusive)])

/-- `_grant_waiting` -/
def grantWaiting (lm : LockManager) (e : LockEntry) : Serving :=
  match e.waitQueue with
  | [] => ⟨lm, e, []⟩
  | (firstTxn, firstType) :: rest =>
      let e := { e with waitQueue := rest, lockType := some firstType }
      let s := Serving.grant ⟨lm, e, []⟩ firstTxn
      match firstType with
      | .exclusive => s
      | .shared =>
          let (s, stillWaiting) := s.scan s.entry.waitQueue
          let waitQueue :=
            stillWaiting ++ s.entry.waitQueue.drop (s.granted.length - 1)
          let remaining := dedupQueue s.entry.holders ∅ waitQueue
          { s with entry := { s.entry with waitQueue := remaining } }

private theorem foldl_grant (s : Serving) (ts : List TxnId) :
    ts.foldl grant s =
      { manager := ts.foldl (fun lm t => lm.recordLock t s.entry.resource) s.manager
        entry := { s.entry with holders := s.entry.holders ∪ ts.toFinset }
        granted := s.granted ++ ts } := by
  induction ts generalizing s with
  | nil => simp
  | cons t ts ih =>
      rw [List.foldl_cons, ih]
      simp [grant]

private theorem scan_eq (s : Serving) (queue : List (TxnId × LockType)) :
    s.scan queue = ((sharedRun queue).foldl grant s,
      (queue.dropWhile fun request => request.2 = .shared).take 1) := by
  induction queue generalizing s with
  | nil => rfl
  | cons request rest ih =>
      obtain ⟨t, lt⟩ := request
      cases lt with
      | shared =>
          rw [scan, ih]
          simp [sharedRun]
      | exclusive =>
          rw [scan]
          simp [sharedRun]

theorem grantWaiting_eq (lm : LockManager) (e : LockEntry) :
    grantWaiting lm e =
      { manager := e.grantWaiting.2.foldl (fun lm t => lm.recordLock t e.resource) lm
        entry := e.grantWaiting.1
        granted := e.grantWaiting.2 } := by
  obtain ⟨resource, lockType, holders, waitQueue⟩ := e
  cases waitQueue with
  | nil => rfl
  | cons request rest =>
      obtain ⟨firstTxn, firstType⟩ := request
      cases firstType with
      | exclusive => rfl
      | shared =>
          have hholders : insert firstTxn holders ∪ (sharedRun rest).toFinset =
              holders ∪ (firstTxn :: sharedRun rest).toFinset := by
            ext t
            simp
          simp only [grantWaiting, scan_eq, foldl_grant, grant, hholders,
            LockEntry.grantWaiting, List.nil_append, List.singleton_append,
            List.foldl_cons]

private theorem foldl_recordLock_putEntry (lm : LockManager) (r r' : Resource) (e : LockEntry)
    (ts : List TxnId) :
    ts.foldl (fun lm t => lm.recordLock t r') (lm.putEntry r e) =
      (ts.foldl (fun lm t => lm.recordLock t r') lm).putEntry r e := by
  induction ts generalizing lm with
  | nil => rfl
  | cons t ts ih => exact ih (lm.recordLock t r')

theorem lockManager_grantWaiting (lm : LockManager) (r : Resource) (e : LockEntry) :
    lm.grantWaiting r e =
      ((grantWaiting lm e).manager.putEntry r (grantWaiting lm e).entry,
        (grantWaiting lm e).granted) := by
  rw [grantWaiting_eq, ← foldl_recordLock_putEntry]
  rfl

end Serving

/-! ## A fair round -/

/-- The front of the queue `served ++ behind`: an exclusive head alone, or all the
shared requests from the head up to the first other one. -/
inductive IsFront : List (TxnId × LockType) → List (TxnId × LockType) → Prop where
  | exclusive (t : TxnId) (behind : List (TxnId × LockType)) :
      IsFront [(t, .exclusive)] behind
  | shared {served behind : List (TxnId × LockType)} (nonempty : served ≠ [])
      (run : ∀ request ∈ served, request.2 = .shared)
      (maximal : ∀ request ∈ behind.head?, request.2 = .exclusive) :
      IsFront served behind

/-- `e'` is what a fair round of grants makes of `e`. -/
structure FairRound (e e' : LockEntry) (granted : List TxnId)
    (served behind : List (TxnId × LockType)) : Prop where
  queue : e.waitQueue = served ++ behind
  front : IsFront served behind
  /-- The requests that are granted are those of the front. -/
  granted_eq : granted = served.map Prod.fst
  holders : e'.holders = granted.toFinset
  mode : ∀ request ∈ served, e'.lockType = some request.2
  /-- Nothing is granted to a transaction behind one that goes without. -/
  notOvertaken : ∀ t u, Precedes Prod.fst e.waitQueue t u → u ∈ granted → t ∈ granted
  kept : ∀ t, e.Queues t → t ∈ e'.holders ∨ e'.Queues t
  remaining : e'.waitQueue.Sublist behind
  order : ∀ t u, e'.Queues t → e'.Queues u →
    (Precedes Prod.fst e'.waitQueue t u ↔ Precedes Prod.fst behind t u)

namespace LockEntry

section Round

variable {e : LockEntry} {served behind : List (TxnId × LockType)}
  (hfree : e.holders = ∅)

include hfree

theorem fairRound_of_served (hqueue : e.waitQueue = served ++ behind)
    (hfront : IsFront served behind)
    (hgranted : e.grantWaiting.2 = served.map Prod.fst)
    (hmode : ∀ request ∈ served, e.grantWaiting.1.lockType = some request.2)
    (hremaining : e.grantWaiting.1.waitQueue.Sublist behind)
    (horder : ∀ t u, e.grantWaiting.1.Queues t → e.grantWaiting.1.Queues u →
      (Precedes Prod.fst e.grantWaiting.1.waitQueue t u ↔
        Precedes Prod.fst behind t u)) :
    FairRound e e.grantWaiting.1 e.grantWaiting.2 served behind where
  queue := hqueue
  front := hfront
  granted_eq := hgranted
  holders := by rw [grantWaiting_holders, hfree, Finset.empty_union]
  mode := hmode
  notOvertaken t u h hu := by
    rw [hgranted] at hu ⊢
    rw [hqueue] at h
    exact Queue.mem_front_of_precedes h hu
  kept t ht := (e.grantWaiting_mentions t).mpr (.inr ht)
  remaining := hremaining
  order := horder

private theorem fairRound_exclusive {first : TxnId}
    (hqueue : e.waitQueue = (first, .exclusive) :: behind) :
    FairRound e e.grantWaiting.1 e.grantWaiting.2 [(first, .exclusive)] behind := by
  have hwait : e.grantWaiting.1.waitQueue = behind := by
    simp only [grantWaiting, hqueue]
  refine fairRound_of_served hfree hqueue (.exclusive first behind) ?_ ?_ ?_ ?_
  · simp only [grantWaiting, hqueue, List.map_cons, List.map_nil]
  · simp [grantWaiting, hqueue]
  · rw [hwait]
  · intro t u _ _
    rw [hwait]

private theorem fairRound_shared {first : TxnId} {rest : List (TxnId × LockType)}
    (hqueue : e.waitQueue = (first, .shared) :: rest) :
    FairRound e e.grantWaiting.1 e.grantWaiting.2
      ((first, .shared) :: rest.takeWhile fun request => request.2 = .shared)
      (rest.dropWhile fun request => request.2 = .shared) := by
  set behind := rest.dropWhile fun request => request.2 = .shared with hbehind
  have hrun : ∀ request ∈ (first, LockType.shared) ::
      rest.takeWhile fun request => request.2 = .shared, request.2 = .shared := by
    refine List.forall_mem_cons.mpr ⟨rfl, fun request hmem => ?_⟩
    simpa using List.mem_takeWhile_imp hmem
  have hmaximal : ∀ request ∈ behind.head?, request.2 = .exclusive := by
    intro request hhead
    have hnot := List.head?_dropWhile_not (fun request : TxnId × LockType =>
      decide (request.2 = .shared)) rest
    rw [← hbehind, hhead] at hnot
    cases hmode : request.2 with
    | shared => simp [hmode] at hnot
    | exclusive => rfl
  have hwait := grantWaiting_waitQueue hqueue
  have hout {t : TxnId} (ht : e.grantWaiting.1.Queues t) :
      t ∉ e.grantWaiting.1.holders := by
    rw [queues_iff, hwait, Queue.mem_keys_keepFirst] at ht
    exact ht.2
  refine fairRound_of_served hfree ?_ (.shared (List.cons_ne_nil _ _) hrun hmaximal)
    ?_ ?_ ?_ ?_
  · rw [hqueue, List.cons_append, List.takeWhile_append_dropWhile]
  · simp only [grantWaiting, hqueue, sharedRun, List.map_cons]
  · intro request hmem
    rw [hrun request hmem]
    simp only [grantWaiting, hqueue]
  · rw [hwait]
    exact Queue.keepFirst_sublist _ behind
  · intro t u ht hu
    rw [hwait]
    exact Queue.precedes_keepFirst (hout ht) (hout hu) behind

theorem fairRound_grantWaiting (hwaits : e.waitQueue ≠ []) :
    ∃ served behind, FairRound e e.grantWaiting.1 e.grantWaiting.2 served behind := by
  obtain ⟨⟨first, firstType⟩, rest, hqueue⟩ := List.exists_cons_of_ne_nil hwaits
  cases firstType with
  | exclusive => exact ⟨_, _, fairRound_exclusive hfree hqueue⟩
  | shared => exact ⟨_, _, fairRound_shared hfree hqueue⟩

end Round

end LockEntry

/--
`_grant_waiting` on an entry without holders whose queue is not empty: the head is
granted alone if it is exclusive, and otherwise the whole run of shared requests at
the head.  The holders are those transactions and the lock has the type of their
requests.  Nobody is overtaken; every transaction of the queue holds the lock or
waits still, and those that wait are in the order of their first requests that were
not granted.
-/
theorem Serving.grantWaiting_fair (lm : LockManager) {e : LockEntry}
    (hfree : e.holders = ∅) (hwaits : e.waitQueue ≠ []) :
    ∃ served behind, FairRound e (Serving.grantWaiting lm e).entry
      (Serving.grantWaiting lm e).granted served behind := by
  rw [Serving.grantWaiting_eq]
  exact LockEntry.fairRound_grantWaiting hfree hwaits

/-- A reader that waits for the exclusive lock as well, another one, and a writer
between their requests. -/
def readersAndWriter : LockEntry where
  resource := "x"
  lockType := none
  holders := ∅
  waitQueue := [("a", .shared), ("b", .shared), ("a", .exclusive), ("c", .exclusive),
    ("b", .shared), ("c", .shared), ("d", .shared)]

theorem readersAndWriter_fair :
    (∃ served behind, FairRound readersAndWriter
      (Serving.grantWaiting .new readersAndWriter).entry
      (Serving.grantWaiting .new readersAndWriter).granted served behind) ∧
    (Serving.grantWaiting .new readersAndWriter).granted = ["a", "b"] ∧
    (Serving.grantWaiting .new readersAndWriter).entry.waitQueue =
      [("c", .exclusive), ("d", .shared)] :=
  ⟨Serving.grantWaiting_fair .new rfl (by decide), by decide, by decide⟩

/-! ## The rounds of a run -/

theorem LockEntry.fairRound_drop {e : LockEntry} {t : TxnId}
    (hlast : e.holders.erase t = ∅) (hwaits : e.waitQueue ≠ []) :
    ∃ served behind, FairRound e (e.drop t).1 (e.drop t).2 served behind := by
  unfold LockEntry.drop
  dsimp only
  rw [if_pos hlast]
  obtain ⟨served, behind, h⟩ := LockEntry.fairRound_grantWaiting
    (e := { e with holders := e.holders.erase t, lockType := none }) hlast hwaits
  exact ⟨served, behind, { h with }⟩

namespace LockManager

variable {lm lm' : LockManager}

section Rounds

variable (hkeyed : lm.Keyed) {t : TxnId} {r : Resource}
  (hlast : (lm.entry r).holders.erase t = ∅) (hwaits : (lm.entry r).waitQueue ≠ [])

include hkeyed hlast hwaits

theorem release_fair : ∃ granted served behind,
    FairRound (lm.entry r) ((lm.release t r).entry r) granted served behind := by
  rw [release_entry hkeyed, if_pos rfl]
  exact ⟨_, LockEntry.fairRound_drop hlast hwaits⟩

theorem releaseAll_fair {order : List Resource} (hnodup : order.Nodup)
    (hr : r ∈ order) : ∃ granted served behind,
    FairRound (lm.entry r) ((lm.releaseAll t order).1.entry r) granted served
      behind := by
  rw [releaseAll_entry hkeyed t hnodup, if_pos hr]
  exact ⟨_, LockEntry.fairRound_drop hlast hwaits⟩

end Rounds

end LockManager

/-! ## Every sequence of calls -/

/-- `t` waits in front of every request of `u`, which waits too. -/
structure LockEntry.Ahead (e : LockEntry) (t u : TxnId) : Prop where
  precedes : Precedes Prod.fst e.waitQueue t u
  queues : e.Queues u

inductive EntryStep (e : LockEntry) : LockEntry → Prop where
  | acquires {e' : LockEntry} {t : TxnId} {lt : LockType} {granted : List TxnId}
      {answer : Bool} (h : Acquires e t lt e' granted answer) : EntryStep e e'
  | drops (t : TxnId) : EntryStep e (e.drop t).1
  | handsOver (source target : TxnId) : EntryStep e (e.handOver source target)
  | same : EntryStep e e

theorem Acquires.waitQueue {e e' : LockEntry} {t : TxnId} {lt : LockType}
    {granted : List TxnId} {answer : Bool}
    (h : Acquires e t lt e' granted answer) :
    ∃ more, e'.waitQueue = e.waitQueue ++ more := by
  cases h with
  | covered held mode => exact ⟨[], by simp⟩
  | upgraded held alone mode => exact ⟨[], by simp⟩
  | first free => exact ⟨[], by simp⟩
  | joined fresh mode shared => exact ⟨[], by simp⟩
  | queued busy blocked =>
      unfold LockEntry.enqueue
      split
      · exact ⟨[], by simp⟩
      · exact ⟨[(t, lt)], rfl⟩

theorem FairRound.ahead {e e' : LockEntry} {granted : List TxnId}
    {served behind : List (TxnId × LockType)} {t u : TxnId}
    (h : FairRound e e' granted served behind) (hahead : e.Ahead t u) :
    t ∈ e'.holders ∨ e'.Ahead t u := by
  by_cases ht : t ∈ granted
  · left
    rw [h.holders]
    exact List.mem_toFinset.mpr ht
  · have hout (v : TxnId) (hv : v ∉ granted) : v ∉ e'.holders := by
      rw [h.holders, List.mem_toFinset]
      exact hv
    have hu : u ∉ granted := fun hu => ht (h.notOvertaken t u hahead.precedes hu)
    have htq : e.Queues t := LockEntry.queues_iff.mpr hahead.precedes.mem_keys
    have ht' := (h.kept t htq).resolve_left (hout t ht)
    have hu' := (h.kept u hahead.queues).resolve_left (hout u hu)
    have hbehind : Precedes Prod.fst behind t u := by
      have hprecedes := hahead.precedes
      rw [h.queue] at hprecedes
      refine hprecedes.behind ?_
      rwa [← h.granted_eq]
    exact .inr ⟨(h.order t u ht' hu').mpr hbehind, hu'⟩

namespace EntryStep

variable {e e' : LockEntry} {t u : TxnId}

theorem mentions (h : EntryStep e e') (hu : e.Queues u) : e'.Mentions u := by
  cases h with
  | acquires hacq => exact .inr (hacq.queues hu)
  | drops t => exact (LockEntry.drop_mentions e t u).mpr (.inr hu)
  | handsOver source target =>
      right
      rwa [LockEntry.Queues, LockEntry.handOver_waitQueue]
  | same => exact .inr hu

theorem ahead (h : EntryStep e e') (hahead : e.Ahead t u) :
    t ∈ e'.holders ∨ e'.Ahead t u := by
  cases h with
  | acquires hacq =>
      obtain ⟨more, hqueue⟩ := hacq.waitQueue
      refine .inr ⟨?_, hacq.queues hahead.queues⟩
      rw [hqueue]
      exact hahead.precedes.append more
  | drops s =>
      by_cases hlast : e.holders.erase s = ∅
      · have hwaits : e.waitQueue ≠ [] := by
          obtain ⟨lt, hmem⟩ := hahead.queues
          exact List.ne_nil_of_mem hmem
        obtain ⟨served, behind, hround⟩ :=
          LockEntry.fairRound_drop hlast hwaits
        exact hround.ahead hahead
      · have hqueue : (e.drop s).1.waitQueue = e.waitQueue := by
          simp only [LockEntry.drop, if_neg hlast]
        refine .inr ⟨?_, ?_⟩
        · rw [hqueue]
          exact hahead.precedes
        · rw [LockEntry.Queues, hqueue]
          exact hahead.queues
  | handsOver source target =>
      refine .inr ⟨?_, ?_⟩
      · rw [LockEntry.handOver_waitQueue]
        exact hahead.precedes
      · rw [LockEntry.Queues, LockEntry.handOver_waitQueue]
        exact hahead.queues
  | same => exact .inr hahead

end EntryStep

namespace LockManager

variable {lm lm' : LockManager}

theorem Rewrites.entryStep {t : TxnId} {r : Resource} {lt : LockType}
    {e : LockEntry} {granted : List TxnId} {answer : Bool}
    (hrw : Rewrites lm lm' r e granted)
    (hacq : Acquires (lm.entry r) t lt e granted answer) (r' : Resource) :
    EntryStep (lm.entry r') (lm'.entry r') := by
  rw [hrw.entry]
  split
  · next heq =>
    subst heq
    exact .acquires hacq
  · exact .same

theorem entry_step (hvalid : lm.Valid) {call : LockCall}
    (hstep : lm.step call = some lm') (r : Resource) :
    EntryStep (lm.entry r) (lm'.entry r) := by
  cases call with
  | acquire t r' lt =>
      obtain ⟨e, granted, hacq, hrw⟩ := lm.acquire_spec t r' lt
      obtain rfl := Option.some.inj hstep
      exact hrw.entryStep hacq r
  | release t r' =>
      obtain rfl := Option.some.inj hstep
      rw [release_entry hvalid.keyed]
      split
      · next heq => exact heq ▸ .drops t
      · exact .same
  | releaseAll t order =>
      obtain ⟨horder, heq⟩ := Option.ite_none_right_eq_some.mp hstep
      obtain rfl := Option.some.inj heq
      rw [releaseAll_entry hvalid.keyed t horder.1]
      split
      · exact .drops t
      · exact .same
  | transferLocks source target order =>
      obtain ⟨horder, heq⟩ := Option.ite_none_right_eq_some.mp hstep
      obtain rfl := Option.some.inj heq
      rw [transferLocks_entry _ _ _ horder.1]
      split
      · exact .handsOver source target
      · exact .same
  | upgrade t r' =>
      obtain rfl := Option.some.inj hstep
      rcases lm.upgrade_spec t r' with ⟨e, granted, hacq, hrw, -, -⟩ | ⟨hsame, -⟩
      · exact hrw.entryStep hacq r
      · rw [hsame]
        exact .same

/-- Who is in front of another one holds the lock at some moment of a run or is in
front still when it ends. -/
theorem run_ahead (hvalid : lm.Valid) {calls : List LockCall}
    (hrun : run step lm calls = some lm') {r : Resource} {t u : TxnId}
    (hahead : (lm.entry r).Ahead t u) :
    (∃ before after lm₁, calls = before ++ after ∧
      run step lm before = some lm₁ ∧ t ∈ (lm₁.entry r).holders) ∨
      (lm'.entry r).Ahead t u := by
  have hkeeps := run_until
    (P := fun s : LockManager => s.Valid ∧ (s.entry r).Ahead t u)
    (Q := fun s => t ∈ (s.entry r).holders)
    (fun s call s' h hs => ((entry_step h.1 hs r).ahead h.2).imp_right
      fun hahead' => ⟨Valid.step h.1 hs, hahead'⟩) ⟨hvalid, hahead⟩ hrun
  exact hkeeps.imp_right fun h => h.2

/--
First come, first served: whatever is called, who is no longer in the queue of a
resource was granted the lock by the call that took it out, and everybody who was in
front of it has held the lock by then.
-/
theorem run_queueOrder {earlier calls : List LockCall}
    (hearlier : run step new earlier = some lm)
    (hrun : run step lm calls = some lm') {r : Resource} {u : TxnId}
    (hqueued : (lm.entry r).Queues u) (hgone : ¬ (lm'.entry r).Queues u) :
    ∃ before call after lm₁ lm₂, calls = before ++ call :: after ∧
      run step lm before = some lm₁ ∧ (lm₁.entry r).Queues u ∧
      lm₁.step call = some lm₂ ∧ ¬ (lm₂.entry r).Queues u ∧
      u ∈ (lm₂.entry r).holders ∧
      ∀ t, Precedes Prod.fst (lm.entry r).waitQueue t u →
        ∃ served later lm₃, before ++ [call] = served ++ later ∧
          run step lm served = some lm₃ ∧ t ∈ (lm₃.entry r).holders := by
  have hvalid : lm.Valid :=
    run_preserves (fun _ _ _ hvalid hs => Valid.step hvalid hs) valid_new hearlier
  obtain ⟨before, call, after, lm₁, lm₂, heq, hbefore, hwaits, hstep, hleft, -⟩ :=
    run_crosses (P := fun s : LockManager => ¬ (s.entry r).Queues u)
      (not_not.mpr hqueued) hgone hrun
  have hvalid₁ : lm₁.Valid :=
    run_preserves (fun _ _ _ hvalid hs => Valid.step hvalid hs) hvalid hbefore
  have hmentions := (entry_step hvalid₁ hstep r).mentions (not_not.mp hwaits)
  have hfirst : run step lm (before ++ [call]) = some lm₂ :=
    run_append.mpr ⟨lm₁, hbefore, by rw [run_cons_of_step hstep, run_nil]⟩
  refine ⟨before, call, after, lm₁, lm₂, heq, hbefore, not_not.mp hwaits, hstep, hleft,
    hmentions.resolve_right hleft, fun t ht => ?_⟩
  exact (run_ahead hvalid hfirst ⟨ht, hqueued⟩).resolve_right
    fun hahead => hleft hahead.queues

/-- Two writers and a reader behind the writer that holds the lock. -/
def writersAndReader : List LockCall :=
  [.acquire "a" "x" .exclusive, .acquire "b" "x" .exclusive,
    .acquire "c" "x" .exclusive, .acquire "d" "x" .shared]

def writersLeave : List LockCall :=
  [.release "a" "x", .releaseAll "b" ["x"], .release "c" "x"]

/-- The reader comes after the two writers in front of it. -/
theorem writersAndReader_queueOrder :
    ∃ lm lm', run step new writersAndReader = some lm ∧
      run step lm writersLeave = some lm' ∧
      Precedes Prod.fst (lm.entry "x").waitQueue "c" "d" ∧
      ∃ before call after lm₁ lm₂, writersLeave = before ++ call :: after ∧
        run step lm before = some lm₁ ∧ (lm₁.entry "x").Queues "d" ∧
        lm₁.step call = some lm₂ ∧ ¬ (lm₂.entry "x").Queues "d" ∧
        "d" ∈ (lm₂.entry "x").holders ∧
        ∀ t, Precedes Prod.fst (lm.entry "x").waitQueue t "d" →
          ∃ served later lm₃, before ++ [call] = served ++ later ∧
            run step lm served = some lm₃ ∧ t ∈ (lm₃.entry "x").holders := by
  have hfirst : (run step new writersAndReader).map (fun lm =>
      decide ("d" ∈ (lm.entry "x").waitQueue.map Prod.fst ∧
        Precedes Prod.fst (lm.entry "x").waitQueue "c" "d")) = some true := by
    decide +kernel
  have hview : (run step new (writersAndReader ++ writersLeave)).map (fun lm =>
      decide ((lm.entry "x").waitQueue = [])) = some true := by
    decide +kernel
  obtain ⟨lm', hall, hlm'⟩ := Option.map_eq_some_iff.mp hview
  obtain ⟨lm, hearlier, hrun⟩ := run_append.mp hall
  obtain ⟨lm₀, hlm₀, hqueue⟩ := Option.map_eq_some_iff.mp hfirst
  obtain rfl : lm = lm₀ := Option.some.inj (hearlier.symm.trans hlm₀)
  obtain ⟨hqueued, hprecedes⟩ := of_decide_eq_true hqueue
  refine ⟨lm, lm', hearlier, hrun, hprecedes, ?_⟩
  refine run_queueOrder hearlier hrun (LockEntry.queues_iff.mpr hqueued) ?_
  rw [LockEntry.queues_iff, of_decide_eq_true hlm']
  exact List.not_mem_nil

end LockManager

end DistributedMemory.Storage
