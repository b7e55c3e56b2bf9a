import DistributedMemory.Storage.LockSafety

/-!
# The head of the wait queue

A request that waits should wait for somebody: the head of a queue conflicts
with a holder other than its own transaction.  `acquire` and `upgrade` keep this
so.  The other methods serve a queue only when the last holder has left, and
then a single round of grants, so a head can be left waiting for nobody but
itself; `LeavesHead` and `PassesHead` say when that does not happen.
-/

namespace DistributedMemory.Storage

open DistributedMemory.Library

namespace LockEntry

/-- A holder other than its own transaction keeps the request from being
granted. -/
def Conflicts (e : LockEntry) (request : TxnId × LockType) : Prop :=
  (request.2 = .exclusive ∨ e.lockType = some .exclusive) ∧
    ∃ u ∈ e.holders, u ≠ request.1

instance (e : LockEntry) (request : TxnId × LockType) :
    Decidable (e.Conflicts request) :=
  inferInstanceAs (Decidable (_ ∧ ∃ u ∈ e.holders, u ≠ request.1))

/-- The head of the queue, if there is one, conflicts with a holder. -/
def HeadBlocked (e : LockEntry) : Prop :=
  ∀ request ∈ e.waitQueue.head?, e.Conflicts request

instance (e : LockEntry) : Decidable e.HeadBlocked :=
  inferInstanceAs (Decidable (∀ request ∈ e.waitQueue.head?, _))

/-- What is behind a head that was granted does not start with a request that
could have been granted as well.  A shared head takes the requests of `granted`
with it, and later requests of the same transactions are dropped. -/
def ServedWhole : List (TxnId × LockType) → Prop
  | [] => True
  | (first, .exclusive) :: rest => ∀ next ∈ rest.head?, next.1 ≠ first
  | (first, .shared) :: rest =>
      let granted := first :: sharedRun rest
      ∀ next ∈ (rest.dropWhile fun request => request.2 = .shared).find?
        fun request => request.1 ∉ granted, next.2 = .exclusive

/-- When `t` leaves, either a holder remains that is not the transaction at the
head, or nobody remains and the queue is served in one go. -/
def LeavesHead (e : LockEntry) (t : TxnId) : Prop :=
  if e.holders ⊆ {t} then ServedWhole e.waitQueue
  else ∀ request ∈ e.waitQueue.head?,
    ∃ u ∈ e.holders, u ≠ t ∧ u ≠ request.1

/-- When `source` is replaced by `target`, a holder remains that is not the
transaction at the head. -/
def PassesHead (e : LockEntry) (source target : TxnId) : Prop :=
  source ∈ e.holders → ∀ request ∈ e.waitQueue.head?,
    target = request.1 → ∃ u ∈ e.holders, u ≠ source ∧ u ≠ target

/-! ## One entry -/

private theorem conflicts_congr {e e' : LockEntry} (hholders : e'.holders = e.holders)
    (hmode : e'.lockType = e.lockType) (request : TxnId × LockType) :
    e'.Conflicts request ↔ e.Conflicts request := by
  simp only [Conflicts, hholders, hmode]

theorem headBlocked_of_nil {e : LockEntry} (h : e.waitQueue = []) :
    e.HeadBlocked := by
  intro request hhead
  simp [h] at hhead

private theorem conflicts_of_queued {e : LockEntry} (hsound : e.Sound) {t : TxnId}
    {lt : LockType} (busy : e.holders ≠ ∅)
    (blocked : ¬ (t ∈ e.holders ∧
      (e.lockType = some .exclusive ∨ lt = .shared ∨ e.holders.card = 1)))
    (hfresh : t ∈ e.holders ∨ ¬ (e.lockType = some .shared ∧ lt = .shared)) :
    e.Conflicts (t, lt) := by
  by_cases held : t ∈ e.holders
  · have hmode : lt ≠ .shared ∧ e.holders.card ≠ 1 := by tauto
    constructor
    · left
      cases lt with
      | shared => exact absurd rfl hmode.1
      | exclusive => rfl
    · have hcard : 1 < e.holders.card := by
        have := Finset.card_pos.mpr ⟨t, held⟩
        omega
      exact Finset.exists_mem_ne hcard t
  · constructor
    · have hmode := hfresh.resolve_left held
      cases lt with
      | exclusive => exact .inl rfl
      | shared =>
          right
          cases htype : e.lockType with
          | none => exact absurd (hsound.free.mp htype) busy
          | some mode =>
              cases mode with
              | shared => exact absurd ⟨htype, rfl⟩ hmode
              | exclusive => rfl
    · obtain ⟨u, hu⟩ := Finset.nonempty_iff_ne_empty.mpr busy
      refine ⟨u, hu, ?_⟩
      rintro rfl
      exact held hu

/-- A new request goes to the end, so the head is new only if the queue was
empty. -/
theorem HeadBlocked.enqueue {e : LockEntry} {t : TxnId} {lt : LockType}
    (h : e.HeadBlocked) (hconflict : e.Conflicts (t, lt)) :
    (e.enqueue t lt).HeadBlocked := by
  intro request hhead
  rw [conflicts_congr (enqueue_holders e t lt) (enqueue_lockType e t lt)]
  unfold LockEntry.enqueue at hhead
  split at hhead
  · exact h request hhead
  · rw [List.head?_append] at hhead
    cases hqueue : e.waitQueue.head? with
    | none =>
        simp only [hqueue, Option.none_or, List.head?_cons,
          Option.mem_def, Option.some.injEq] at hhead
        rw [← hhead]
        exact hconflict
    | some head =>
        simp only [hqueue, Option.some_or] at hhead
        exact h request (hqueue ▸ hhead)

theorem HeadBlocked.acquires {e e' : LockEntry} (hsound : e.Sound)
    {t : TxnId} {lt : LockType} {granted : List TxnId} {answer : Bool}
    (hacq : Acquires e t lt e' granted answer)
    (hfresh : answer = false →
      t ∈ e.holders ∨ ¬ (e.lockType = some .shared ∧ lt = .shared))
    (h : e.HeadBlocked) : e'.HeadBlocked := by
  cases hacq with
  | covered held mode => exact h
  | upgraded held alone mode =>
      intro request hhead
      exact ⟨.inr rfl, (h request hhead).2⟩
  | first free => exact headBlocked_of_nil (hsound.idle free)
  | joined fresh mode shared =>
      intro request hhead
      obtain ⟨hmode, u, hu, hne⟩ := h request hhead
      exact ⟨hmode, u, Finset.mem_insert_of_mem hu, hne⟩
  | queued busy blocked =>
      exact h.enqueue (conflicts_of_queued hsound busy blocked (hfresh rfl))

private theorem headBlocked_grantWaiting {e : LockEntry} (hfree : e.holders = ∅) :
    e.grantWaiting.1.HeadBlocked ↔ ServedWhole e.waitQueue := by
  cases hqueue : e.waitQueue with
  | nil =>
      refine iff_of_true (headBlocked_of_nil ?_) trivial
      simp only [grantWaiting, hqueue]
  | cons request rest =>
      obtain ⟨first, lt⟩ := request
      cases lt with
      | exclusive =>
          simp only [grantWaiting, HeadBlocked, Conflicts, ServedWhole, hqueue, hfree,
            insert_empty_eq, or_true, true_and, Finset.mem_singleton,
            exists_eq_left]
          exact forall₂_congr fun _ _ => ne_comm
      | shared =>
          have hholders : e.grantWaiting.1.holders =
              (first :: sharedRun rest).toFinset := by
            simp only [grantWaiting, hqueue, hfree, Finset.empty_union]
          have hmode : e.grantWaiting.1.lockType = some .shared := by
            simp only [grantWaiting, hqueue]
          simp only [HeadBlocked, ServedWhole, grantWaiting_waitQueue hqueue,
            Queue.head?_keepFirst, hholders, List.mem_toFinset]
          refine forall₂_congr fun next hnext => ?_
          have hfresh : next.1 ≠ first := by
            have := List.find?_some hnext
            simp only [List.mem_cons, not_or, decide_eq_true_eq] at this
            exact this.1
          simp only [Conflicts, hmode, hholders, Option.some.injEq, reduceCtorEq,
            or_false, and_iff_left_iff_imp]
          exact fun _ => ⟨first, by simp, hfresh.symm⟩

theorem headBlocked_drop {e : LockEntry} (h : e.HeadBlocked) (t : TxnId) :
    (e.drop t).1.HeadBlocked ↔ e.LeavesHead t := by
  have hempty : e.holders.erase t = ∅ ↔ e.holders ⊆ {t} := by
    rw [Finset.erase_eq_empty_iff, Finset.subset_singleton_iff]
  unfold LockEntry.drop LeavesHead
  dsimp only
  by_cases hleft : e.holders.erase t = ∅
  · rw [if_pos hleft, if_pos (hempty.mp hleft)]
    exact headBlocked_grantWaiting hleft
  · rw [if_neg hleft, if_neg (fun hsub => hleft (hempty.mpr hsub))]
    refine forall₂_congr fun request hhead => ?_
    simp only [Conflicts, (h request hhead).1, true_and, Finset.mem_erase]
    exact exists_congr fun u => by tauto

private theorem headBlocked_handOver {e : LockEntry} (h : e.HeadBlocked)
    (source target : TxnId) :
    (e.handOver source target).HeadBlocked ↔ e.PassesHead source target := by
  unfold LockEntry.handOver PassesHead
  split
  · next hsource =>
    simp only [hsource, true_imp_iff]
    refine forall₂_congr fun request hhead => ?_
    simp only [Conflicts, (h request hhead).1, true_and, Finset.mem_insert,
      Finset.mem_erase]
    constructor
    · rintro ⟨u, rfl | ⟨hne, hu⟩, hother⟩ rfl
      · exact absurd rfl hother
      · exact ⟨u, hu, hne, hother⟩
    · intro hremains
      by_cases htarget : target = request.1
      · obtain ⟨u, hu, hne, hother⟩ := hremains htarget
        exact ⟨u, .inr ⟨hne, hu⟩, htarget ▸ hother⟩
      · exact ⟨target, .inl rfl, htarget⟩
  · next hsource => exact iff_of_true h fun hheld => absurd hheld hsource

end LockEntry

namespace LockManager

/-- No queue has a head that could be granted. -/
def HeadsBlocked (lm : LockManager) : Prop := ∀ r, (lm.entry r).HeadBlocked

/-- The condition on a call: on each resource it takes from a holder, the head
of the queue is served or still waits for somebody else. -/
def ServesHeads (lm : LockManager) : LockCall → Prop
  | .acquire _ _ _ => True
  | .release t r => (lm.entry r).LeavesHead t
  | .releaseAll t _ => ∀ r ∈ lm.recorded t, (lm.entry r).LeavesHead t
  | .transferLocks source target _ =>
      ∀ r ∈ lm.recorded source, (lm.entry r).PassesHead source target
  | .upgrade _ _ => True

private theorem headsBlocked_new : new.HeadsBlocked :=
  fun _ => LockEntry.headBlocked_of_nil rfl

private theorem mode_of_refused {lm : LockManager} {t : TxnId} {r : Resource}
    {lt : LockType} (h : (lm.acquire t r lt).2 = false) :
    t ∈ (lm.entry r).holders ∨
      ¬ ((lm.entry r).lockType = some .shared ∧ lt = .shared) := by
  unfold acquire at h
  dsimp only at h
  by_cases held : t ∈ (lm.entry r).holders
  · exact .inl held
  · right
    intro hshared
    rw [if_neg held, if_pos hshared] at h
    split at h <;> cases h

theorem Rewrites.headsBlocked {lm lm' : LockManager} {r : Resource}
    {e : LockEntry} {granted : List TxnId} (h : Rewrites lm lm' r e granted)
    (hheads : lm.HeadsBlocked) : lm'.HeadsBlocked ↔ e.HeadBlocked := by
  constructor
  · intro hheads'
    have hhere := hheads' r
    rwa [h.here] at hhere
  · intro he r'
    rw [h.entry]
    split
    · exact he
    · exact hheads r'

section Calls

variable {lm : LockManager} (hvalid : lm.Valid) (hheads : lm.HeadsBlocked)

include hvalid hheads

theorem HeadsBlocked.acquire (t : TxnId) (r : Resource) (lt : LockType) :
    (lm.acquire t r lt).1.HeadsBlocked := by
  obtain ⟨e, granted, hacq, hrw⟩ := lm.acquire_spec t r lt
  apply (hrw.headsBlocked hheads).mpr
  exact (hheads r).acquires (hvalid.sound r) hacq mode_of_refused

theorem HeadsBlocked.upgrade (t : TxnId) (r : Resource) :
    (lm.upgrade t r).1.HeadsBlocked := by
  rcases lm.upgrade_spec t r with ⟨e, granted, hacq, hrw, -, -⟩ | ⟨hsame, -⟩
  · apply (hrw.headsBlocked hheads).mpr
    exact (hheads r).acquires (hvalid.sound r) hacq (by simp)
  · rw [hsame]
    exact hheads

private theorem headsBlocked_release (t : TxnId) (r : Resource) :
    (lm.release t r).HeadsBlocked ↔ (lm.entry r).LeavesHead t := by
  rw [← LockEntry.headBlocked_drop (hheads r) t]
  simp only [HeadsBlocked, release_entry hvalid.keyed]
  constructor
  · intro h
    have hhere := h r
    rwa [if_pos rfl] at hhere
  · intro h r'
    split
    · exact h
    · exact hheads r'

private theorem headsBlocked_releaseAll {t : TxnId} {order : List Resource}
    (horder : lm.Iterates t order) :
    (lm.releaseAll t order).1.HeadsBlocked ↔
      ∀ r ∈ lm.recorded t, (lm.entry r).LeavesHead t := by
  simp only [HeadsBlocked, releaseAll_entry hvalid.keyed t horder.1,
    ← horder.2, List.mem_toFinset]
  refine forall_congr' fun r => ?_
  by_cases hr : r ∈ order
  · simp only [hr, true_imp_iff]
    exact LockEntry.headBlocked_drop (hheads r) t
  · simp only [if_neg hr]
    exact iff_of_true (hheads r) fun h => absurd h hr

omit hvalid in
private theorem headsBlocked_transferLocks {source target : TxnId}
    {order : List Resource} (horder : lm.Iterates source order) :
    (lm.transferLocks source target order).HeadsBlocked ↔
      ∀ r ∈ lm.recorded source, (lm.entry r).PassesHead source target := by
  simp only [HeadsBlocked, transferLocks_entry _ _ _ horder.1, ← horder.2,
    List.mem_toFinset]
  refine forall_congr' fun r => ?_
  by_cases hr : r ∈ order
  · simp only [hr, true_imp_iff]
    exact LockEntry.headBlocked_handOver (hheads r) source target
  · simp only [if_neg hr]
    exact iff_of_true (hheads r) fun h => absurd h hr

private theorem headsBlocked_step {lm' : LockManager} {call : LockCall}
    (hstep : lm.step call = some lm') :
    lm'.HeadsBlocked ↔ lm.ServesHeads call := by
  cases call with
  | acquire t r lt =>
      obtain rfl := Option.some.inj hstep
      exact iff_of_true (hheads.acquire hvalid t r lt) trivial
  | release t r =>
      obtain rfl := Option.some.inj hstep
      exact headsBlocked_release hvalid hheads t r
  | releaseAll t order =>
      obtain ⟨horder, heq⟩ := Option.ite_none_right_eq_some.mp hstep
      obtain rfl := Option.some.inj heq
      exact headsBlocked_releaseAll hvalid hheads horder
  | transferLocks source target order =>
      obtain ⟨horder, heq⟩ := Option.ite_none_right_eq_some.mp hstep
      obtain rfl := Option.some.inj heq
      exact headsBlocked_transferLocks hheads horder
  | upgrade t r =>
      obtain rfl := Option.some.inj hstep
      exact iff_of_true (hheads.upgrade hvalid t r) trivial

end Calls

/--
A run of lock manager calls keeps every head of a queue blocked by another
holder exactly when each of its calls serves the heads: one that takes a holder
away leaves another holder that is not at the head, or serves the whole run of
requests that its departure makes grantable; one that replaces a holder does not
leave the head alone with itself.
-/
theorem run_headsBlocked_iff {lm : LockManager} {calls : List LockCall}
    (hrun : run step new calls = some lm) :
    Always step HeadsBlocked new calls ↔ Along step ServesHeads new calls :=
  always_iff_along (fun _ _ _ h hs => Valid.step h hs)
    (fun _ _ _ hvalid hheads hs => headsBlocked_step hvalid hheads hs)
    valid_new headsBlocked_new hrun

/-- The heads are served along a writer's turn: a reader and a writer queue
behind the first holder, and each leaves in turn. -/
def turnCalls : List LockCall :=
  [.acquire "a" "x" .exclusive, .acquire "b" "x" .exclusive,
    .acquire "c" "x" .shared, .release "a" "x", .releaseAll "b" ["x"]]

theorem turnCalls_headsBlocked :
    ∃ lm, run step new turnCalls = some lm ∧
      (Always step HeadsBlocked new turnCalls ↔
        Along step ServesHeads new turnCalls) := by
  have hruns : (run step new turnCalls).isSome = true := by
    decide +kernel
  obtain ⟨lm, hrun⟩ := Option.isSome_iff_exists.mp hruns
  exact ⟨lm, hrun, run_headsBlocked_iff hrun⟩

/-- Two readers share a resource, one of them waits for the exclusive lock, and
the other one leaves: the upgrade waits for nobody. -/
def strandedCalls : List LockCall :=
  [.acquire "a" "x" .shared, .acquire "b" "x" .shared,
    .acquire "b" "x" .exclusive, .release "a" "x"]

theorem strandedCalls_head :
    ∃ lm, run step new strandedCalls = some lm ∧
      (lm.entry "x").waitQueue = [("b", .exclusive)] ∧
      (lm.entry "x").holders = {"b"} ∧ ¬ lm.HeadsBlocked := by
  have hview : (run step new strandedCalls).map (fun lm =>
      decide ((lm.entry "x").waitQueue = [("b", .exclusive)] ∧
        (lm.entry "x").holders = {"b"} ∧
        ¬ (lm.entry "x").HeadBlocked)) = some true := by
    decide +kernel
  obtain ⟨lm, hrun, hlm⟩ := Option.map_eq_some_iff.mp hview
  obtain ⟨hqueue, hholders, hhead⟩ := of_decide_eq_true hlm
  exact ⟨lm, hrun, hqueue, hholders, fun hheads => hhead (hheads "x")⟩

end LockManager

end DistributedMemory.Storage
