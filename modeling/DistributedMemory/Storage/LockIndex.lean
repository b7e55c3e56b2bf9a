import DistributedMemory.Storage.LockSafety

/-!
# The index of the lock table

For every transaction the lock manager keeps the resources it holds, apart from
the holders in the entries.  The two agree after every method but one:
`release_all` serves the queues before it drops the index of the caller, so when
the caller itself waits at the front of a queue that only it kept closed, it
gets the lock back and loses the record of it.
-/

namespace DistributedMemory.Storage

open DistributedMemory.Library

namespace LockEntry

/-- The transactions that are granted when the queue of a free resource is
served. -/
def front : List (TxnId × LockType) → List TxnId
  | [] => []
  | (first, .exclusive) :: _ => [first]
  | (first, .shared) :: rest => first :: sharedRun rest

def RegrantsTo (e : LockEntry) (t : TxnId) : Prop :=
  e.holders ⊆ {t} ∧ t ∈ front e.waitQueue

instance (e : LockEntry) (t : TxnId) : Decidable (e.RegrantsTo t) :=
  inferInstanceAs (Decidable (_ ∧ _))

private theorem grantWaiting_granted (e : LockEntry) :
    e.grantWaiting.2 = front e.waitQueue := by
  obtain ⟨resource, lockType, holders, waitQueue⟩ := e
  cases waitQueue with
  | nil => rfl
  | cons request rest =>
      obtain ⟨first, lt⟩ := request
      cases lt with
      | shared => rfl
      | exclusive => rfl

private theorem mem_drop_granted_self {e : LockEntry} {t : TxnId} :
    t ∈ (e.drop t).2 ↔ e.RegrantsTo t := by
  unfold drop RegrantsTo
  dsimp only
  rw [Finset.subset_singleton_iff, ← Finset.erase_eq_empty_iff]
  split
  · next hleft => simp only [grantWaiting_granted, hleft, true_and]
  · next hleft => simp [hleft]

theorem mem_holders_of_granted {e e' : LockEntry} {t u : TxnId} {lt : LockType}
    {granted : List TxnId} {answer : Bool}
    (h : Acquires e t lt e' granted answer) (hu : u ∈ granted) :
    u ∈ e'.holders := by
  cases h with
  | covered held mode => simp at hu
  | upgraded held alone mode =>
      rw [List.mem_singleton.mp hu]
      exact held
  | first free => simp [List.mem_singleton.mp hu]
  | joined fresh mode shared => simp [List.mem_singleton.mp hu]
  | queued busy blocked => simp at hu

end LockEntry

namespace LockManager

/-- A resource is recorded for a transaction exactly when the transaction is
among its holders. -/
def Mirrors (lm : LockManager) : Prop :=
  ∀ t r, r ∈ lm.recorded t ↔ t ∈ (lm.entry r).holders

/-- The condition on a call: `release_all` does not grant to the caller, and a
transfer from a transaction to itself has nothing to transfer. -/
def KeepsIndex (lm : LockManager) : LockCall → Prop
  | .acquire _ _ _ => True
  | .release _ _ => True
  | .releaseAll t _ => ∀ r ∈ lm.recorded t, ¬ (lm.entry r).RegrantsTo t
  | .transferLocks source target _ =>
      source = target → lm.recorded source = ∅
  | .upgrade _ _ => True

private theorem mirrors_new : new.Mirrors := by
  intro t r
  simp [LockEntry.new]

section Calls

variable {lm lm' : LockManager}

theorem Mirrors.indexed (h : lm.Mirrors) (t : TxnId) : lm.Indexed t :=
  fun r => (h t r).mpr

theorem Mirrors.acquires (h : lm.Mirrors) {t : TxnId} {r : Resource}
    {lt : LockType} {e : LockEntry} {granted : List TxnId} {answer : Bool}
    (hacq : Acquires (lm.entry r) t lt e granted answer)
    (hrw : lm.Rewrites lm' r e granted) : lm'.Mirrors := by
  intro u r'
  constructor
  · rw [hrw.recorded, hrw.entry]
    split
    · next hu =>
      intro hmem
      rcases Finset.mem_insert.mp hmem with rfl | hmem
      · rw [if_pos rfl]
        exact LockEntry.mem_holders_of_granted hacq hu
      · split
        · exact LockEntry.mem_holders_of_granted hacq hu
        · exact (h u r').mp hmem
    · intro hmem
      have held := (h u r').mp hmem
      split
      · next heq =>
        subst heq
        exact ((hacq.keeps u) .shared ⟨held, by simp⟩).held
      · exact held
  · exact (h.indexed u).acquires hacq hrw r'

theorem Mirrors.upgrade (h : lm.Mirrors) (t : TxnId) (r : Resource) :
    (lm.upgrade t r).1.Mirrors := by
  rcases lm.upgrade_spec t r with ⟨e, granted, hacq, hrw, -, -⟩ | ⟨hsame, -⟩
  · exact h.acquires hacq hrw
  · rw [hsame]
    exact h

theorem Mirrors.drop (h : lm.Mirrors) {t : TxnId} {r : Resource}
    (index : LockManager) (hentry : ∀ r', index.entry r' = lm.entry r')
    (hrecorded : ∀ u, index.recorded u =
      if u = t then (lm.recorded t).erase r else lm.recorded u)
    (hrw : index.Rewrites lm' r ((index.entry r).drop t).1
      ((index.entry r).drop t).2) : lm'.Mirrors := by
  intro u r'
  have hindex : r' ∈ index.recorded u ↔
      ¬ (u = t ∧ r' = r) ∧ u ∈ (lm.entry r').holders := by
    rw [hrecorded, ← h u r']
    split
    · next heq =>
      subst heq
      simp
    · next hne => simp [hne]
  rw [hrw.recorded, hrw.entry]
  by_cases hr : r' = r
  · subst hr
    rw [if_pos rfl, LockEntry.mem_drop_holders, hentry]
    rw [hentry] at hrw
    split
    · next hgranted => simp [hgranted]
    · next hgranted => simp [hgranted, hindex]
  · rw [if_neg hr]
    split <;> simp [hr, hindex, hentry]

theorem Mirrors.release (hvalid : lm.Valid) (h : lm.Mirrors) (t : TxnId)
    (r : Resource) : (lm.release t r).Mirrors := by
  unfold LockManager.release
  cases lm.locks.get? r with
  | none => exact h
  | some e =>
      have hdrop (index : Dict TxnId (Finset Resource))
          (hrecorded : ∀ u, recorded { lm with txnLocks := index } u =
            if u = t then (lm.recorded t).erase r else lm.recorded u) :
          (dropHolder { lm with txnLocks := index } t r).1.Mirrors := by
        have hkeyed : Keyed { lm with txnLocks := index } := hvalid.keyed
        exact h.drop { lm with txnLocks := index } (fun _ => rfl) hrecorded
          (dropHolder_spec hkeyed t r).1
      cases hindex : lm.txnLocks.get? t with
      | none =>
          apply hdrop lm.txnLocks
          intro u
          split
          · next heq => simp [heq, recorded, hindex]
          · rfl
      | some rs =>
          apply hdrop
          intro u
          simp only [recorded, Dict.get?_set, hindex]
          split <;> simp

theorem mirrors_releaseAll (hvalid : lm.Valid) (h : lm.Mirrors) {t : TxnId}
    {order : List Resource} (horder : lm.Iterates t order) :
    ((lm.releaseAll t order).1.Mirrors ↔
        ∀ r ∈ lm.recorded t, ¬ (lm.entry r).RegrantsTo t) ∧
      ((∀ r, t ∉ ((lm.releaseAll t order).1.entry r).holders) ↔
        ∀ r ∈ lm.recorded t, ¬ (lm.entry r).RegrantsTo t) := by
  have hown (r : Resource) :
      t ∉ ((lm.releaseAll t order).1.entry r).holders ↔
        (r ∈ lm.recorded t → ¬ (lm.entry r).RegrantsTo t) := by
    rw [releaseAll_entry hvalid.keyed t horder.1, ← horder.2,
      List.mem_toFinset]
    by_cases hr : r ∈ order
    · rw [if_pos hr, LockEntry.mem_drop_holders,
        LockEntry.mem_drop_granted_self]
      simp [hr]
    · rw [if_neg hr, ← h t r, ← horder.2, List.mem_toFinset]
      simp [hr]
  have hothers (u : TxnId) (hu : u ≠ t) (r : Resource) :
      r ∈ (lm.releaseAll t order).1.recorded u ↔
        u ∈ ((lm.releaseAll t order).1.entry r).holders := by
    rw [mem_releaseAll_recorded hvalid.keyed t horder.1 hu,
      releaseAll_entry hvalid.keyed t horder.1, h u r]
    split
    · next hr => simp [LockEntry.mem_drop_holders, hu, hr]
    · next hr => simp [hr]
  have hdropped (r : Resource) :
      r ∉ (lm.releaseAll t order).1.recorded t := by
    simp [releaseAll, recorded_forgetTxn]
  constructor
  · constructor
    · exact fun h' r => (hown r).mp fun held => hdropped r ((h' t r).mpr held)
    · intro hnone u r
      by_cases hu : u = t
      · subst hu
        exact iff_of_false (hdropped r) ((hown r).mpr (hnone r))
      · exact hothers u hu r
  · exact forall_congr' hown

private theorem mirrors_transferLocks (h : lm.Mirrors) {source target : TxnId}
    {order : List Resource} (horder : lm.Iterates source order) :
    (lm.transferLocks source target order).Mirrors ↔
      (source = target → lm.recorded source = ∅) := by
  have hmem (r : Resource) : r ∈ order ↔ source ∈ (lm.entry r).holders := by
    rw [← h source r, ← horder.2, List.mem_toFinset]
  have hentry (r : Resource) (u : TxnId) :
      u ∈ ((lm.transferLocks source target order).entry r).holders ↔
        (u ≠ source ∧ u ∈ (lm.entry r).holders) ∨
          (u = target ∧ source ∈ (lm.entry r).holders) := by
    rw [transferLocks_entry _ _ _ horder.1]
    by_cases hr : r ∈ order
    · have held := (hmem r).mp hr
      rw [if_pos hr, LockEntry.handOver, if_pos held]
      simp only [Finset.mem_insert, Finset.mem_erase, held, and_true]
      exact or_comm
    · have hfree : source ∉ (lm.entry r).holders := fun held =>
        hr ((hmem r).mpr held)
      simp only [if_neg hr, hfree, and_false, or_false,
        iff_and_self]
      rintro hu rfl
      exact hfree hu
  have hothers (u : TxnId) (hu : u ≠ source) (r : Resource) :
      r ∈ (lm.transferLocks source target order).recorded u ↔
        u ∈ ((lm.transferLocks source target order).entry r).holders := by
    rw [mem_transferLocks_recorded _ _ _ horder.1 hu, hentry, h u r, hmem]
    simp [hu]
  have hdropped (r : Resource) :
      r ∉ (lm.transferLocks source target order).recorded source := by
    simp [transferLocks, recorded_forgetTxn]
  constructor
  · rintro h' rfl
    apply Finset.eq_empty_of_forall_notMem
    intro r hr
    apply hdropped r
    rw [h' source r, hentry]
    exact .inr ⟨rfl, (h source r).mp hr⟩
  · intro hself u r
    by_cases hu : u = source
    · subst hu
      refine iff_of_false (hdropped r) fun held => ?_
      rcases (hentry r u).mp held with ⟨hne, -⟩ | ⟨heq, held⟩
      · exact hne rfl
      · have hr := (h u r).mpr held
        rw [hself heq] at hr
        exact Finset.notMem_empty r hr
    · exact hothers u hu r

private theorem mirrors_step (hvalid : lm.Valid) (h : lm.Mirrors) {call : LockCall}
    (hstep : lm.step call = some lm') : lm'.Mirrors ↔ lm.KeepsIndex call := by
  cases call with
  | acquire t r lt =>
      obtain ⟨e, granted, hacq, hrw⟩ := lm.acquire_spec t r lt
      obtain rfl := Option.some.inj hstep
      exact iff_of_true (h.acquires hacq hrw) trivial
  | release t r =>
      obtain rfl := Option.some.inj hstep
      exact iff_of_true (h.release hvalid t r) trivial
  | releaseAll t order =>
      obtain ⟨horder, heq⟩ := Option.ite_none_right_eq_some.mp hstep
      obtain rfl := Option.some.inj heq
      exact (mirrors_releaseAll hvalid h horder).1
  | transferLocks source target order =>
      obtain ⟨horder, heq⟩ := Option.ite_none_right_eq_some.mp hstep
      obtain rfl := Option.some.inj heq
      exact mirrors_transferLocks h horder
  | upgrade t r =>
      obtain rfl := Option.some.inj hstep
      exact iff_of_true (h.upgrade t r) trivial

end Calls

theorem run_mirrors_iff {lm : LockManager} {calls : List LockCall}
    (hrun : run step new calls = some lm) :
    Always step Mirrors new calls ↔ Along step KeepsIndex new calls :=
  always_iff_along (fun _ _ _ h hs => Valid.step h hs)
    (fun _ _ _ hvalid h hs => mirrors_step hvalid h hs)
    valid_new mirrors_new hrun

/--
In a run of lock manager calls the index mirrors the holders in every state
exactly when no `release_all` finds its caller as the last holder of a resource
and at the front of its queue, and no transfer goes from a transaction with
locks to itself.  At the end of such a run, `release_all` leaves its caller
without any lock exactly under the same condition.
-/
theorem run_lockIndex {lm : LockManager} {calls : List LockCall}
    (hrun : run step new calls = some lm) :
    (Always step Mirrors new calls ↔ Along step KeepsIndex new calls) ∧
      (Along step KeepsIndex new calls → ∀ t order lm',
        lm.step (.releaseAll t order) = some lm' →
          ((∀ r, t ∉ (lm'.entry r).holders) ↔
            lm.KeepsIndex (.releaseAll t order))) := by
  refine ⟨run_mirrors_iff hrun, fun halong t order lm' hstep => ?_⟩
  have hvalid : lm.Valid :=
    run_preserves (fun _ _ _ h hs => Valid.step h hs) valid_new hrun
  have hmirrors : lm.Mirrors :=
    ((run_mirrors_iff hrun).mpr halong).last hrun
  obtain ⟨horder, heq⟩ := Option.ite_none_right_eq_some.mp hstep
  obtain rfl := Option.some.inj heq
  exact (mirrors_releaseAll hvalid hmirrors horder).2

/-- A child with a lock hands it to its parent, which releases everything while
another transaction waits. -/
def inheritCalls : List LockCall :=
  [.acquire "child" "x" .exclusive, .acquire "b" "x" .shared,
    .transferLocks "child" "parent" ["x"], .releaseAll "parent" ["x"]]

theorem inheritCalls_lockIndex :
    ∃ lm, run step new inheritCalls = some lm ∧
      (Always step Mirrors new inheritCalls ↔
        Along step KeepsIndex new inheritCalls) ∧
      (Along step KeepsIndex new inheritCalls → ∀ t order lm',
        lm.step (.releaseAll t order) = some lm' →
          ((∀ r, t ∉ (lm'.entry r).holders) ↔
            lm.KeepsIndex (.releaseAll t order))) := by
  have hruns : (run step new inheritCalls).isSome = true := by
    decide +kernel
  obtain ⟨lm, hrun⟩ := Option.isSome_iff_exists.mp hruns
  exact ⟨lm, hrun, run_lockIndex hrun⟩

/-- A reader still waits for the exclusive lock when it is the last holder and
releases everything. -/
def regrantCalls : List LockCall :=
  [.acquire "a" "x" .shared, .acquire "b" "x" .shared,
    .acquire "b" "x" .exclusive, .release "a" "x", .releaseAll "b" ["x"]]

/-- The caller of `release_all` holds the lock afterwards, exclusively, and
nothing is recorded for it. -/
theorem regrantCalls_index :
    ∃ lm, run step new regrantCalls = some lm ∧
      (lm.entry "x").holders = {"b"} ∧
      (lm.entry "x").lockType = some .exclusive ∧ lm.recorded "b" = ∅ ∧
      ¬ lm.Mirrors := by
  have hview : (run step new regrantCalls).map (fun lm =>
      decide ((lm.entry "x").holders = {"b"} ∧
        (lm.entry "x").lockType = some .exclusive ∧
        lm.recorded "b" = ∅)) = some true := by
    decide +kernel
  obtain ⟨lm, hrun, hlm⟩ := Option.map_eq_some_iff.mp hview
  obtain ⟨hholders, hmode, hrecorded⟩ := of_decide_eq_true hlm
  refine ⟨lm, hrun, hholders, hmode, hrecorded, fun hmirrors => ?_⟩
  have held : "b" ∈ (lm.entry "x").holders := by simp [hholders]
  have hmem := (hmirrors "b" "x").mpr held
  rw [hrecorded] at hmem
  exact Finset.notMem_empty "x" hmem

end LockManager

end DistributedMemory.Storage
