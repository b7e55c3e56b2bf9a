import DistributedMemory.Storage.TransactionStep

/-!
# Who keeps which lock

`Holds` is what a transaction relies on after a granted request.  Every method
of the lock manager keeps the table valid and keeps what the transactions other
than the one it is about hold; the two methods that end a transaction take away
only its own locks.
-/

namespace DistributedMemory.Storage

open DistributedMemory.Library

/-- `t` holds the resource in a mode that covers `lt`. -/
structure LockEntry.Covers (e : LockEntry) (t : TxnId) (lt : LockType) :
    Prop where
  held : t ∈ e.holders
  mode : lt = .exclusive → e.lockType = some .exclusive

/-- What `t` holds in `e` it holds in `e'`. -/
def LockEntry.Keeps (e e' : LockEntry) (t : TxnId) : Prop :=
  ∀ lt, e.Covers t lt → e'.Covers t lt

theorem LockEntry.keeps_of {e e' : LockEntry} {t : TxnId}
    (hheld : t ∈ e.holders → t ∈ e'.holders)
    (hmode : t ∈ e.holders → e.lockType = some .exclusive →
      e'.lockType = some .exclusive) : e.Keeps e' t :=
  fun _ h => ⟨hheld h.held, fun hx => hmode h.held (h.mode hx)⟩

theorem Acquires.keeps {e e' : LockEntry} {t : TxnId} {lt : LockType}
    {granted : List TxnId} {answer : Bool}
    (h : Acquires e t lt e' granted answer) (u : TxnId) : e.Keeps e' u := by
  cases h with
  | covered held mode => exact fun _ => id
  | upgraded held alone mode => exact LockEntry.keeps_of id (by simp)
  | first free => exact LockEntry.keeps_of (by simp [free]) (by simp [free])
  | joined fresh mode shared =>
      exact LockEntry.keeps_of (by simp +contextual) (by simp)
  | queued busy blocked => exact LockEntry.keeps_of (by simp) (by simp)

theorem Acquires.covers {e e' : LockEntry} {t : TxnId} {lt : LockType}
    {granted : List TxnId} (h : Acquires e t lt e' granted true) :
    e'.Covers t lt := by
  cases h with
  | covered held mode =>
      refine ⟨held, fun hx => ?_⟩
      rcases mode with h | h
      · exact h
      · simp [hx] at h
  | upgraded held alone mode => exact ⟨held, fun _ => rfl⟩
  | first free => exact ⟨by simp, fun hx => by simp [hx]⟩
  | joined fresh mode shared => exact ⟨by simp, fun hx => by simp [hx] at shared⟩

theorem Acquires.holders {e e' : LockEntry} {t : TxnId} {lt : LockType}
    {granted : List TxnId} {answer : Bool}
    (h : Acquires e t lt e' granted answer) {u : TxnId}
    (hu : u ∈ e'.holders) : u ∈ e.holders ∨ u ∈ granted := by
  cases h with
  | covered held mode => exact .inl hu
  | upgraded held alone mode => exact .inl hu
  | first free =>
      rcases Finset.mem_insert.mp hu with rfl | hu
      · exact .inr (by simp)
      · exact .inl hu
  | joined fresh mode shared =>
      rcases Finset.mem_insert.mp hu with rfl | hu
      · exact .inr (by simp)
      · exact .inl hu
  | queued busy blocked => exact .inl (by simpa using hu)

private theorem LockEntry.drop_keeps (e : LockEntry) {t u : TxnId} (hne : u ≠ t) :
    e.Keeps (e.drop t).1 u := by
  refine LockEntry.keeps_of (fun hu => mem_drop_holders.mpr (.inl ⟨hne, hu⟩))
    fun hu hx => ?_
  have hbusy : e.holders.erase t ≠ ∅ :=
    Finset.ne_empty_of_mem (Finset.mem_erase.mpr ⟨hne, hu⟩)
  unfold LockEntry.drop
  dsimp only
  rw [if_neg hbusy]
  exact hx

private theorem LockEntry.handOver_keeps (e : LockEntry) {source target u : TxnId}
    (hne : u ≠ source) : e.Keeps (e.handOver source target) u := by
  unfold LockEntry.handOver
  split
  · exact LockEntry.keeps_of (fun hu => by simp [hne, hu]) (fun _ => id)
  · exact fun _ => id

private theorem LockEntry.handOver_covers {e : LockEntry} {source : TxnId}
    {lt : LockType} (h : e.Covers source lt) (target : TxnId) :
    (e.handOver source target).Covers target lt := by
  unfold LockEntry.handOver
  rw [if_pos h.held]
  exact ⟨by simp, h.mode⟩

namespace LockManager

structure Valid (lm : LockManager) : Prop where
  keyed : lm.Keyed
  sound : ∀ r, (lm.entry r).Sound

/-- `t` holds `r` in a mode that covers `lt`. -/
def Holds (lm : LockManager) (t : TxnId) (r : Resource) (lt : LockType) :
    Prop := (lm.entry r).Covers t lt

def Indexed (lm : LockManager) (t : TxnId) : Prop :=
  ∀ r, t ∈ (lm.entry r).holders → r ∈ lm.recorded t

theorem Holds.eq_of_exclusive {lm : LockManager} (hvalid : lm.Valid)
    {t u : TxnId} {r : Resource} {lt : LockType} (ht : lm.Holds t r .exclusive)
    (hu : lm.Holds u r lt) : u = t :=
  (hvalid.sound r).eq_of_exclusive (ht.mode rfl) hu.held ht.held

theorem valid_new : new.Valid := ⟨keyed_new, fun _ => LockEntry.sound_new _⟩

/-! ## Lock attempts -/

section Attempt

variable {lm lm' : LockManager} {t : TxnId} {r : Resource} {lt : LockType}
  {e : LockEntry} {granted : List TxnId} {answer : Bool}

theorem Valid.acquires (hvalid : lm.Valid)
    (hacq : Acquires (lm.entry r) t lt e granted answer)
    (hrw : lm.Rewrites lm' r e granted) : lm'.Valid := by
  have hres : e.resource = (lm.entry r).resource := by
    cases hacq <;> simp
  refine ⟨hrw.keyed hvalid.keyed (by rw [hres, hvalid.keyed r]), fun r' => ?_⟩
  rw [hrw.entry]
  split
  · exact (hvalid.sound r).acquires hacq
  · exact hvalid.sound r'

theorem Holds.acquires {u : TxnId} {r' : Resource} {lt' : LockType}
    (h : lm.Holds u r' lt')
    (hacq : Acquires (lm.entry r) t lt e granted answer)
    (hrw : lm.Rewrites lm' r e granted) : lm'.Holds u r' lt' := by
  unfold Holds at h ⊢
  rw [hrw.entry]
  split
  · next heq => exact hacq.keeps u lt' (heq ▸ h)
  · exact h

theorem Indexed.acquires {u : TxnId} (h : lm.Indexed u)
    (hacq : Acquires (lm.entry r) t lt e granted answer)
    (hrw : lm.Rewrites lm' r e granted) : lm'.Indexed u := by
  intro r' hu
  rw [hrw.recorded]
  rw [hrw.entry] at hu
  split at hu
  · next heq =>
    subst heq
    split
    · exact Finset.mem_insert_self _ _
    · next hgranted =>
      exact h r' ((hacq.holders hu).resolve_right hgranted)
  · split
    · exact Finset.mem_insert_of_mem (h r' hu)
    · exact h r' hu

theorem holds_of_acquires (hacq : Acquires (lm.entry r) t lt e granted true)
    (hrw : lm.Rewrites lm' r e granted) : lm'.Holds t r lt := by
  unfold Holds
  rw [hrw.here]
  exact hacq.covers

end Attempt

/-! ## The end of a transaction -/

section Ending

variable {lm : LockManager} {t u : TxnId} {order : List Resource}

theorem Valid.releaseAll (hvalid : lm.Valid) (hnodup : order.Nodup) :
    (lm.releaseAll t order).1.Valid := by
  refine ⟨fun r => ?_, fun r => ?_⟩
  · rw [releaseAll_entry hvalid.keyed t hnodup]
    split
    · rw [LockEntry.drop_resource, hvalid.keyed r]
    · exact hvalid.keyed r
  · rw [releaseAll_entry hvalid.keyed t hnodup]
    split
    · exact (hvalid.sound r).drop t
    · exact hvalid.sound r

theorem Holds.releaseAll (hvalid : lm.Valid) (hnodup : order.Nodup)
    (hne : u ≠ t) {r : Resource} {lt : LockType} (h : lm.Holds u r lt) :
    (lm.releaseAll t order).1.Holds u r lt := by
  unfold Holds
  rw [releaseAll_entry hvalid.keyed t hnodup]
  split
  · exact LockEntry.drop_keeps _ hne lt h
  · exact h

theorem Indexed.releaseAll (hvalid : lm.Valid) (hnodup : order.Nodup)
    (hne : u ≠ t) (h : lm.Indexed u) :
    (lm.releaseAll t order).1.Indexed u := by
  intro r hu
  rw [mem_releaseAll_recorded hvalid.keyed t hnodup hne]
  rw [releaseAll_entry hvalid.keyed t hnodup] at hu
  split at hu
  · next hmem =>
    rcases LockEntry.mem_drop_holders.mp hu with ⟨-, hu⟩ | hu
    · exact .inl (h r hu)
    · exact .inr ⟨hmem, hu⟩
  · exact .inl (h r hu)

variable {source target : TxnId}

theorem Valid.transferLocks (hvalid : lm.Valid) (hnodup : order.Nodup) :
    (lm.transferLocks source target order).Valid := by
  refine ⟨fun r => ?_, fun r => ?_⟩
  · rw [transferLocks_entry _ _ _ hnodup]
    split
    · unfold LockEntry.handOver
      split <;> exact hvalid.keyed r
    · exact hvalid.keyed r
  · rw [transferLocks_entry _ _ _ hnodup]
    split
    · exact (hvalid.sound r).handOver source target
    · exact hvalid.sound r

theorem Holds.transferLocks (hnodup : order.Nodup) (hne : u ≠ source)
    {r : Resource} {lt : LockType} (h : lm.Holds u r lt) :
    (lm.transferLocks source target order).Holds u r lt := by
  unfold Holds
  rw [transferLocks_entry _ _ _ hnodup]
  split
  · exact LockEntry.handOver_keeps _ hne lt h
  · exact h

theorem Holds.inherited (hnodup : order.Nodup) {r : Resource} {lt : LockType}
    (h : lm.Holds source r lt) (hr : r ∈ order) :
    (lm.transferLocks source target order).Holds target r lt := by
  unfold Holds
  rw [transferLocks_entry _ _ _ hnodup, if_pos hr]
  exact LockEntry.handOver_covers h target

theorem Indexed.transferLocks (hnodup : order.Nodup) (hne : u ≠ source)
    (h : lm.Indexed u) : (lm.transferLocks source target order).Indexed u := by
  intro r hu
  rw [mem_transferLocks_recorded _ _ _ hnodup hne]
  rw [transferLocks_entry _ _ _ hnodup] at hu
  split at hu
  · next hmem =>
    unfold LockEntry.handOver at hu
    split at hu
    · next hsource =>
      rcases Finset.mem_insert.mp hu with rfl | hu
      · exact .inr ⟨rfl, hmem, hsource⟩
      · exact .inl (h r (Finset.mem_of_mem_erase hu))
    · exact .inl (h r hu)
  · exact .inl (h r hu)

end Ending

end LockManager

end DistributedMemory.Storage
