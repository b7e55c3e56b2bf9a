import DistributedMemory.Library.Dict

/-!
# Logical clocks

`LamportClock` is one counter.  `VectorClock` has an entry for every node of the
system, in the order in which the nodes were listed; a vector is what a message
carries.
-/

namespace DistributedMemory.Network

open DistributedMemory.Library

abbrev NodeId := Nat

structure LamportClock where
  time : Nat
  deriving DecidableEq

namespace LamportClock

def new : LamportClock := ⟨0⟩

def increment (c : LamportClock) : LamportClock := ⟨c.time + 1⟩

def update (c : LamportClock) (receivedTime : Nat) : LamportClock :=
  ⟨max c.time receivedTime + 1⟩

@[simp] theorem increment_time (c : LamportClock) :
    c.increment.time = c.time + 1 := rfl

@[simp] theorem update_time (c : LamportClock) (receivedTime : Nat) :
    (c.update receivedTime).time = max c.time receivedTime + 1 := rfl

theorem le_update (c : LamportClock) (receivedTime : Nat) :
    c.time ≤ (c.update receivedTime).time := by
  simp only [update_time]
  omega

end LamportClock

abbrev Vector := Dict NodeId Nat

namespace Vector

/-- `vector.get(nid, 0)` -/
def entry (v : Vector) (nid : NodeId) : Nat := (v.get? nid).getD 0

/-- No entry of `v` is above that of `w`. -/
def LE (v w : Vector) : Prop := ∀ nid, v.entry nid ≤ w.entry nid

private theorem entry_cons (item : NodeId × Nat) {rest : List (NodeId × Nat)}
    (hnodup : ((item :: rest).map Prod.fst).Nodup)
    (hrest : (rest.map Prod.fst).Nodup) (nid : NodeId) :
    entry ⟨item :: rest, hnodup⟩ nid =
      if item.1 = nid then item.2 else entry ⟨rest, hrest⟩ nid := by
  by_cases h : item.1 = nid <;> simp [entry, Dict.get?, h]

end Vector

structure VectorClock where
  nodeId : NodeId
  clock : Vector

namespace VectorClock

def new (nodeId : NodeId) (nodeIds : List NodeId) : VectorClock :=
  ⟨nodeId, nodeIds.foldl (fun clock nid => clock.set nid 0) .empty⟩

/-- A node without an entry of its own raises `KeyError`. -/
def increment (c : VectorClock) : Option VectorClock :=
  (c.clock.get? c.nodeId).map fun ts =>
    { c with clock := c.clock.set c.nodeId (ts + 1) }

def mergeEntry (clock : Vector) (item : NodeId × Nat) : Vector :=
  match clock.get? item.1 with
  | some ts => clock.set item.1 (max ts item.2)
  | none => clock

def merge (c : VectorClock) (received : Vector) : VectorClock :=
  { c with clock := received.items.foldl mergeEntry c.clock }

/-- A node without an entry of its own raises `KeyError`. -/
def update (c : VectorClock) (received : Vector) : Option VectorClock :=
  (c.merge received).increment

/-- The loop of `happens_before` over the keys that are left. -/
def happensBeforeLoop (v₁ v₂ : Vector) : List NodeId → Bool → Bool
  | [], atLeastOneLess => atLeastOneLess
  | k :: rest, atLeastOneLess =>
      if v₁.entry k > v₂.entry k then false
      else
        happensBeforeLoop v₁ v₂ rest
          (atLeastOneLess || decide (v₁.entry k < v₂.entry k))

def happensBefore (v₁ v₂ : Vector) : Bool :=
  happensBeforeLoop v₁ v₂ (v₁.keys ∪ v₂.keys) false

/-! ## What the operations do to the entries -/

private theorem happensBeforeLoop_iff (v₁ v₂ : Vector) (ks : List NodeId)
    (less : Bool) :
    happensBeforeLoop v₁ v₂ ks less = true ↔
      (∀ k ∈ ks, v₁.entry k ≤ v₂.entry k) ∧
        (less = true ∨ ∃ k ∈ ks, v₁.entry k < v₂.entry k) := by
  induction ks generalizing less with
  | nil => simp [happensBeforeLoop]
  | cons k rest ih =>
      rw [happensBeforeLoop]
      by_cases hgt : v₁.entry k > v₂.entry k
      · rw [if_pos hgt]
        simp [Nat.not_le.mpr hgt]
      · rw [if_neg hgt, ih]
        simp [Nat.not_lt.mp hgt, or_assoc]

theorem happensBefore_iff (v₁ v₂ : Vector) :
    happensBefore v₁ v₂ = true ↔
      v₁.LE v₂ ∧ ∃ k, v₁.entry k < v₂.entry k := by
  have hkeys : ∀ k, k ∉ v₁.keys ∪ v₂.keys →
      v₁.entry k = 0 ∧ v₂.entry k = 0 := by
    intro k hk
    rw [List.mem_union_iff, not_or] at hk
    simp [Vector.entry, Dict.get?_eq_none_iff.mpr hk.1,
      Dict.get?_eq_none_iff.mpr hk.2]
  rw [happensBefore, happensBeforeLoop_iff]
  constructor
  · rintro ⟨hle, hless | ⟨k, -, hk⟩⟩
    · cases hless
    · refine ⟨fun nid => ?_, k, hk⟩
      by_cases hnid : nid ∈ v₁.keys ∪ v₂.keys
      · exact hle nid hnid
      · rw [(hkeys nid hnid).1]
        exact Nat.zero_le _
  · rintro ⟨hle, k, hk⟩
    refine ⟨fun nid _ => hle nid, .inr ⟨k, ?_, hk⟩⟩
    by_contra hout
    rw [(hkeys k hout).2] at hk
    exact Nat.not_lt_zero _ hk

theorem happensBefore_trans {v₁ v₂ v₃ : Vector}
    (h₁₂ : happensBefore v₁ v₂ = true) (h₂₃ : happensBefore v₂ v₃ = true) :
    happensBefore v₁ v₃ = true := by
  rw [happensBefore_iff] at h₁₂ h₂₃ ⊢
  obtain ⟨k, hk⟩ := h₁₂.2
  exact ⟨fun nid => Nat.le_trans (h₁₂.1 nid) (h₂₃.1 nid), k,
    Nat.lt_of_lt_of_le hk (h₂₃.1 k)⟩

theorem get?_new (nodeId : NodeId) (nodeIds : List NodeId) (nid : NodeId) :
    (new nodeId nodeIds).clock.get? nid =
      if nid ∈ nodeIds then some 0 else none := by
  have hfold : ∀ (ids : List NodeId) (clock : Vector),
      (ids.foldl (fun clock nid => clock.set nid 0) clock).get? nid =
        if nid ∈ ids then some 0 else clock.get? nid := by
    intro ids
    induction ids with
    | nil => simp
    | cons id rest ih =>
        intro clock
        rw [List.foldl_cons, ih, Dict.get?_set]
        by_cases hrest : nid ∈ rest <;> by_cases hid : nid = id <;>
          simp [hrest, hid]
  exact hfold nodeIds .empty

private theorem get?_mergeEntry (clock : Vector) (item : NodeId × Nat) (nid : NodeId) :
    (mergeEntry clock item).get? nid = (clock.get? nid).map fun ts =>
      if item.1 = nid then max ts item.2 else ts := by
  unfold mergeEntry
  split
  · next ts hts =>
    rw [Dict.get?_set]
    by_cases h : item.1 = nid
    · rw [if_pos h.symm, ← h, hts]
      simp
    · rw [if_neg (Ne.symm h)]
      simp [h]
  · next hnone =>
    by_cases h : item.1 = nid
    · rw [← h, hnone]
      rfl
    · simp [h]

theorem get?_merge (c : VectorClock) (received : Vector) (nid : NodeId) :
    (c.merge received).clock.get? nid =
      (c.clock.get? nid).map fun ts => max ts (received.entry nid) := by
  obtain ⟨items, hnodup⟩ := received
  simp only [merge]
  generalize c.clock = clock
  induction items generalizing clock with
  | nil =>
      have hzero : Vector.entry ⟨[], hnodup⟩ nid = 0 := rfl
      simp [hzero]
  | cons item rest ih =>
      obtain ⟨hfresh, hrest⟩ := List.nodup_cons.mp hnodup
      rw [List.foldl_cons, ih hrest, get?_mergeEntry, Option.map_map]
      refine congrArg (fun f => (clock.get? nid).map f) (funext fun ts => ?_)
      rw [Vector.entry_cons item hnodup hrest]
      by_cases h : item.1 = nid
      · have hzero : Vector.entry ⟨rest, hrest⟩ nid = 0 := by
          rw [Vector.entry, Dict.get?_eq_none_iff.mpr (h ▸ hfresh)]
          rfl
        simp [h, hzero]
      · simp [h]

theorem isSome_get?_merge (c : VectorClock) (received : Vector) (nid : NodeId) :
    ((c.merge received).clock.get? nid).isSome = (c.clock.get? nid).isSome := by
  rw [get?_merge, Option.isSome_map]

theorem entry_le_entry_merge (c : VectorClock) (received : Vector) (nid : NodeId) :
    c.clock.entry nid ≤ (c.merge received).clock.entry nid := by
  rw [Vector.entry, Vector.entry, get?_merge]
  cases c.clock.get? nid with
  | none => exact Nat.le_refl _
  | some ts => exact Nat.le_max_left ts _

theorem le_entry_merge {c : VectorClock} {nid : NodeId}
    (h : (c.clock.get? nid).isSome) (received : Vector) :
    received.entry nid ≤ (c.merge received).clock.entry nid := by
  obtain ⟨ts, hts⟩ := Option.isSome_iff_exists.mp h
  conv_rhs => rw [Vector.entry, get?_merge, hts]
  exact Nat.le_max_right ts _

/-- The clock of node `nid` over `nodeIds`. -/
structure Over (nodeIds : List NodeId) (nid : NodeId) (c : VectorClock) :
    Prop where
  owner : c.nodeId = nid
  entries : ∀ k, (c.clock.get? k).isSome ↔ k ∈ nodeIds

theorem over_new (nodeIds : List NodeId) (nid : NodeId) :
    (new nid nodeIds).Over nodeIds nid := by
  refine ⟨rfl, fun k => ?_⟩
  rw [get?_new]
  split <;> simp [*]

theorem entry_new (nodeIds : List NodeId) (nid k : NodeId) :
    (new nid nodeIds).clock.entry k = 0 := by
  rw [Vector.entry, get?_new]
  split <;> rfl

section Over

variable {nodeIds : List NodeId} {nid : NodeId} {c : VectorClock}

theorem Over.increment (h : c.Over nodeIds nid) {c' : VectorClock}
    (hc : c.increment = some c') :
    nid ∈ nodeIds ∧ c'.Over nodeIds nid ∧ ∀ k, c'.clock.entry k =
      if k = nid then c.clock.entry k + 1 else c.clock.entry k := by
  obtain ⟨ts, hts, rfl⟩ := Option.map_eq_some_iff.mp hc
  rw [h.owner] at hts
  refine ⟨(h.entries nid).mp (by simp [hts]), ⟨h.owner, fun k => ?_⟩,
    fun k => ?_⟩
  · rw [Dict.get?_set, ← h.entries k, h.owner]
    split
    · next heq => simp [heq, hts]
    · rfl
  · rw [Vector.entry, Dict.get?_set, h.owner]
    split
    · next heq => simp [Vector.entry, heq, hts]
    · rfl

theorem Over.merge (h : c.Over nodeIds nid) (received : Vector) :
    (c.merge received).Over nodeIds nid := by
  refine ⟨h.owner, fun k => ?_⟩
  rw [get?_merge, Option.isSome_map, h.entries k]

theorem Over.entry_merge (h : c.Over nodeIds nid) {received : Vector}
    (hreceived : ∀ k, (received.get? k).isSome → k ∈ nodeIds) (k : NodeId) :
    (c.merge received).clock.entry k =
      max (c.clock.entry k) (received.entry k) := by
  rw [Vector.entry, get?_merge]
  cases hk : c.clock.get? k with
  | some ts => simp [Vector.entry, hk]
  | none =>
      have hnone : received.get? k = none := by
        rw [← Option.not_isSome_iff_eq_none]
        intro hsome
        have := (h.entries k).mpr (hreceived k hsome)
        simp [hk] at this
      simp [Vector.entry, hk, hnone]

end Over

end VectorClock

end DistributedMemory.Network
