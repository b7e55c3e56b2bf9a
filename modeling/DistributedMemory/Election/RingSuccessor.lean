import DistributedMemory.Library.Cycle
import DistributedMemory.Network.Clock

/-!
# The successor that takes a message

`_send_to_successor` tries the nodes after its own one by one until `send` returns
`True`.  Which nodes take the message is a predicate here.
-/

namespace DistributedMemory.Election

open DistributedMemory.Library
open DistributedMemory.Network (NodeId)

section Successor

variable (order : List NodeId) (accepts : NodeId → Prop)
  [DecidablePred accepts]

/-- The loop of `_send_to_successor`: the node that takes the message.  Every
round adds a node to `tried`, so the length of the ring is fuel enough. -/
def trySuccessors (self : NodeId) : Nat → List NodeId → NodeId → Option NodeId
  | 0, _, _ => none
  | fuel + 1, tried, current =>
      if current = self then none
      else if current ∈ tried then none
      else if accepts current then some current
      else
        match Cycle.successor order current with
        | none => none
        | some next => trySuccessors self fuel (current :: tried) next

def successorOf (self : NodeId) : Option NodeId :=
  match Cycle.successor order self with
  | none => none
  | some current =>
      trySuccessors order accepts self order.length [] current

variable {order}

private theorem trySuccessors_spec (hnodup : order.Nodup) {self : NodeId}
    (hself : self ∈ order) (fuel k : Nat) (tried : List NodeId) (hk : 0 < k)
    (hround : k ≤ order.length) (hfuel : order.length ≤ fuel + k)
    (htried : ∀ x ∈ tried, ∃ i, 0 < i ∧ i < k ∧ x = Cycle.place order self i) :
    (∃ j, k ≤ j ∧ j < order.length ∧ accepts (Cycle.place order self j) ∧
      (∀ i, k ≤ i → i < j → ¬ accepts (Cycle.place order self i)) ∧
      trySuccessors order accepts self fuel tried (Cycle.place order self k) =
        some (Cycle.place order self j)) ∨
    ((∀ i, k ≤ i → i < order.length → ¬ accepts (Cycle.place order self i)) ∧
      trySuccessors order accepts self fuel tried (Cycle.place order self k) =
        none) := by
  induction fuel generalizing k tried with
  | zero =>
      right
      exact ⟨fun i hki hi => by omega, rfl⟩
  | succ fuel ih =>
      rw [trySuccessors]
      rcases Nat.lt_or_ge k order.length with hlt | hge
      · have hne : Cycle.place order self k ≠ self := by
          have h := Cycle.place_ne hnodup hself (i := 0) (j := k) hk (by omega)
          rw [Cycle.place_zero hself] at h
          exact h.symm
        have hfresh : Cycle.place order self k ∉ tried := by
          intro hmem
          obtain ⟨i, hi, hik, heq⟩ := htried _ hmem
          exact Cycle.place_ne hnodup hself hik (by omega) heq.symm
        rw [if_neg hne, if_neg hfresh]
        by_cases haccepts : accepts (Cycle.place order self k)
        · rw [if_pos haccepts]
          left
          exact ⟨k, Nat.le_refl k, hlt, haccepts, fun i hki hik => by omega, rfl⟩
        · have hskip : ∀ i, k ≤ i →
              (k + 1 ≤ i → ¬ accepts (Cycle.place order self i)) →
              ¬ accepts (Cycle.place order self i) := by
            intro i hki hrest
            rcases Nat.eq_or_lt_of_le hki with rfl | hki
            · exact haccepts
            · exact hrest hki
          have htried' : ∀ x ∈ Cycle.place order self k :: tried,
              ∃ i, 0 < i ∧ i < k + 1 ∧ x = Cycle.place order self i := by
            intro x hx
            rcases List.mem_cons.mp hx with rfl | hx
            · exact ⟨k, hk, Nat.lt_succ_self k, rfl⟩
            · obtain ⟨i, hi, hik, heq⟩ := htried x hx
              exact ⟨i, hi, Nat.lt_succ_of_lt hik, heq⟩
          rw [if_neg haccepts, Cycle.successor_place hnodup hself k]
          rcases ih (k + 1) _ (Nat.succ_pos k) hlt (by omega) htried' with
            ⟨j, hkj, hj, hjaccepts, hbefore, hresult⟩ | ⟨hnone, hresult⟩
          · left
            exact ⟨j, Nat.le_of_succ_le hkj, hj, hjaccepts,
              fun i hki hij => hskip i hki fun hki' => hbefore i hki' hij,
              hresult⟩
          · right
            exact ⟨fun i hki hi => hskip i hki fun hki' => hnone i hki' hi,
              hresult⟩
      · -- The whole round is done, and the walk is back where it began.
        have hlast : Cycle.place order self k = self := by
          obtain rfl : k = order.length := Nat.le_antisymm hround hge
          have h := Cycle.place_add_length order self 0
          rw [Nat.zero_add, Cycle.place_zero hself] at h
          exact h
        rw [if_pos hlast]
        right
        exact ⟨fun i hki hi => by omega, rfl⟩

theorem successorOf_cases (hnodup : order.Nodup) {self : NodeId}
    (hself : self ∈ order) :
    (∃ m ∈ order, m ≠ self ∧ accepts m ∧
      (∀ x ∈ order, x ≠ self → accepts x →
        Cycle.position order self m ≤ Cycle.position order self x) ∧
      successorOf order accepts self = some m) ∨
    ((∀ x ∈ order, x ≠ self → ¬ accepts x) ∧
      successorOf order accepts self = none) := by
  have hlength := List.length_pos_of_mem hself
  have hfirst : Cycle.successor order self =
      some (Cycle.place order self 1) := by
    have h := Cycle.successor_place hnodup hself 0
    rw [Cycle.place_zero hself] at h
    exact h
  rw [successorOf, hfirst]
  rcases trySuccessors_spec accepts hnodup hself order.length 1 []
    Nat.one_pos hlength (by omega) (by simp) with
    ⟨j, hj, hjlt, haccepts, hbefore, hresult⟩ | ⟨hnone, hresult⟩
  · left
    refine ⟨Cycle.place order self j, Cycle.place_mem hself j, ?_, haccepts,
      fun x hx hne hx' => ?_, hresult⟩
    · have h := Cycle.place_ne hnodup hself (i := 0) (j := j) hj (by omega)
      rw [Cycle.place_zero hself] at h
      exact h.symm
    · rw [Cycle.position_place hnodup hself hjlt]
      by_contra hshort
      refine hbefore _ (Cycle.position_pos hself hx hne) (by omega) ?_
      rw [Cycle.place_position hself hx]
      exact hx'
  · right
    refine ⟨fun x hx hne hx' => ?_, hresult⟩
    refine hnone _ (Cycle.position_pos hself hx hne) (Cycle.position_lt hself x) ?_
    rw [Cycle.place_position hself hx]
    exact hx'

end Successor

end DistributedMemory.Election
