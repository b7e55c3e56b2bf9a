import DistributedMemory.Network.CausalCompleteness

/-!
# What is delivered, exactly

Messages may be broadcast or sent to one node, arrive repeatedly or never.  Whenever
its lock is free, a node has delivered a message of another node exactly when the
message has arrived there together with its causal past.  A message in the past that
was sent to somebody else is missing for ever, and with it all that follows.
-/

namespace DistributedMemory.Network

open DistributedMemory.Library

universe u

variable {α : Type u}

namespace CausalSystem

variable {nodeIds peers : List NodeId} {actions : List (CausalAction α)}
  {s : CausalSystem α}

theorem mem_received_iff
    (hrun : run (step peers) (new nodeIds) actions = some s) {n : NodeId}
    {m : CausalMsg α} :
    m ∈ s.stock n ↔ m ∈ received s.network n (arrivals actions) := by
  have hstock := run_stock hrun n
  have hstart : (new nodeIds : CausalSystem α).stock n = [] := rfl
  rw [hstart, List.nil_append] at hstock
  exact hstock.mem_iff

private theorem accepted_past
    (hrun : run (step peers) (new nodeIds) actions = some s) {n q k : NodeId}
    {i j : Nat} {x y : Sent α} (hx : (s.sent q)[i]? = some x)
    (hy : (s.sent k)[j]? = some y) (hk : k ≠ n)
    (haccepted : x.msg ∈ (s.node n).accepted)
    (hchain : Relation.TransGen (Informs nodeIds peers actions s) (k, j) (q, i)) :
    y.msg ∈ (s.node n).accepted := by
  have hinv := run_inv hrun
  have hnode := (hinv.node n).inOrder
  have hbefore := happensBefore_of_informs hrun hy hx hchain
  rw [VectorClock.happensBefore_iff] at hbefore
  have hcount : j < (s.node n).vc.clock.entry k := by
    have hown := (hinv.stamps.numbered k j y hy).2
    have hle := hbefore.1 k
    have hbelow := hnode.below _ haccepted k
    omega
  exact hnode.mem_accepted hk hy hcount

/--
In every run that mixes broadcasts and unicasts, with packets that arrive in any
order, repeatedly or never: whenever the lock of a node is free, a message of another
node has been delivered there exactly when it has arrived together with every message
of other nodes that leads to it by a chain of sends and deliveries.
-/
theorem run_deliveredExactly (nodeIds peers : List NodeId)
    (actions : List (CausalAction α)) (s : CausalSystem α)
    (hrun : run (step peers) (new nodeIds) actions = some s) (n : NodeId)
    (hidle : (s.node n).handler = .idle) (q : NodeId) (hq : q ≠ n) (i : Nat)
    (x : Sent α) (hx : (s.sent q)[i]? = some x) :
    x.msg ∈ (s.node n).delivered ↔
      x.msg ∈ received s.network n (arrivals actions) ∧
        ∀ k j y, k ≠ n → (s.sent k)[j]? = some y →
          Relation.TransGen (Informs nodeIds peers actions s) (k, j) (q, i) →
          y.msg ∈ received s.network n (arrivals actions) := by
  have haccepted : (s.node n).accepted = (s.node n).delivered := by
    unfold CausalOrdering.accepted
    rw [hidle]
  have hstock {m : CausalMsg α} (hm : m ∈ (s.node n).accepted) :
      m ∈ received s.network n (arrivals actions) :=
    (mem_received_iff hrun).mp (List.mem_append_left _ hm)
  rw [← haccepted]
  constructor
  · intro hmem
    exact ⟨hstock hmem, fun k j y hk hy hchain =>
      hstock (accepted_past hrun hx hy hk hmem hchain)⟩
  · rintro ⟨harrived, hpast⟩
    refine accepted_of_past hrun hidle _ hq hx
      ((mem_received_iff hrun).mpr harrived) (fun k j y hk hy hchain => ?_)
      (Nat.lt_succ_self _)
    exact (mem_received_iff hrun).mpr (hpast k j y hk hy hchain)

/-- Node 3 gets a broadcast of node 1, but not the message that node 1 sent to node 2
before. -/
def unicastFirst : List (CausalAction String) :=
  [.send 1 2 "a", .broadcast 1 "b", .arrive 2]

theorem unicastFirst_deliveredExactly :
    ∃ s x, run (step [1, 2, 3]) (new [1, 2, 3]) unicastFirst = some s ∧
      (s.sent 1)[1]? = some x ∧
      x.msg ∈ received s.network 3 (arrivals unicastFirst) ∧
      x.msg ∉ (s.node 3).delivered ∧
      (x.msg ∈ (s.node 3).delivered ↔
        x.msg ∈ received s.network 3 (arrivals unicastFirst) ∧
          ∀ k j y, k ≠ 3 → (s.sent k)[j]? = some y →
            Relation.TransGen (Informs [1, 2, 3] [1, 2, 3] unicastFirst s) (k, j)
              (1, 1) →
            y.msg ∈ received s.network 3 (arrivals unicastFirst)) := by
  have hview : (run (step [1, 2, 3]) (new [1, 2, 3]) unicastFirst).any (fun s =>
      (s.node 3).handler.isIdle && (s.sent 1)[1]?.any fun x =>
        decide (x.msg ∈ received s.network 3 (arrivals unicastFirst) ∧
          x.msg ∉ (s.node 3).delivered)) = true := by
    decide +kernel
  obtain ⟨s, hs, hall⟩ := (Option.any_eq_true _ _).mp hview
  simp only [Bool.and_eq_true, Option.any_eq_true, decide_eq_true_eq] at hall
  obtain ⟨hidle, x, hx, hreceived, hnot⟩ := hall
  exact ⟨s, x, hs, hx, hreceived, hnot,
    run_deliveredExactly [1, 2, 3] [1, 2, 3] unicastFirst s hs 3
      (Handler.eq_idle hidle) 1 (by decide) 1 x hx⟩

end CausalSystem

end DistributedMemory.Network
