import DistributedMemory.Network.HappensBefore
import Mathlib.Algebra.Order.BigOperators.Group.List
import Mathlib.Algebra.Order.Ring.Nat

/-!
# Nothing is left behind

When every message is broadcast and every packet arrives once, a node that has
received everything has delivered everything.  Two facts carry this.  Whenever
the lock is free, the flush loop has left nothing deliverable in the buffer: its
last pass found nothing, and what the node broadcasts itself raises only its own
entry.  And among the messages that a node has received but not delivered, one of
least weight would be deliverable, since all that its vector counts weighs less.
-/

namespace DistributedMemory.Network

open DistributedMemory.Library

universe u

variable {α : Type u}

/-! ## What a node has received -/

namespace CausalAction

def isBroadcastOnly : CausalAction α → Bool
  | .send _ _ _ => false
  | _ => true

def arrival : CausalAction α → Option Nat
  | .arrive packet => some packet
  | _ => none

end CausalAction

/-- The packets that have arrived, in this order. -/
def arrivals (actions : List (CausalAction α)) : List Nat :=
  actions.filterMap CausalAction.arrival

def packetFor (network : List (NodeId × CausalMsg α)) (n : NodeId)
    (packet : Nat) : Option (CausalMsg α) :=
  network[packet]?.bind fun entry =>
    if entry.1 = n then some entry.2 else none

/-- The messages that the packets have brought to node `n`. -/
def received (network : List (NodeId × CausalMsg α)) (n : NodeId)
    (packets : List Nat) : List (CausalMsg α) :=
  packets.filterMap (packetFor network n)

theorem packetFor_eq_some {network : List (NodeId × CausalMsg α)} {n : NodeId}
    {packet : Nat} {m : CausalMsg α} :
    packetFor network n packet = some m ↔ network[packet]? = some (n, m) := by
  unfold packetFor
  cases network[packet]? with
  | none => simp
  | some entry =>
      obtain ⟨target, m'⟩ := entry
      by_cases h : target = n <;> simp [h]

private theorem mem_received {network : List (NodeId × CausalMsg α)} {n : NodeId}
    {packets : List Nat} {m : CausalMsg α}
    (h : m ∈ received network n packets) : (n, m) ∈ network := by
  obtain ⟨packet, -, hpacket⟩ := List.mem_filterMap.mp h
  exact List.mem_of_getElem? (packetFor_eq_some.mp hpacket)

private theorem nodup_received {network : List (NodeId × CausalMsg α)}
    (hnetwork : network.Nodup) (n : NodeId) {packets : List Nat}
    (hpackets : packets.Nodup) : (received network n packets).Nodup := by
  refine hpackets.filterMap fun p p' m hm hm' => ?_
  have hp := packetFor_eq_some.mp hm
  have hp' := packetFor_eq_some.mp hm'
  obtain ⟨hlt, heq⟩ := List.getElem?_eq_some_iff.mp hp
  obtain ⟨hlt', heq'⟩ := List.getElem?_eq_some_iff.mp hp'
  exact hnetwork.getElem_inj_iff.mp (heq.trans heq'.symm)

def Handler.isIdle : Handler α → Bool
  | .idle => true
  | _ => false

theorem Handler.eq_idle {h : Handler α} (hidle : h.isIdle = true) :
    h = .idle := by
  cases h with
  | idle => rfl
  | merge m pass => cases hidle
  | callback m pass => cases hidle
  | flush pass => cases hidle

namespace CausalOrdering

/-- The messages received and not accepted yet.  During a pass the buffer is out
of date: the pass has its own two lists. -/
def pending (o : CausalOrdering α) : List (CausalMsg α) :=
  match o.handler with
  | .idle => o.buffer
  | .merge m none => m :: o.buffer
  | .merge m (some pass) => m :: (pass.work ++ pass.remaining)
  | .callback _ none => o.buffer
  | .callback _ (some pass) => pass.work ++ pass.remaining
  | .flush pass => pass.work ++ pass.remaining

private theorem perm_handleCausal {o : CausalOrdering α} (hidle : o.handler = .idle)
    (m : CausalMsg α) :
    ((o.handleCausal m).accepted ++ (o.handleCausal m).pending).Perm
      ((o.accepted ++ o.pending) ++ [m]) := by
  unfold handleCausal
  split
  · simp only [accepted, pending, hidle, List.append_assoc]
    exact (List.perm_append_singleton m o.buffer).symm.append_left _
  · simp [accepted, pending, hidle]

private theorem perm_advance {o o' : CausalOrdering α} (hstep : o.advance = some o') :
    (o'.accepted ++ o'.pending).Perm (o.accepted ++ o.pending) := by
  simp only [advance] at hstep
  split at hstep
  · cases hstep
  · next m pass hhandler =>
    cases hstep
    cases pass <;> simp [accepted, pending, hhandler]
  · next m hhandler =>
    cases hstep
    simp [accepted, pending, hhandler]
  · next m pass hhandler =>
    cases hstep
    simp [accepted, pending, hhandler]
  · next changed m work remaining hhandler =>
    cases hstep
    split
    · simp [accepted, pending, hhandler]
    · simp only [accepted, pending, hhandler]
      refine List.Perm.append_left _ ?_
      rw [← List.append_assoc]
      exact List.perm_append_singleton m _
  · next changed remaining hhandler =>
    cases hstep
    cases changed <;> simp [accepted, pending, hhandler]

/-! ## The fixed point of the flush loop -/

/-- A message that has been tested in vain since the last delivery is still not
deliverable. -/
structure Settled (o : CausalOrdering α) : Prop where
  idle : o.handler = .idle → ∀ m ∈ o.buffer, o.canDeliver m = false
  pass : ∀ pass, o.handler = .flush pass → pass.changed = false →
    ∀ m ∈ pass.remaining, o.canDeliver m = false

theorem settled_new (n : NodeId) (nodeIds : List NodeId) :
    (new n nodeIds : CausalOrdering α).Settled :=
  ⟨by simp [new], by simp [new]⟩

theorem Settled.handleCausal {o : CausalOrdering α} (h : o.Settled)
    (hidle : o.handler = .idle) (m : CausalMsg α) :
    (o.handleCausal m).Settled := by
  unfold CausalOrdering.handleCausal
  split
  · exact ⟨by simp, by simp⟩
  · next hcan =>
    refine ⟨fun _ m' hm' => ?_, fun pass hpass => ?_⟩
    · rw [canDeliver_congr rfl]
      rcases List.mem_append.mp hm' with hm' | hm'
      · exact h.idle hidle m' hm'
      · rw [List.mem_singleton.mp hm']
        exact Bool.eq_false_iff.mpr hcan
    · rw [hidle] at hpass
      cases hpass

theorem Settled.advance {o o' : CausalOrdering α} (h : o.Settled)
    (hstep : o.advance = some o') : o'.Settled := by
  simp only [CausalOrdering.advance] at hstep
  split at hstep
  · cases hstep
  · next m pass hhandler =>
    cases hstep
    exact ⟨by simp, by simp⟩
  · next m hhandler =>
    cases hstep
    refine ⟨by simp, ?_⟩
    rintro pass ⟨⟩ -
    simp
  · next m pass hhandler =>
    cases hstep
    refine ⟨by simp, ?_⟩
    rintro pass' ⟨⟩ hchanged
    cases hchanged
  · next changed m work remaining hhandler =>
    cases hstep
    split
    · exact ⟨by simp, by simp⟩
    · next hcan =>
      refine ⟨by simp, ?_⟩
      rintro pass ⟨⟩ hchanged m' hm'
      rw [canDeliver_congr rfl]
      rcases List.mem_append.mp hm' with hm' | hm'
      · exact h.pass _ hhandler hchanged m' hm'
      · rw [List.mem_singleton.mp hm']
        exact Bool.eq_false_iff.mpr hcan
  · next changed remaining hhandler =>
    cases hstep
    cases changed with
    | true =>
        refine ⟨by simp, ?_⟩
        rintro pass ⟨⟩ -
        simp
    | false =>
        refine ⟨fun _ m hm => ?_, by simp⟩
        rw [canDeliver_congr rfl]
        exact h.pass _ hhandler rfl m hm

theorem canDeliver_of_ready {n : NodeId} {o : CausalOrdering α}
    {m : CausalMsg α} (h : Ready n o.vc m) : o.canDeliver m = true := by
  refine canDeliver_iff.mpr fun k ts hts => ?_
  have hentry : m.vector.entry k = ts := by simp [Vector.entry, hts]
  split
  · next hk =>
    rw [← hentry, hk]
    exact h.next
  · next hk =>
    rw [← hentry]
    exact h.seen k hk

end CausalOrdering

namespace CausalSystem

/-! ## All nodes -/

section Nodes

variable {nodeIds peers : List NodeId} {s s' : CausalSystem α}

theorem Inv.entry_le (h : s.Inv nodeIds) {n : NodeId} {m : CausalMsg α}
    (hm : Addressed s.sent n m) (k : NodeId) :
    m.vector.entry k ≤ (s.sent k).length := by
  obtain ⟨x, hx, rfl, -⟩ := hm
  exact Nat.le_trans (h.stamped _ x hx k) ((h.node _).inOrder.bounded k)

private theorem undeliverable_emit {n : NodeId} {targets : List NodeId} {data : α}
    (h : s.Inv nodeIds) (htargets : n ∈ targets → targets = [n])
    (hstep : s.emit n targets data = some s') {m : CausalMsg α}
    (hm : Addressed s.sent n m)
    (hcan : (s.node n).canDeliver m = false) :
    (s'.node n).canDeliver m = false := by
  have h' := h.emit htargets hstep
  obtain ⟨vc, hvc, rfl⟩ := Option.map_eq_some_iff.mp hstep
  have hentry := ((h.node n).inOrder.keys.increment hvc).2.2
  rw [Bool.eq_false_iff] at hcan ⊢
  intro hcan'
  have hready := (h'.node n).ready_of_canDeliver h'.stamps (hm.emit _ _) hcan'
  simp only [Function.update_self] at hready
  apply hcan
  apply CausalOrdering.canDeliver_of_ready (n := n)
  refine ⟨hready.foreign, ?_, fun k hk => ?_⟩
  · rw [hready.next, hentry, if_neg hready.foreign]
  · by_cases hkn : k = n
    · rw [hkn, (h.node n).inOrder.own]
      exact h.entry_le hm n
    · have hseen := hready.seen k hk
      rwa [hentry, if_neg hkn] at hseen

theorem settled_setNode {n : NodeId} {o : CausalOrdering α}
    (h : ∀ q, (s.node q).Settled) (ho : o.Settled) (q : NodeId) :
    ((s.setNode n o).node q).Settled := by
  by_cases hq : q = n
  · subst hq
    simpa [setNode] using ho
  · simpa [setNode, hq] using h q

theorem settled_emit {n : NodeId} {targets : List NodeId} {data : α}
    (hinv : s.Inv nodeIds) (h : ∀ q, (s.node q).Settled)
    (htargets : n ∈ targets → targets = [n])
    (hstep : s.emit n targets data = some s') (q : NodeId) :
    (s'.node q).Settled := by
  have hcan := fun m => undeliverable_emit (m := m) hinv htargets hstep
  obtain ⟨vc, hvc, rfl⟩ := Option.map_eq_some_iff.mp hstep
  by_cases hq : q = n
  · subst hq
    simp only [Function.update_self] at hcan ⊢
    refine ⟨fun hidle m hm => ?_, fun pass hpass hchanged m hm => ?_⟩
    · exact hcan m ((hinv.node q).buffered m hm) ((h q).idle hidle m hm)
    · refine hcan m ((hinv.node q).waiting m ?_)
        ((h q).pass pass hpass hchanged m hm)
      rw [show (s.node q).handler = .flush pass from hpass]
      exact List.mem_append_right _ hm
  · simpa [hq] using h q

private theorem settled_step {a : CausalAction α} (hinv : s.Inv nodeIds)
    (h : ∀ q, (s.node q).Settled) (hstep : s.step peers a = some s') :
    ∀ q, (s'.node q).Settled := by
  cases a with
  | send n target data =>
      refine settled_emit hinv h (fun hn => ?_) hstep
      rw [List.mem_singleton.mp hn]
  | broadcast n data =>
      refine settled_emit hinv h (fun hn => ?_) hstep
      simp at hn
  | arrive packet =>
      simp only [step] at hstep
      split at hstep
      · cases hstep
      · next n m hpacket =>
        split at hstep
        · next hidle =>
          cases hstep
          exact settled_setNode h ((h n).handleCausal hidle m)
        · cases hstep
  | advance n =>
      obtain ⟨o, ho, rfl⟩ := Option.map_eq_some_iff.mp hstep
      exact settled_setNode h ((h n).advance ho)

theorem run_settled {actions : List (CausalAction α)}
    (hrun : run (step peers) (new nodeIds) actions = some s) :
    ∀ q, (s.node q).Settled := by
  have hboth : s.Inv nodeIds ∧ ∀ q, (s.node q).Settled := by
    refine run_preserves
      (I := fun t : CausalSystem α => t.Inv nodeIds ∧ ∀ q, (t.node q).Settled)
      (fun t a t' ht hstep => ?_) ?_ hrun
    · exact ⟨ht.1.step hstep, settled_step ht.1 ht.2 hstep⟩
    · exact ⟨inv_new nodeIds, fun q => CausalOrdering.settled_new q nodeIds⟩
  exact hboth.2

end Nodes

/-! ## Received messages are kept -/

section Received

variable {nodeIds peers : List NodeId} {s s' : CausalSystem α}

theorem step_network {a : CausalAction α} (hstep : s.step peers a = some s') :
    s.network <+: s'.network := by
  have hemit : ∀ n targets data, s.emit n targets data = some s' →
      s.network <+: s'.network := by
    intro n targets data h
    obtain ⟨vc, -, rfl⟩ := Option.map_eq_some_iff.mp h
    exact List.prefix_append _ _
  cases a with
  | send n target data => exact hemit _ _ _ hstep
  | broadcast n data => exact hemit _ _ _ hstep
  | arrive packet =>
      simp only [step] at hstep
      split at hstep
      · cases hstep
      · split at hstep
        · cases hstep
          exact List.prefix_rfl
        · cases hstep
  | advance n =>
      obtain ⟨o, -, rfl⟩ := Option.map_eq_some_iff.mp hstep
      exact List.prefix_rfl

private theorem run_network {actions : List (CausalAction α)}
    (hrun : run (step peers) s actions = some s') : s.network <+: s'.network :=
  run_preserves (I := fun t : CausalSystem α => s.network <+: t.network)
    (fun _ _ _ h hstep => h.trans (step_network hstep)) List.prefix_rfl hrun

def stock (s : CausalSystem α) (n : NodeId) : List (CausalMsg α) :=
  (s.node n).accepted ++ (s.node n).pending

theorem stock_emit {q : NodeId} {targets : List NodeId} {data : α}
    (hstep : s.emit q targets data = some s') (n : NodeId) :
    s'.stock n = s.stock n := by
  obtain ⟨vc, -, rfl⟩ := Option.map_eq_some_iff.mp hstep
  by_cases hn : n = q
  · subst hn
    simp only [stock, Function.update_self]
    rfl
  · simp [stock, hn]

theorem stock_setNode (s : CausalSystem α) (q n : NodeId)
    (o : CausalOrdering α) :
    (s.setNode q o).stock n =
      if n = q then o.accepted ++ o.pending else s.stock n := by
  unfold stock setNode
  by_cases hn : n = q
  · subst hn
    simp
  · simp [hn]

theorem received_quiet {network : List (NodeId × CausalMsg α)} {n : NodeId}
    {a : CausalAction α} (ha : a.arrival = none) :
    received network n (arrivals [a]) = [] := by
  simp [received, arrivals, ha]

private theorem stock_step {a : CausalAction α} (hstep : s.step peers a = some s')
    (n : NodeId) :
    (s'.stock n).Perm
      (s.stock n ++ received s.network n (arrivals [a])) := by
  cases a with
  | send q target data =>
      rw [stock_emit hstep, received_quiet rfl, List.append_nil]
  | broadcast q data =>
      rw [stock_emit hstep, received_quiet rfl, List.append_nil]
  | arrive packet =>
      have hone : received s.network n
          (arrivals [(CausalAction.arrive packet : CausalAction α)]) =
            (packetFor s.network n packet).toList := by
        unfold arrivals received
        simp only [List.filterMap_cons, CausalAction.arrival,
          List.filterMap_nil]
        cases packetFor s.network n packet <;> rfl
      rw [hone]
      simp only [step] at hstep
      split at hstep
      · cases hstep
      · next q m hpacket =>
        split at hstep
        · next hidle =>
          cases hstep
          rw [stock_setNode]
          by_cases hn : n = q
          · subst hn
            rw [if_pos rfl, packetFor_eq_some.mpr hpacket]
            exact CausalOrdering.perm_handleCausal hidle m
          · rw [if_neg hn]
            have hnone : packetFor s.network n packet = none := by
              simp [packetFor, hpacket, Ne.symm hn]
            simp [hnone]
        · cases hstep
  | advance q =>
      obtain ⟨o, ho, rfl⟩ := Option.map_eq_some_iff.mp hstep
      rw [stock_setNode, received_quiet rfl, List.append_nil]
      by_cases hn : n = q
      · subst hn
        rw [if_pos rfl]
        exact CausalOrdering.perm_advance ho
      · rw [if_neg hn]

private theorem received_extend {network network' : List (NodeId × CausalMsg α)}
    (h : network <+: network') {n : NodeId} {packets : List Nat}
    (hin : ∀ packet ∈ packets, packet < network.length) :
    received network' n packets = received network n packets := by
  obtain ⟨more, rfl⟩ := h
  refine List.filterMap_congr fun packet hpacket => ?_
  rw [packetFor, packetFor, List.getElem?_append_left (hin packet hpacket)]

private theorem arrival_lt {a : CausalAction α} (hstep : s.step peers a = some s') :
    ∀ packet ∈ arrivals [a], packet < s.network.length := by
  intro packet hpacket
  cases a with
  | send q target data => simp [arrivals, CausalAction.arrival] at hpacket
  | broadcast q data => simp [arrivals, CausalAction.arrival] at hpacket
  | arrive packet' =>
      have heq : packet = packet' := by
        simpa [arrivals, CausalAction.arrival] using hpacket
      subst heq
      simp only [step] at hstep
      split at hstep
      · cases hstep
      · next q m hget => exact (List.getElem?_eq_some_iff.mp hget).1
  | advance q => simp [arrivals, CausalAction.arrival] at hpacket

/-- Every message that has come to a node is accepted or waits there. -/
theorem run_stock {actions : List (CausalAction α)}
    (hrun : run (step peers) s actions = some s') (n : NodeId) :
    (s'.stock n).Perm
      (s.stock n ++ received s'.network n (arrivals actions)) := by
  induction actions generalizing s with
  | nil =>
      cases hrun
      simp [arrivals, received]
  | cons a rest ih =>
      obtain ⟨t, hstep, hrest⟩ := run_cons.mp hrun
      have hsplit : arrivals (a :: rest) = arrivals [a] ++ arrivals rest := by
        rw [← List.singleton_append, arrivals, List.filterMap_append]
        rfl
      have hnetwork := (step_network hstep).trans (run_network hrest)
      have hone := stock_step hstep n
      rw [← received_extend hnetwork (arrival_lt hstep)] at hone
      have hall := (ih hrest).trans (hone.append_right _)
      rw [hsplit, received, List.filterMap_append, ← List.append_assoc]
      exact hall

end Received

/-! ## Broadcasts only -/

section Broadcasts

variable {nodeIds peers : List NodeId} {s s' : CausalSystem α}

/-- No packet was put on the network twice, and none is for its own sender. -/
structure Distinct (s : CausalSystem α) : Prop where
  nodup : s.network.Nodup
  foreign : ∀ n m, (n, m) ∈ s.network → m.sender ≠ n

theorem Distinct.emit {n : NodeId} {data : α} (h : s.Distinct)
    (hinv : s.Inv nodeIds) (hpeers : peers.Nodup)
    (hstep : s.emit n (peers.filter (· ≠ n)) data = some s') :
    s'.Distinct := by
  obtain ⟨vc, hvc, rfl⟩ := Option.map_eq_some_iff.mp hstep
  refine ⟨List.nodup_append.mpr ⟨h.nodup, ?_, ?_⟩, fun q m hm => ?_⟩
  · refine List.Nodup.map (fun q q' heq => ?_) (hpeers.filter _)
    exact congrArg Prod.fst heq
  · -- The new vector is not that of a message sent before.
    rintro ⟨q, m⟩ hold packet hnew rfl
    obtain ⟨q', -, heq⟩ := List.mem_map.mp hnew
    obtain ⟨rfl, rfl⟩ := Prod.mk.inj heq
    have haddressed := hinv.network q' _ hold
    have hle := hinv.entry_le haddressed n
    have hnode := (hinv.node n).inOrder
    rw [(hnode.keys.increment hvc).2.2, if_pos rfl, hnode.own] at hle
    omega
  · rcases List.mem_append.mp hm with hm | hm
    · exact h.foreign q m hm
    · obtain ⟨q', hq', heq⟩ := List.mem_map.mp hm
      obtain ⟨rfl, rfl⟩ := Prod.mk.inj heq
      have hne : q' ≠ n := by simpa using (List.mem_filter.mp hq').2
      exact Ne.symm hne

theorem Distinct.step {a : CausalAction α} (h : s.Distinct)
    (hinv : s.Inv nodeIds) (hpeers : peers.Nodup)
    (ha : a.isBroadcastOnly = true) (hstep : s.step peers a = some s') :
    s'.Distinct := by
  cases a with
  | send n target data => cases ha
  | broadcast n data => exact h.emit hinv hpeers hstep
  | arrive packet =>
      simp only [CausalSystem.step] at hstep
      split at hstep
      · cases hstep
      · split at hstep
        · cases hstep
          exact ⟨h.nodup, h.foreign⟩
        · cases hstep
  | advance n =>
      obtain ⟨o, -, rfl⟩ := Option.map_eq_some_iff.mp hstep
      exact ⟨h.nodup, h.foreign⟩

private theorem run_distinct {actions : List (CausalAction α)} (hpeers : peers.Nodup)
    (hbroadcast : ∀ a ∈ actions, a.isBroadcastOnly = true)
    (hrun : run (CausalSystem.step peers) (new nodeIds) actions = some s) :
    s.Distinct := by
  have hall : Along (CausalSystem.step peers) (fun _ _ => True)
      (new nodeIds : CausalSystem α) actions :=
    along_of_forall (fun _ _ => trivial) _ actions
  have halong := along_and hbroadcast hall
  have hboth : s.Inv nodeIds ∧ s.Distinct := by
    refine run_invariant
      (I := fun t : CausalSystem α => t.Inv nodeIds ∧ t.Distinct)
      (fun t a t' ht hok hstep => ?_) ?_ halong hrun
    · exact ⟨ht.1.step hstep, ht.2.step ht.1 hpeers hok.1 hstep⟩
    · exact ⟨inv_new nodeIds, by simp [new], by simp [new]⟩
  exact hboth.2

end Broadcasts

/-! ## A message of least weight -/

section Weight

variable {nodeIds peers : List NodeId} {actions : List (CausalAction α)}
  {s : CausalSystem α}

def weight (nodeIds : List NodeId) (v : Vector) : Nat :=
  (nodeIds.map v.entry).sum

private theorem weight_lt {v w : Vector} (hle : v.LE w) {n : NodeId}
    (hn : n ∈ nodeIds) (hlt : v.entry n < w.entry n) :
    weight nodeIds v < weight nodeIds w :=
  List.sum_lt_sum _ _ (fun k _ => hle k) ⟨n, hn, hlt⟩

private theorem weight_lt_of_counted
    (hrun : run (step peers) (new nodeIds) actions = some s) {q n : NodeId}
    {i j : Nat} {x y : Sent α} (hx : (s.sent q)[i]? = some x)
    (hy : (s.sent n)[j]? = some y) (hne : (q, i) ≠ (n, j))
    (hcount : i < y.msg.vector.entry q) :
    weight nodeIds x.msg.vector < weight nodeIds y.msg.vector := by
  have hknown := known_of_counted hrun hx hy hne hcount
  obtain ⟨hle, hlt⟩ := below_of_known hrun hx hy hknown
  have hn : n ∈ nodeIds := by
    have hstamps := (run_inv hrun).stamps
    refine hstamps.keys n y (List.mem_of_getElem? hy) n ?_
    have hown := (hstamps.numbered n j y hy).2
    cases hget : y.msg.vector.get? n with
    | none => simp [Vector.entry, hget] at hown
    | some ts => rfl
  exact weight_lt hle hn hlt

/-- With the lock free, a node has accepted a message that it received together with
its causal past, by induction on the weight: all that the vector counts has been
accepted, so the message would be ready if it were left in the buffer. -/
theorem accepted_of_past
    (hrun : run (step peers) (new nodeIds) actions = some s) {n : NodeId}
    (hidle : (s.node n).handler = .idle) (bound : Nat) {q : NodeId} (hq : q ≠ n)
    {i : Nat} {x : Sent α} (hx : (s.sent q)[i]? = some x)
    (hstock : x.msg ∈ s.stock n)
    (hpast : ∀ k j y, k ≠ n → (s.sent k)[j]? = some y →
      Relation.TransGen (Informs nodeIds peers actions s) (k, j) (q, i) →
      y.msg ∈ s.stock n)
    (hbound : weight nodeIds x.msg.vector < bound) :
    x.msg ∈ (s.node n).accepted := by
  induction bound generalizing q i x with
  | zero => exact absurd hbound (Nat.not_lt_zero _)
  | succ bound ih =>
      have hinv := run_inv hrun
      have hnode := (hinv.node n).inOrder
      have hseq := hinv.stamps.numbered q i x hx
      by_contra hout
      -- Whatever else the vector counts has been accepted and counted.
      have hcounted : ∀ k, k ≠ n → (k, (s.node n).vc.clock.entry k) ≠ (q, i) →
          x.msg.vector.entry k ≤ (s.node n).vc.clock.entry k := by
        intro k hk hne
        by_contra hlt
        have hcount := Nat.lt_of_not_le hlt
        have hsent : (s.node n).vc.clock.entry k < (s.sent k).length := by
          refine Nat.lt_of_lt_of_le hcount ?_
          exact Nat.le_trans (hinv.stamped q x (List.mem_of_getElem? hx) k)
            ((hinv.node q).inOrder.bounded k)
        have hy := List.getElem?_eq_getElem hsent
        have hweight := weight_lt_of_counted hrun hy hx hne hcount
        have hinforms : Informs nodeIds peers actions s
            (k, (s.node n).vc.clock.entry k) (q, i) :=
          ⟨_, x, hy, hx, known_of_counted hrun hy hx hne hcount⟩
        have haccepted := ih hk hy (hpast k _ _ hk hy (.single hinforms))
          (fun k' j y hk' hj hchain =>
            hpast k' j y hk' hj (hchain.tail hinforms)) (by omega)
        have hle := hnode.below _ haccepted k
        rw [(hinv.stamps.numbered k _ _ hy).2] at hle
        omega
      have hnext : (s.node n).vc.clock.entry q = i := by
        have hge : ¬ i < (s.node n).vc.clock.entry q := fun hlt =>
          hout (hnode.mem_accepted hq hx hlt)
        by_contra hne
        have hle := hcounted q hq (fun heq => hne (Prod.mk.inj heq).2)
        rw [hseq.2] at hle
        omega
      have hready : Ready n (s.node n).vc x.msg := by
        refine ⟨hseq.1 ▸ hq, ?_, fun k hk => ?_⟩
        · rw [hseq.1, hseq.2, hnext]
        · rw [hseq.1] at hk
          by_cases hkn : k = n
          · rw [hkn, hnode.own]
            exact Nat.le_trans (hinv.stamped q x (List.mem_of_getElem? hx) n)
              ((hinv.node q).inOrder.bounded n)
          · exact hcounted k hkn (fun heq => hk (Prod.mk.inj heq).1)
      have hbuffer : x.msg ∈ (s.node n).buffer := by
        unfold stock CausalOrdering.pending at hstock
        rw [hidle] at hstock
        exact (List.mem_append.mp hstock).resolve_left hout
      have hsettled := (run_settled hrun n).idle hidle x.msg hbuffer
      rw [CausalOrdering.canDeliver_of_ready hready] at hsettled
      cases hsettled

private theorem accepted_of_received
    (hrun : run (step peers) (new nodeIds) actions = some s) {n : NodeId}
    (hidle : (s.node n).handler = .idle)
    (hall : ∀ q, q ≠ n → ∀ x ∈ s.sent q, x.msg ∈ s.stock n) (bound : Nat)
    {q : NodeId} (hq : q ≠ n) {i : Nat} {x : Sent α}
    (hx : (s.sent q)[i]? = some x)
    (hbound : weight nodeIds x.msg.vector < bound) :
    x.msg ∈ (s.node n).accepted :=
  accepted_of_past hrun hidle bound hq hx
    (hall q hq x (List.mem_of_getElem? hx))
    (fun k _ y hk hy _ => hall k hk y (List.mem_of_getElem? hy)) hbound

end Weight

/--
When every message is broadcast and every packet arrives at most once, a node
whose lock is free holds no deliverable message in its buffer; and when it has
received all that the other nodes have broadcast, it has delivered all of it and
its buffer is empty.
-/
theorem run_causalComplete (nodeIds peers : List NodeId) (hpeers : peers.Nodup)
    (actions : List (CausalAction α))
    (hbroadcast : ∀ a ∈ actions, a.isBroadcastOnly = true)
    (honce : (arrivals actions).Nodup) (s : CausalSystem α)
    (hrun : run (step peers) (new nodeIds) actions = some s) (n : NodeId)
    (hidle : (s.node n).handler = .idle) :
    (∀ m ∈ (s.node n).buffer, (s.node n).canDeliver m = false) ∧
    ((∀ q, q ≠ n → ∀ x ∈ s.sent q,
        x.msg ∈ received s.network n (arrivals actions)) →
      (∀ q, q ≠ n → ∀ x ∈ s.sent q, x.msg ∈ (s.node n).delivered) ∧
        (s.node n).buffer = []) := by
  have hdistinct := run_distinct hpeers hbroadcast hrun
  have hperm : ((s.node n).delivered ++ (s.node n).buffer).Perm
      (received s.network n (arrivals actions)) := by
    have hstock := run_stock hrun n
    have hstart : (new nodeIds : CausalSystem α).stock n = [] := rfl
    rw [hstart, List.nil_append] at hstock
    unfold stock CausalOrdering.accepted CausalOrdering.pending at hstock
    rw [hidle] at hstock
    exact hstock
  have haccepted : (s.node n).accepted = (s.node n).delivered := by
    unfold CausalOrdering.accepted
    rw [hidle]
  refine ⟨(run_settled hrun n).idle hidle, fun hall => ?_⟩
  have hstock : ∀ q, q ≠ n → ∀ x ∈ s.sent q, x.msg ∈ s.stock n := by
    intro q hq x hx
    unfold stock CausalOrdering.pending
    rw [hidle, haccepted]
    exact hperm.mem_iff.mpr (hall q hq x hx)
  have hdelivered : ∀ q, q ≠ n → ∀ x ∈ s.sent q,
      x.msg ∈ (s.node n).delivered := by
    intro q hq x hx
    obtain ⟨i, hi⟩ := List.mem_iff_getElem?.mp hx
    rw [← haccepted]
    exact accepted_of_received hrun hidle hstock _ hq hi (Nat.lt_succ_self _)
  refine ⟨hdelivered, List.eq_nil_iff_forall_not_mem.mpr fun m hm => ?_⟩
  have hnetwork := mem_received (hperm.mem_iff.mp (List.mem_append_right _ hm))
  obtain ⟨x, hx, rfl, -⟩ := (run_inv hrun).network n m hnetwork
  have hboth := hdelivered _ (hdistinct.foreign n _ hnetwork) x hx
  have hnodup := hperm.nodup_iff.mpr (nodup_received hdistinct.nodup n honce)
  exact (List.nodup_append.mp hnodup).2.2 _ hboth _ hm rfl

/-- Two broadcasts, the second one caused by the first; node 3 gets them the
wrong way round. -/
def crossedBroadcasts : List (CausalAction String) :=
  [.broadcast 1 "a", .arrive 0, .advance 2, .advance 2, .advance 2,
    .broadcast 2 "b", .arrive 3, .arrive 1, .advance 3, .advance 3, .advance 3,
    .advance 3, .advance 3, .advance 3, .advance 3]

theorem crossedBroadcasts_causalComplete :
    ∃ s, run (step [1, 2, 3]) (new [1, 2, 3]) crossedBroadcasts = some s ∧
      (s.sent 1).length = 1 ∧ (s.sent 2).length = 1 ∧
      (∀ q, q ≠ 3 → ∀ x ∈ s.sent q, x.msg ∈ (s.node 3).delivered) ∧
      (s.node 3).buffer = [] := by
  have hview : (run (step [1, 2, 3]) (new [1, 2, 3]) crossedBroadcasts).any
      (fun s => (s.node 3).handler.isIdle &&
        decide ((s.sent 1).length = 1 ∧ (s.sent 2).length = 1) &&
        [1, 2].all fun q => (s.sent q).all fun x =>
          decide (x.msg ∈ received s.network 3 (arrivals crossedBroadcasts))) =
      true := by
    decide +kernel
  obtain ⟨s, hs, hall⟩ := (Option.any_eq_true _ _).mp hview
  simp only [Bool.and_eq_true, decide_eq_true_eq, List.all_eq_true] at hall
  obtain ⟨⟨hidle, hone, htwo⟩, hreceived⟩ := hall
  have hall : ∀ q, q ≠ 3 → ∀ x ∈ s.sent q,
      x.msg ∈ received s.network 3 (arrivals crossedBroadcasts) := by
    intro q _ x hx
    by_cases hq : q ∈ [1, 2]
    · exact hreceived q hq x hx
    · have hsilent : ∀ a ∈ crossedBroadcasts, a.emitter ≠ some q := by
        simp only [List.mem_cons, List.not_mem_nil, or_false, not_or] at hq
        simp [crossedBroadcasts, CausalAction.emitter, Ne.symm hq.1,
          Ne.symm hq.2]
      rw [sent_of_silent hs hsilent] at hx
      cases hx
  have h := run_causalComplete _ _ (by decide) crossedBroadcasts
    (by simp [crossedBroadcasts, CausalAction.isBroadcastOnly]) (by decide) s hs
    3 (Handler.eq_idle hidle)
  exact ⟨s, hs, hone, htwo, h.2 hall⟩

end CausalSystem

end DistributedMemory.Network
