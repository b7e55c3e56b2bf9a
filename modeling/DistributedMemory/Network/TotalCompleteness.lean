import DistributedMemory.Network.TotalOrdering

/-!
# Everything is delivered in total order

When every request has been handled once, no handler thread of the sequencer is
left and every packet has arrived, all nodes have delivered the same list, and it
holds every message sent exactly once.  A number that was handed out is, for each
node, handled there, on its way, or with the thread that still has to send it.
-/

namespace DistributedMemory.Network

open DistributedMemory.Library

universe u

variable {α : Type u}

namespace TotalAction

def sent : TotalAction α → Option (NodeId × α)
  | .send origin data => some (origin, data)
  | _ => none

/-- A `TOTAL_MSG` that the sequencer has handled. -/
def handled : TotalAction α → Option (NodeId × α)
  | .request _ origin data => some (origin, data)
  | _ => none

end TotalAction

/-- What the application gave to `send`. -/
def Assign.message (p : Assign α) : NodeId × α := (p.origin, p.data)

namespace TotalSystem

/-- Where the assignment `p` is, seen from node `n`. -/
inductive Reaches (sequencer : NodeId) (s : TotalSystem α) (n : NodeId)
    (p : Assign α) : Prop where
  | arrived (h : p ∈ s.arrived n)
  | sent (h : (n, p) ∈ s.network)
  | unsent (i : ThreadId) (h : Handling α) (hi : s.handling i = some h)
      (hp : h.payload = p) (hn : n = sequencer ∨ n ∈ h.targets)

/-- No assignment is lost on its way to a node that it is meant for. -/
def Kept (sequencer : NodeId) (peers : List NodeId) (s : TotalSystem α) : Prop :=
  ∀ p ∈ s.assigned, ∀ n ∈ sequencer :: peers, s.Reaches sequencer n p

private theorem kept_new (sequencer : NodeId) (peers : List NodeId) :
    (new : TotalSystem α).Kept sequencer peers := by
  simp [Kept, new]

private theorem mem_arrived_handle (s : TotalSystem α) (m : NodeId) (p : Assign α) :
    p ∈ (s.handle m p).arrived m := by
  simp [handle]

theorem arrived_handle {s : TotalSystem α} {m n : NodeId} {p q : Assign α}
    (h : q ∈ s.arrived n) : q ∈ (s.handle m p).arrived n := by
  simp only [handle, Function.update_apply]
  split
  · next heq => exact List.mem_append_left _ (heq ▸ h)
  · exact h

variable [DecidableEq α]

section Step

variable {sequencer : NodeId} {peers : List NodeId} {s s' : TotalSystem α}

theorem Reaches.step {a : TotalAction α} {n : NodeId} {p : Assign α}
    (h : s.Reaches sequencer n p)
    (hstep : s.step sequencer peers a = some s') :
    s'.Reaches sequencer n p := by
  cases a with
  | send origin data =>
      cases hstep
      cases h with
      | arrived h => exact .arrived h
      | sent h => exact .sent h
      | unsent i x hi hp hn => exact .unsent i x hi hp hn
  | request j origin data =>
      simp only [TotalSystem.step] at hstep
      split at hstep
      · next hfree =>
        cases hstep
        cases h with
        | arrived h => exact .arrived h
        | sent h => exact .sent h
        | unsent i x hi hp hn =>
            refine .unsent i x ?_ hp hn
            have hij : i ≠ j := by
              rintro rfl
              simp [hi] at hfree
            simpa only [Function.update_of_ne hij] using hi
      · cases hstep
  | broadcast j =>
      simp only [TotalSystem.step] at hstep
      split at hstep
      · next q target rest hj =>
        cases hstep
        cases h with
        | arrived h => exact .arrived h
        | sent h => exact .sent (List.mem_append_left _ h)
        | unsent i x hi hp hn =>
            by_cases hij : i = j
            · obtain rfl := hij
              obtain rfl := Option.some.inj (hj.symm.trans hi)
              have hrest : ∀ (hn' : n = sequencer ∨ n ∈ rest), _ := fun hn' =>
                Reaches.unsent (s := { s with
                  handling := Function.update s.handling i (some ⟨q, rest⟩)
                  network := s.network ++ [(target, q)] }) i ⟨q, rest⟩
                  (by simp) hp hn'
              rcases hn with hn | hn
              · exact hrest (.inl hn)
              · rcases List.mem_cons.mp hn with rfl | hn
                · exact .sent (by simp [← hp])
                · exact hrest (.inr hn)
            · refine .unsent i x ?_ hp hn
              simpa only [Function.update_of_ne hij] using hi
      · cases hstep
  | deliver j =>
      simp only [TotalSystem.step] at hstep
      split at hstep
      · next q hj =>
        cases hstep
        cases h with
        | arrived h => exact .arrived (arrived_handle (s := s) h)
        | sent h => exact .sent h
        | unsent i x hi hp hn =>
            by_cases hij : i = j
            · obtain rfl := hij
              obtain rfl := Option.some.inj (hj.symm.trans hi)
              obtain rfl := hp
              obtain rfl := hn.resolve_right (List.not_mem_nil)
              exact .arrived (mem_arrived_handle s n q)
            · refine .unsent i x ?_ hp hn
              simpa only [Function.update_of_ne hij] using hi
      · cases hstep
  | arrive target q =>
      simp only [TotalSystem.step] at hstep
      split at hstep
      · cases hstep
        cases h with
        | arrived h => exact .arrived (arrived_handle h)
        | sent h => exact .sent h
        | unsent i x hi hp hn => exact .unsent i x hi hp hn
      · cases hstep

private theorem step_assigned {a : TotalAction α}
    (hstep : s.step sequencer peers a = some s') :
    s'.assigned.map Assign.message =
      s.assigned.map Assign.message ++ (TotalAction.handled a).toList := by
  cases a with
  | send origin data =>
      cases hstep
      simp [TotalAction.handled]
  | request i origin data =>
      simp only [TotalSystem.step] at hstep
      split at hstep
      · cases hstep
        simp [TotalAction.handled, Assign.message]
      · cases hstep
  | broadcast i =>
      simp only [TotalSystem.step] at hstep
      split at hstep
      · cases hstep
        simp [TotalAction.handled]
      · cases hstep
  | deliver i =>
      simp only [TotalSystem.step] at hstep
      split at hstep
      · cases hstep
        simp [TotalAction.handled, handle]
      · cases hstep
  | arrive target p =>
      simp only [TotalSystem.step] at hstep
      split at hstep
      · cases hstep
        simp [TotalAction.handled, handle]
      · cases hstep

theorem Kept.step {a : TotalAction α} (h : s.Kept sequencer peers)
    (hstep : s.step sequencer peers a = some s') :
    s'.Kept sequencer peers := by
  intro p hp n hn
  by_cases hold : p ∈ s.assigned
  · exact (h p hold n hn).step hstep
  · cases a with
    | send origin data =>
        cases hstep
        exact absurd hp hold
    | request i origin data =>
        simp only [TotalSystem.step] at hstep
        split at hstep
        · cases hstep
          obtain rfl := List.mem_singleton.mp
            ((List.mem_append.mp hp).resolve_left hold)
          exact .unsent i _ (Function.update_self ..) rfl
            (List.mem_cons.mp hn)
        · cases hstep
    | broadcast i =>
        simp only [TotalSystem.step] at hstep
        split at hstep
        · cases hstep
          exact absurd hp hold
        · cases hstep
    | deliver i =>
        simp only [TotalSystem.step] at hstep
        split at hstep
        · cases hstep
          exact absurd hp hold
        · cases hstep
    | arrive target q =>
        simp only [TotalSystem.step] at hstep
        split at hstep
        · cases hstep
          exact absurd hp hold
        · cases hstep

end Step

/--
Once every request has been handled exactly once, no handler thread is left and
every assignment sent has arrived, all nodes have delivered the same list, and it
holds each message sent, as often as it was sent, under the numbers from one on.
-/
theorem run_totalComplete (sequencer : NodeId) (peers : List NodeId)
    (actions : List (TotalAction α)) (s : TotalSystem α)
    (hrun : run (step sequencer peers) new actions = some s)
    (hhandled : (actions.filterMap TotalAction.handled).Perm
      (actions.filterMap TotalAction.sent))
    (hquiet : ∀ i, s.handling i = none)
    (harrived : ∀ packet ∈ s.network, packet.2 ∈ s.arrived packet.1) :
    ∀ n ∈ sequencer :: peers,
      ((s.node n).delivered.map Assign.message).Perm
          (actions.filterMap TotalAction.sent) ∧
        (s.node n).delivered.map Assign.globalSeq =
          List.range' 1 (actions.filterMap TotalAction.sent).length ∧
        ∀ m ∈ sequencer :: peers,
          (s.node m).delivered = (s.node n).delivered := by
  have hinv : s.Inv sequencer :=
    run_preserves (fun _ _ _ h hstep => h.step hstep) (inv_new sequencer) hrun
  have hkept : s.Kept sequencer peers :=
    run_preserves (fun _ _ _ h hstep => h.step hstep) (kept_new sequencer peers)
      hrun
  have hassigned : s.assigned.map Assign.message =
      actions.filterMap TotalAction.handled := by
    rw [run_records (fun s : TotalSystem α =>
      s.assigned.map Assign.message) (fun _ _ _ => step_assigned) hrun]
    rfl
  have hdelivered : ∀ n ∈ sequencer :: peers,
      (s.node n).delivered = s.assigned := by
    intro n hn
    refine (hinv.order n).complete (hinv.flushed n) hinv.numbered fun p hp => ?_
    cases hkept p hp n hn with
    | arrived h => exact h
    | sent h => exact harrived (n, p) h
    | unsent i x hi => simp [hquiet i] at hi
  have hlength : s.assigned.length =
      (actions.filterMap TotalAction.sent).length := by
    rw [← hhandled.length_eq, ← hassigned, List.length_map]
  intro n hn
  refine ⟨?_, ?_, fun m hm => (hdelivered m hm).trans (hdelivered n hn).symm⟩
  · rw [hdelivered n hn, hassigned]
    exact hhandled
  · rw [hdelivered n hn, ← hlength]
    refine List.ext_getElem (by simp) fun i hi hi' => ?_
    have hget := hinv.numbered i _ (List.getElem?_eq_getElem (by simpa using hi))
    simp [hget, Nat.add_comm]

/-- Two equal messages whose handlers overtake each other, with one packet doubled. -/
def overtakenTwice : List (TotalAction Nat) :=
  [.send 2 5, .send 3 5, .request 1 3 5, .request 2 2 5, .broadcast 2,
    .broadcast 1, .deliver 2, .arrive 2 ⟨2, 2, 5⟩, .arrive 2 ⟨1, 3, 5⟩,
    .deliver 1, .arrive 2 ⟨1, 3, 5⟩]

theorem overtakenTwice_totalComplete :
    ∃ s, run (step 1 [2]) new overtakenTwice = some s ∧
      ((s.node 1).delivered.map Assign.message).Perm [(2, 5), (3, 5)] ∧
        (s.node 1).delivered = (s.node 2).delivered := by
  refine ⟨_, rfl, ?_⟩
  have h := run_totalComplete 1 [2] overtakenTwice _ rfl (by decide)
    (fun i => ?_) (by decide)
  · obtain ⟨hperm, -, hsame⟩ := h 1 (by decide)
    exact ⟨hperm, (hsame 2 (by decide)).symm⟩
  · by_cases h1 : i = 1
    · subst h1
      rfl
    · by_cases h2 : i = 2
      · subst h2
        rfl
      · simp [handle, Function.update_of_ne h1, Function.update_of_ne h2, new]

end TotalSystem

end DistributedMemory.Network
