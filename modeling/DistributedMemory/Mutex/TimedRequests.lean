import DistributedMemory.Mutex.MaekawaSafety

/-!
# Requests that time out

When `_cs_event.wait` times out, `request_cs` returns `False` and nothing is told to
the voters.  The next `request_cs` forgets the votes that the node holds, and the ones
of the old request count for the new one when they come late.

The ballot of such a run is no longer balanced.  Whatever is around of a node at a
voter is still one vote or release at most, and the voter has voted for the node.
-/

namespace DistributedMemory.Mutex

open DistributedMemory.Library DistributedMemory.Network

/-- `timeout` is the return of `request_cs` with `False`. -/
inductive TimedAction where
  | act (a : MaekawaAction)
  | timeout (n : NodeId)

namespace TimedAction

/-- A mutex call of node `n`. -/
def isCallOf (n : NodeId) : TimedAction → Bool
  | .act (.requestCs m _) => m = n
  | .act (.releaseCs m) => m = n
  | _ => false

def requests (n : NodeId) : TimedAction → Bool
  | .act (.requestCs m _) => m = n
  | _ => false

def releases (n : NodeId) : TimedAction → Bool
  | .act (.releaseCs m) => m = n
  | _ => false

/-- A `request_cs` of node `n` returns `False`. -/
def timesOut (n : NodeId) : TimedAction → Bool
  | .timeout m => m = n
  | _ => false

def asks (n v : NodeId) : TimedAction → Bool
  | .act (.sendRequest m target) => m = n && target = v
  | _ => false

/-- The action is no step of the caller of `n` to another call. -/
structure Spares (n : NodeId) (a : TimedAction) : Prop where
  requests : a.requests n = false
  asks : ∀ v, a.asks n v = false
  releases : a.releases n = false
  timesOut : a.timesOut n = false

end TimedAction

namespace MaekawaSystem

def timedStep (c : QuorumSystem) (s : MaekawaSystem) :
    TimedAction → Option MaekawaSystem
  | .act a => s.step c a
  | .timeout n =>
      let m := s.node n
      if m.call = .waiting then some (s.setNode n { m with call := .idle })
      else none

/-- `unhurried` of a run with timeouts. -/
def calm (s : MaekawaSystem) : TimedAction → Bool
  | .act a => s.unhurried a
  | .timeout _ => true

abbrev TimedInv (c : QuorumSystem) (s : MaekawaSystem) : Prop :=
  s.Inv c (Ballot.Covered fun i v => v ∈ c.quorum i)

section Timed

variable {c : QuorumSystem} {s s' t : MaekawaSystem} {n : NodeId}

private theorem TimedInv.mem_quorum (h : s.TimedInv c) {i v : NodeId}
    (hpos : 0 < (s.ballot c).granted i v) : v ∈ c.quorum i :=
  h.votes.asked i v (by omega)

theorem TimedInv.setNode {m : MaekawaNode} (h : s.TimedInv c)
    (hvotes : ∀ v, (if v ∈ m.mutex.votesHeld then 1 else 0) +
        (m.releasing.countP fun r => r.1 = v) ≤
      (if v ∈ (s.node n).mutex.votesHeld then 1 else 0) +
        (s.node n).releasing.countP fun r => r.1 = v)
    (hheld : m.mutex.votesHeld ⊆ (s.node n).mutex.votesHeld)
    (htargets : ∀ v ∈ m.call.targets, v ∈ c.quorum n)
    (hqueue : m.mutex.requestQueue = (s.node n).mutex.requestQueue)
    (hvoted : m.mutex.voted = (s.node n).mutex.voted)
    (hnode : m.Inv c n) : (s.setNode n m).TimedInv c := by
  have hqueues := field_setNode s (m := m) (·.mutex.requestQueue) hqueue
  refine ⟨h.votes.mono (fun k v => ?_) (fun k v hpos => ?_) ?_, h.signed,
    fun k => ?_⟩
  · simp only [ballot, link_setNode, node_setNode]
    by_cases hk : k = n
    · subst hk
      have hle := hvotes v
      simp only [if_true]
      omega
    · simp [hk]
  · simp only [ballot, link_setNode, hqueues, call_setNode] at hpos
    rw [mutex_setNode] at hpos
    by_cases hk : k = n
    · subst hk
      by_cases hv : v ∈ m.call.targets
      · exact htargets v hv
      · refine h.votes.asked k v ?_
        have hcount := List.count_eq_zero_of_not_mem hv
        have hless : (if v ∈ m.mutex.votesHeld then 1 else 0) ≤
            if v ∈ (s.node k).mutex.votesHeld then 1 else 0 := by
          split
          · next hmem => rw [if_pos (hheld hmem)]
          · exact Nat.zero_le _
        simp only [if_true, hcount] at hpos
        simp only [ballot]
        omega
    · simp only [if_neg hk] at hpos
      exact h.votes.asked k v hpos
  · funext v
    simp only [ballot, field_setNode s (m := m) (·.mutex.voted) hvoted]
  · rw [node_setNode]
    split
    · next heq => rw [heq]; exact hnode
    · exact h.node k

theorem TimedInv.requestCs (h : s.TimedInv c) (hn : n ∈ c.nodes)
    (resource : Resource) (clock : LamportClock) :
    (s.setNode n
      { s.node n with
        clock := clock
        mutex := (s.node n).mutex.requestCs resource clock.time
        call := .asking resource (c.quorum n) }).TimedInv c := by
  refine h.setNode (fun v => ?_) (Finset.empty_subset _) (fun v hv => hv) rfl rfl
    (.requestCs hn rfl rfl)
  simp [MaekawaExclusion.requestCs]

theorem TimedInv.releaseCs (h : s.TimedInv c) (hcall : (s.node n).call = .inside) :
    (s.setNode n
      { s.node n with
        mutex := (s.node n).mutex.releaseCs
        call := .idle
        releasing := (s.node n).releasing ++ (c.quorum n).map fun target =>
          (target, (s.node n).mutex.requestResource) }).TimedInv c := by
  have hholds : ∀ v ∈ c.quorum n, v ∈ (s.node n).mutex.votesHeld := by
    refine (h.node n).signalled ?_
    rw [MaekawaNode.Signalled, hcall]
    trivial
  refine h.setNode (fun v => ?_) (Finset.empty_subset _)
    (fun v hv => absurd hv List.not_mem_nil) rfl rfl
    ⟨fun hne => absurd rfl hne, fun hs => hs.elim, fun hin => (by cases hin)⟩
  rw [List.countP_append, countP_releases]
  by_cases hv : v ∈ c.quorum n
  · simp [MaekawaExclusion.releaseCs, hv, hholds v hv, Nat.add_comm]
  · simp [MaekawaExclusion.releaseCs, hv]

theorem TimedInv.timeout (h : s.TimedInv c) :
    (s.setNode n { s.node n with call := .idle }).TimedInv c := by
  refine h.setNode (fun v => Nat.le_refl _) (Finset.Subset.refl _)
    (fun v hv => absurd hv List.not_mem_nil) rfl rfl
    ⟨fun hne => absurd rfl hne, fun hs => hs.elim, fun hin => (by cases hin)⟩

theorem TimedInv.step {a : TimedAction} (h : s.TimedInv c) (hok : s.calm a = true)
    (hstep : s.timedStep c a = some s') : s'.TimedInv c := by
  cases a with
  | act a =>
      have hact : s.step c a = some s' := hstep
      refine h.step_of hok (fun n v => h.mem_quorum) hact ?_ ?_
      · rintro n resource rfl
        cases step_cases hact with
        | requestCs _ hn _ => exact h.requestCs hn resource _
      · rintro n rfl
        cases step_cases hact with
        | releaseCs hcall => exact h.releaseCs hcall
  | timeout n =>
      obtain ⟨-, heq⟩ := Option.ite_none_right_eq_some.mp hstep
      cases heq
      exact h.timeout

theorem timedInv_new (c : QuorumSystem) : new.TimedInv c := by
  have hzero := (inv_new c).votes.unvoted
  refine ⟨⟨fun i v hv => ?_, fun i v _ => hzero i v (by simp [ballot, new,
    MaekawaExclusion.new]), fun i v hpos => ?_⟩, (inv_new c).signed, (inv_new c).node⟩
  · simp [ballot, new, MaekawaExclusion.new] at hv
  · exact absurd ((inv_new c).votes.unwanted i v fun hw => hw.1 rfl) hpos

theorem TimedInv.voted_of_release (h : s.TimedInv c) {i v : NodeId}
    {resource : Option Resource}
    (htask : (s.link i v).handler = some (.received (.release resource))) :
    (s.node v).mutex.voted.map (·.requester) = some i := by
  have hpos : 0 < (s.link i v).total MaekawaTask.release :=
    total_pos htask Nat.one_pos
  exact Ballot.Law.own (b := s.ballot c) h.votes (by simp only [ballot]; omega)

end Timed

/-! ## The caller of a node -/

/-- What a step does to the caller of `n`. -/
inductive CallStep (c : QuorumSystem) (n : NodeId) :
    TimedAction → MaekawaCall → MaekawaCall → Prop
  | requests (resource : Resource) :
      CallStep c n (.act (.requestCs n resource)) .idle
        (.asking resource (c.quorum n))
  | asks {resource : Resource} {targets : List NodeId} {target : NodeId}
      (hmem : target ∈ targets) :
      CallStep c n (.act (.sendRequest n target)) (.asking resource targets)
        (.asking resource (targets.erase target))
  | releases : CallStep c n (.act (.releaseCs n)) .inside .idle
  | timesOut : CallStep c n (.timeout n) .waiting .idle
  | stays {a : TimedAction} {call call' : MaekawaCall} (hspares : a.Spares n)
      (htargets : call'.targets = call.targets)
      (hidle : call' = .idle ↔ call = .idle) : CallStep c n a call call'

section Caller

variable {c : QuorumSystem} {s s' t : MaekawaSystem} {a : TimedAction}
  {n v : NodeId}

@[simp] theorem call_grantVote (s : MaekawaSystem) (j : NodeId)
    (r : MaekawaRequest) (n : NodeId) :
    ((s.grantVote j r).node n).call = (s.node n).call := by
  simp [MaekawaSystem.grantVote]

private theorem call_handle (s : MaekawaSystem) (i j : NodeId) (msg : MaekawaMsg)
    (n : NodeId) :
    ((s.handle c i j msg).node n).call = (s.node n).call ∨
      ((s.handle c i j msg).node n).call = (s.node n).call.wake := by
  cases msg with
  | request resource reqTs =>
      left
      simp only [MaekawaSystem.handle, MaekawaSystem.handleRequest]
      split
      · simp
      · split <;> simp
  | locked resource voter =>
      simp only [MaekawaSystem.handle, MaekawaSystem.handleLocked, call_setNode]
      split
      · next heq =>
        subst heq
        split
        · exact .inr rfl
        · exact .inl rfl
      · exact .inl rfl
  | failed resource => exact .inl rfl
  | inquire resource voter =>
      left
      simp only [MaekawaSystem.handle, MaekawaSystem.handleInquire]
      split
      · simp
      · rfl
  | relinquish resource =>
      left
      simp only [MaekawaSystem.handle, MaekawaSystem.handleRelinquish]
      split <;> simp
  | release resource =>
      left
      simp only [MaekawaSystem.handle, MaekawaSystem.handleRelease]
      split <;> simp

theorem CallStep.of_eq {call call' : MaekawaCall} (hspares : a.Spares n)
    (heq : call' = call) : CallStep c n a call call' :=
  .stays hspares (by rw [heq]) (by rw [heq])

private theorem callStep_act {a : MaekawaAction} (hstep : s.step c a = some s')
    (n : NodeId) : CallStep c n (.act a) (s.node n).call (s'.node n).call := by
  have hsame : ∀ {j : NodeId} {m : MaekawaNode}, m.call = (s.node j).call →
      ((s.setNode j m).node n).call = (s.node n).call :=
    fun hm => field_setNode s (·.call) hm n
  cases step_cases hstep with
  | @requestCs m resource hm hidle =>
      rw [call_setNode]
      by_cases hn : n = m
      · subst hn
        rw [if_pos rfl, hidle]
        exact .requests resource
      · rw [if_neg hn]
        exact .of_eq ⟨by simp [TimedAction.requests, Ne.symm hn], fun _ => rfl,
          rfl, rfl⟩ rfl
  | @sendRequest m target resource targets hcall hmem =>
      rw [call_send, call_setNode]
      by_cases hn : n = m
      · subst hn
        rw [if_pos rfl, hcall]
        exact .asks hmem
      · rw [if_neg hn]
        exact .of_eq ⟨rfl, fun v => by simp [TimedAction.asks, Ne.symm hn], rfl,
          rfl⟩ rfl
  | @wait m resource hcall =>
      have hspares : (TimedAction.act (.wait m)).Spares n :=
        ⟨rfl, fun _ => rfl, rfl, rfl⟩
      rw [call_setNode]
      split
      · next hn =>
        subst hn
        rw [hcall]
        dsimp only
        split
        · exact .stays hspares rfl (by simp)
        · exact .stays hspares rfl (by simp)
      · exact .of_eq hspares rfl
  | @enter m hcall =>
      have hspares : (TimedAction.act (.enter m)).Spares n :=
        ⟨rfl, fun _ => rfl, rfl, rfl⟩
      rw [call_setNode]
      split
      · next hn =>
        subst hn
        rw [hcall]
        exact .stays hspares rfl (by simp)
      · exact .of_eq hspares rfl
  | @releaseCs m hcall =>
      rw [call_setNode]
      by_cases hn : n = m
      · subst hn
        rw [if_pos rfl, hcall]
        exact .releases
      · rw [if_neg hn]
        exact .of_eq ⟨rfl, fun _ => rfl,
          by simp [TimedAction.releases, Ne.symm hn], rfl⟩ rfl
  | sendRelease =>
      refine .of_eq ⟨rfl, fun _ => rfl, rfl, rfl⟩ ?_
      rw [call_send]
      exact hsame rfl
  | deliver =>
      refine .of_eq ⟨rfl, fun _ => rfl, rfl, rfl⟩ ?_
      rw [node_setLink]
      exact hsame rfl
  | @handle i j msg htask =>
      have hspares : (TimedAction.act (.handle i j)).Spares n :=
        ⟨rfl, fun _ => rfl, rfl, rfl⟩
      rcases call_handle (c := c) (s.setHandler i j none) i j msg n with heq | heq
      · exact .of_eq hspares heq
      · rw [heq]
        exact .stays hspares (targets_wake _) wake_eq_idle
  | sendRelinquish =>
      refine .of_eq ⟨rfl, fun _ => rfl, rfl, rfl⟩ ?_
      rw [call_send]
      rfl
  | tick => exact .of_eq ⟨rfl, fun _ => rfl, rfl, rfl⟩ (hsame rfl)

theorem callStep (hstep : s.timedStep c a = some s') (n : NodeId) :
    CallStep c n a (s.node n).call (s'.node n).call := by
  cases a with
  | act a => exact callStep_act hstep n
  | timeout m =>
      obtain ⟨hcall, heq⟩ := Option.ite_none_right_eq_some.mp hstep
      cases heq
      rw [call_setNode]
      by_cases hn : n = m
      · subst hn
        rw [if_pos rfl, hcall]
        exact .timesOut
      · rw [if_neg hn]
        exact .of_eq ⟨rfl, fun _ => rfl, rfl,
          by simp [TimedAction.timesOut, Ne.symm hn]⟩ rfl

theorem asked_step (hstep : s.timedStep c a = some s') :
    (s'.node n).call.targets.count v + (if a.asks n v then 1 else 0) =
      (s.node n).call.targets.count v +
        if a.requests n then (c.quorum n).count v else 0 := by
  have hcase := callStep hstep n
  generalize (s.node n).call = call at hcase ⊢
  generalize (s'.node n).call = call' at hcase ⊢
  cases hcase with
  | requests resource =>
      simp [TimedAction.requests, TimedAction.asks, MaekawaCall.targets]
  | @asks resource targets target hmem =>
      have hcount := List.count_erase (a := v) (b := target) (l := targets)
      have hpos := List.count_pos_iff.mpr hmem
      simp only [TimedAction.requests, TimedAction.asks, MaekawaCall.targets,
        hcount, beq_iff_eq]
      by_cases hv : target = v
      · subst hv
        simp
        omega
      · simp [hv]
  | releases => simp [TimedAction.requests, TimedAction.asks, MaekawaCall.targets]
  | timesOut => simp [TimedAction.requests, TimedAction.asks, MaekawaCall.targets]
  | stays hspares htargets => simp [htargets, hspares.requests, hspares.asks]

theorem active_step (hstep : s.timedStep c a = some s') :
    (if (s'.node n).call = .idle then 0 else 1) +
        ((if a.timesOut n then 1 else 0) + (if a.releases n then 1 else 0)) =
      (if (s.node n).call = .idle then 0 else 1) + (if a.requests n then 1 else 0) := by
  have hcase := callStep hstep n
  generalize (s.node n).call = call at hcase ⊢
  generalize (s'.node n).call = call' at hcase ⊢
  cases hcase with
  | requests resource =>
      simp [TimedAction.requests, TimedAction.timesOut, TimedAction.releases]
  | asks => simp [TimedAction.requests, TimedAction.timesOut, TimedAction.releases]
  | releases =>
      simp [TimedAction.requests, TimedAction.timesOut, TimedAction.releases]
  | timesOut =>
      simp [TimedAction.requests, TimedAction.timesOut, TimedAction.releases]
  | stays hspares _ hidle =>
      simp [hidle, hspares.requests, hspares.timesOut, hspares.releases]

theorem idle_step (hidle : (s.node n).call = .idle) (hcall : a.isCallOf n = false)
    (hstep : s.timedStep c a = some s') :
    (s'.node n).call = .idle := by
  have hcase := callStep hstep n
  rw [hidle] at hcase
  generalize (s'.node n).call = call' at hcase ⊢
  cases hcase with
  | requests resource => simp [TimedAction.isCallOf] at hcall
  | stays _ _ hiff => exact hiff.mpr rfl

end Caller

end MaekawaSystem

end DistributedMemory.Mutex
