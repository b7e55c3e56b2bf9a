import DistributedMemory.Mutex.TimedRequests

/-!
# Votes for requests that timed out

A request that a voter has handled is its vote or an entry of its queue from then on,
also when the node has given up: a RELINQUISH moves it between the two, and only a
RELEASE that comes while the voter has voted for the node takes it away.  So in every
run the requests of a node to a voter are on their way, at the voter, or freed.

A node sends a RELEASE for each request that it got in with, and none for one that
timed out.  As long as every RELEASE finds the vote of its sender, the requests that
timed out stay.
-/

namespace DistributedMemory.Mutex

open DistributedMemory.Library DistributedMemory.Network

def MaekawaExclusion.traces (m : MaekawaExclusion) (n : NodeId) : Nat :=
  (if m.voted.map (·.requester) = some n then 1 else 0) +
    m.requestQueue.countP fun r => r.requester = n

namespace MaekawaSystem

/-- The step is `_handle_release` at `v` while the vote of `v` is that of `n`. -/
def frees (n v : NodeId) (s : MaekawaSystem) : TimedAction → Bool
  | .act (.handle i j) =>
      match (s.link i j).handler with
      | some (.received (.release _)) =>
          j = v && (s.node j).mutex.voted.map (·.requester) = some n
      | _ => false
  | _ => false

/-- The step is `_handle_release` at `v` of a RELEASE that `n` has sent. -/
def handlesRelease (n v : NodeId) (s : MaekawaSystem) : TimedAction → Bool
  | .act (.handle i j) =>
      match (s.link i j).handler with
      | some (.received (.release _)) => i = n && j = v
      | _ => false
  | _ => false

/-- A RELEASE of another node comes to `v` while the vote is that of `n`. -/
def strays (n v : NodeId) (s : MaekawaSystem) (a : TimedAction) : Bool :=
  s.frees n v a && !s.handlesRelease n v a

/-- A RELEASE of `n` comes to `v` while the vote is not that of `n`. -/
def wasted (n v : NodeId) (s : MaekawaSystem) (a : TimedAction) : Bool :=
  s.handlesRelease n v a && !s.frees n v a

def outstanding (s : MaekawaSystem) (n v : NodeId) : Nat :=
  (s.link n v).total MaekawaTask.request + (s.node v).mutex.traces n

/-! ## One step -/

section Outstanding

variable {c : QuorumSystem} (s : MaekawaSystem) {j n v : NodeId}

theorem outstanding_setNode {m : MaekawaNode}
    (hm : m.mutex.traces n = (s.node j).mutex.traces n) :
    (s.setNode j m).outstanding n v = s.outstanding n v := by
  have hnode := field_setNode s (m := m) (·.mutex.traces n) hm v
  simp only [outstanding, link_setNode, hnode]

theorem outstanding_setMutex {m : MaekawaExclusion}
    (hm : m.traces n = (s.node j).mutex.traces n) :
    (s.setMutex j m).outstanding n v = s.outstanding n v :=
  outstanding_setNode s hm

theorem outstanding_setMutex_more {m : MaekawaExclusion} {more : Nat}
    (hm : m.traces n = (s.node j).mutex.traces n + more) :
    (s.setMutex j m).outstanding n v =
      s.outstanding n v + if v = j then more else 0 := by
  simp only [outstanding, link_setMutex, mutex_setMutex]
  by_cases hv : v = j
  · subst hv
    simp only [if_true, hm, Nat.add_assoc]
  · simp only [if_neg hv, Nat.add_zero]

theorem outstanding_setMutex_less {m : MaekawaExclusion} {less : Nat}
    (hm : m.traces n + less = (s.node j).mutex.traces n) :
    (s.setMutex j m).outstanding n v + (if v = j then less else 0) =
      s.outstanding n v := by
  simp only [outstanding, link_setMutex, mutex_setMutex]
  by_cases hv : v = j
  · subst hv
    simp only [if_true, ← hm, Nat.add_assoc]
  · simp only [if_neg hv, Nat.add_zero]

theorem outstanding_send (target : NodeId) (msg : MaekawaMsg) :
    (s.send j target msg).outstanding n v = s.outstanding n v +
      if n = j ∧ v = target then MaekawaTask.request (.received msg) else 0 := by
  simp only [outstanding, mutex_send, total_send]
  omega

theorem outstanding_setHandler {i : NodeId} {task : MaekawaTask}
    (htask : (s.link i j).handler = some task) :
    s.outstanding n v = (s.setHandler i j none).outstanding n v +
      if v = j then if n = i then task.request else 0 else 0 := by
  simp only [outstanding, node_setHandler, total_setHandler s htask,
    and_comm (a := n = i), ite_and]
  omega

theorem traces_enqueue (m : MaekawaExclusion) (r : MaekawaRequest) :
    (m.enqueue r).traces n = m.traces n + if n = r.requester then 1 else 0 := by
  simp only [MaekawaExclusion.traces, countP_enqueue, Nat.add_assoc]
  rfl

theorem traces_clearVote (m : MaekawaExclusion) :
    m.clearVote.traces n +
        (if m.voted.map (·.requester) = some n then 1 else 0) = m.traces n := by
  simp [MaekawaExclusion.traces, MaekawaExclusion.clearVote, Nat.add_comm]

theorem outstanding_grantVote (hfree : (s.node j).mutex.voted = none)
    (r : MaekawaRequest) :
    (s.grantVote j r).outstanding n v = s.outstanding n v +
      if v = j then if n = r.requester then 1 else 0 else 0 := by
  have htraces : ({ (s.node j).mutex with
      voted := some r, inquireSent := false } : MaekawaExclusion).traces n =
      (s.node j).mutex.traces n + if n = r.requester then 1 else 0 := by
    simp [MaekawaExclusion.traces, hfree, eq_comm (a := n), Nat.add_comm]
  rw [MaekawaSystem.grantVote, outstanding_send,
    outstanding_setMutex_more s htraces]
  simp [MaekawaTask.request]

theorem outstanding_grantNext (hfree : (s.node j).mutex.voted = none) :
    (s.grantNext j).outstanding n v = s.outstanding n v := by
  unfold MaekawaSystem.grantNext
  cases hqueue : (s.node j).mutex.requestQueue with
  | nil => rfl
  | cons r rest =>
      have htraces : ({ (s.node j).mutex with requestQueue := rest } :
          MaekawaExclusion).traces n + (if n = r.requester then 1 else 0) =
          (s.node j).mutex.traces n := by
        simp [MaekawaExclusion.traces, hqueue, List.countP_cons,
          eq_comm (a := n), Nat.add_assoc]
      have hfree' : ((s.setMutex j
          { (s.node j).mutex with requestQueue := rest }).node j).mutex.voted =
          none := by
        rw [mutex_setMutex_self]
        exact hfree
      dsimp only
      rw [outstanding_grantVote _ hfree', outstanding_setMutex_less s htraces]

private theorem outstanding_handleRequest (sender : NodeId) (resource : Resource)
    (reqTs : Nat) :
    (s.handleRequest j sender resource reqTs).outstanding n v =
      s.outstanding n v + if v = j then if n = sender then 1 else 0 else 0 := by
  have htraces := traces_enqueue (n := n) (s.node j).mutex
    ⟨reqTs, sender, resource⟩
  unfold MaekawaSystem.handleRequest
  dsimp only
  split
  · next hfree => exact outstanding_grantVote s hfree _
  · split
    · have hqueued := outstanding_setMutex_more s (v := v)
        (m := { (s.node j).mutex.enqueue ⟨reqTs, sender, resource⟩ with
          inquireSent := true }) htraces
      rw [outstanding_send, hqueued]
      simp [MaekawaTask.request]
    · rw [outstanding_send, outstanding_setMutex_more s htraces]
      simp [MaekawaTask.request]

private theorem outstanding_handleRelinquish :
    (s.handleRelinquish j).outstanding n v = s.outstanding n v := by
  cases hvoted : (s.node j).mutex.voted with
  | none =>
      cases hqueue : (s.node j).mutex.requestQueue with
      | nil =>
          have htraces := traces_clearVote (n := n) (s.node j).mutex
          rw [hvoted] at htraces
          have hclear : s.handleRelinquish j =
              s.setMutex j (s.node j).mutex.clearVote := by
            simp only [handleRelinquish, hvoted, hqueue]
          rw [hclear, outstanding_setMutex s htraces]
      | cons r rest =>
          have hnext : s.handleRelinquish j = s.grantNext j := by
            simp only [handleRelinquish, hvoted, MaekawaSystem.grantNext, hqueue]
          rw [hnext, outstanding_grantNext s hvoted]
  | some old =>
      have htraces : ((s.node j).mutex.enqueue old).clearVote.traces n =
          (s.node j).mutex.traces n := by
        have hclear := traces_clearVote (n := n) ((s.node j).mutex.enqueue old)
        rw [traces_enqueue] at hclear
        have hold : ((s.node j).mutex.enqueue old).voted = some old := hvoted
        simp only [hold, Option.map_some, Option.some.injEq,
          eq_comm (b := n)] at hclear
        omega
      rw [handleRelinquish_eq hvoted, outstanding_grantNext,
        outstanding_setMutex s htraces]
      · rw [mutex_setMutex_self]
        rfl

private theorem outstanding_handleRelease :
    (s.handleRelease j).outstanding n v +
        (if v = j then
          if (s.node j).mutex.voted.map (·.requester) = some n then 1 else 0
          else 0) = s.outstanding n v := by
  rw [handleRelease_eq, outstanding_grantNext,
    outstanding_setMutex_less s (traces_clearVote _)]
  rw [mutex_setMutex_self]
  rfl

private theorem outstanding_handleLocked (needed : Nat) (voter : NodeId) :
    (handleLocked needed s j voter).outstanding n v = s.outstanding n v :=
  outstanding_setNode s rfl

private theorem outstanding_deliver {i : NodeId} {packet : MaekawaPacket}
    {rest : List MaekawaPacket} (hqueue : (s.link i j).queue = packet :: rest)
    (hhandler : (s.link i j).handler = none) :
    (s.setLink i j ⟨rest, some (.received packet.msg)⟩).outstanding n v =
      s.outstanding n v := by
  simp only [outstanding, total_deliver s hqueue hhandler, node_setLink]

theorem total_resume {i : NodeId} {task : MaekawaTask}
    (hhandler : (s.link i j).handler = none) (p q : NodeId)
    {weight : MaekawaTask → Nat} (htask : weight task = 0) :
    ((s.setHandler i j (some task)).link p q).total weight =
      (s.link p q).total weight := by
  simp only [setHandler, link_setLink]
  split
  · next heq =>
    obtain ⟨rfl, rfl⟩ := heq
    simp [MaekawaLink.total, hhandler, htask]
  · rfl

private theorem outstanding_resume {i : NodeId} {task : MaekawaTask}
    (hhandler : (s.link i j).handler = none) (htask : task.request = 0) :
    (s.setHandler i j (some task)).outstanding n v = s.outstanding n v := by
  simp only [outstanding, total_resume s hhandler n v htask, node_setHandler]

private theorem outstanding_handleInquire {i : NodeId}
    (hhandler : (s.link i j).handler = none) (resource : Resource)
    (voter : NodeId) :
    (s.handleInquire j i resource voter).outstanding n v =
      s.outstanding n v := by
  unfold MaekawaSystem.handleInquire
  split
  · set m := (s.node j).mutex.handleInquire voter
    have hset : (s.setMutex j m).outstanding n v = s.outstanding n v :=
      outstanding_setMutex s rfl
    have hresume : ((s.setMutex j m).setHandler i j
        (some (.relinquish voter resource))).outstanding n v =
        (s.setMutex j m).outstanding n v :=
      outstanding_resume _ hhandler rfl
    rw [hresume, hset]
  · rfl

private theorem outstanding_handle {i : NodeId} {msg : MaekawaMsg}
    (htask : (s.link i j).handler = some (.received msg)) :
    ((s.setHandler i j none).handle c i j msg).outstanding n v +
        (if s.frees n v (.act (.handle i j)) then 1 else 0) =
      s.outstanding n v := by
  have hdone := outstanding_setHandler s (n := n) (v := v) htask
  have hhandler : ((s.setHandler i j none).link i j).handler = none := by
    simp [setHandler, link_setLink]
  have hkeeps : (∀ resource, msg ≠ .release resource) →
      s.frees n v (.act (.handle i j)) = false := by
    intro hmsg
    cases msg <;> simp_all [frees]
  cases msg with
  | request resource reqTs =>
      rw [hkeeps (by simp), hdone]
      simp [MaekawaSystem.handle, outstanding_handleRequest,
        MaekawaTask.request]
  | locked resource voter =>
      rw [hkeeps (by simp), hdone]
      simp [MaekawaSystem.handle, outstanding_handleLocked, MaekawaTask.request]
  | failed resource =>
      rw [hkeeps (by simp), hdone]
      simp [MaekawaSystem.handle, MaekawaTask.request]
  | inquire resource voter =>
      rw [hkeeps (by simp), hdone]
      simp [MaekawaSystem.handle, outstanding_handleInquire _ hhandler,
        MaekawaTask.request]
  | relinquish resource =>
      rw [hkeeps (by simp), hdone]
      simp [MaekawaSystem.handle, outstanding_handleRelinquish,
        MaekawaTask.request]
  | release resource =>
      have hrelease := outstanding_handleRelease (s.setHandler i j none)
        (j := j) (n := n) (v := v)
      rw [hdone, ← hrelease]
      simp [MaekawaSystem.handle, frees, htask, MaekawaTask.request, ite_and,
        eq_comm (a := j)]

end Outstanding

section Step

variable {c : QuorumSystem} {s s' t : MaekawaSystem} {a : TimedAction}
  {n v : NodeId}

private theorem outstanding_act {a : MaekawaAction} (hstep : s.step c a = some s') :
    s'.outstanding n v + (if s.frees n v (.act a) then 1 else 0) =
      s.outstanding n v + if TimedAction.asks n v (.act a) then 1 else 0 := by
  cases step_cases hstep with
  | requestCs => exact outstanding_setNode s rfl
  | @sendRequest m target resource targets hcall hmem =>
      have hset := outstanding_setNode s (j := m) (n := n) (v := v)
        (m := { s.node m with
          call := .asking resource (targets.erase target) }) rfl
      rw [outstanding_send, hset]
      simp [frees, TimedAction.asks, MaekawaTask.request,
        eq_comm (a := n), eq_comm (a := v)]
  | wait => exact outstanding_setNode s rfl
  | enter => exact outstanding_setNode s rfl
  | releaseCs => exact outstanding_setNode s rfl
  | @sendRelease m target resource hmem =>
      have hset := outstanding_setNode s (j := m) (n := n) (v := v)
        (m := { s.node m with
          releasing := (s.node m).releasing.erase (target, resource) }) rfl
      rw [outstanding_send, hset]
      simp [frees, TimedAction.asks, MaekawaTask.request]
  | @deliver i j packet rest hqueue hhandler =>
      have hset := outstanding_setNode s (j := j) (n := n) (v := v)
        (m := { s.node j with
          clock := (s.node j).clock.update packet.timestamp }) rfl
      have hmoved := outstanding_deliver (s.setNode j { s.node j with
        clock := (s.node j).clock.update packet.timestamp }) (n := n) (v := v)
        hqueue hhandler
      rw [hmoved, hset]
      rfl
  | handle htask => exact outstanding_handle s htask
  | sendRelinquish htask =>
      rw [outstanding_send, outstanding_setHandler s htask]
      simp [frees, TimedAction.asks, MaekawaTask.request]
  | tick => exact outstanding_setNode s rfl

private theorem outstanding_step (hstep : s.timedStep c a = some s') :
    s'.outstanding n v + (if s.frees n v a then 1 else 0) =
      s.outstanding n v + (if a.asks n v then 1 else 0) := by
  cases a with
  | act a => exact outstanding_act hstep
  | timeout m =>
      obtain ⟨-, heq⟩ := Option.ite_none_right_eq_some.mp hstep
      cases heq
      exact outstanding_setNode s rfl

end Step

/-! ## The releases of a node -/

section Releases

variable {c : QuorumSystem} {s s' t : MaekawaSystem} {a : TimedAction}
  {n v : NodeId}

/-- The RELEASEs of `n` for `v` that are still to send, or on their way. -/
def unreleased (s : MaekawaSystem) (n v : NodeId) : Nat :=
  ((s.node n).releasing.countP fun r => r.1 = v) +
    (s.link n v).total MaekawaTask.release

theorem unreleased_setNode {j : NodeId} {m : MaekawaNode}
    (hm : m.releasing = (s.node j).releasing) :
    (s.setNode j m).unreleased n v = s.unreleased n v := by
  simp only [unreleased, link_setNode, field_setNode s (m := m) (·.releasing) hm]

theorem unreleased_setMutex (j : NodeId) (m : MaekawaExclusion) :
    (s.setMutex j m).unreleased n v = s.unreleased n v :=
  unreleased_setNode rfl

theorem unreleased_send (j target : NodeId) (msg : MaekawaMsg) :
    (s.send j target msg).unreleased n v = s.unreleased n v +
      if n = j ∧ v = target then MaekawaTask.release (.received msg) else 0 := by
  simp only [unreleased, releasing_send, total_send, Nat.add_assoc]

theorem unreleased_setHandler {i j : NodeId} {task : MaekawaTask}
    (htask : (s.link i j).handler = some task) :
    s.unreleased n v = (s.setHandler i j none).unreleased n v +
      if n = i ∧ v = j then task.release else 0 := by
  simp only [unreleased, node_setHandler, total_setHandler s htask, Nat.add_assoc]

theorem unreleased_grantVote (j : NodeId) (r : MaekawaRequest) :
    (s.grantVote j r).unreleased n v = s.unreleased n v := by
  rw [MaekawaSystem.grantVote, unreleased_send, unreleased_setMutex]
  simp [MaekawaTask.release]

private theorem unreleased_handle {i j : NodeId} (hhandler : (s.link i j).handler = none)
    (msg : MaekawaMsg) :
    (s.handle c i j msg).unreleased n v = s.unreleased n v := by
  cases msg with
  | request resource reqTs =>
      simp only [MaekawaSystem.handle, MaekawaSystem.handleRequest]
      split
      · exact unreleased_grantVote _ _
      · split <;>
          simp [unreleased_send, unreleased_setMutex, MaekawaTask.release]
  | locked resource voter =>
      simp only [MaekawaSystem.handle, MaekawaSystem.handleLocked]
      exact unreleased_setNode rfl
  | failed resource => rfl
  | inquire resource voter =>
      simp only [MaekawaSystem.handle, MaekawaSystem.handleInquire]
      split
      · set m := (s.node j).mutex.handleInquire voter
        have htask : MaekawaTask.release (.relinquish voter resource) = 0 := rfl
        have htotal := total_resume (s.setMutex j m) hhandler n v htask
        rw [← unreleased_setMutex (s := s) j m]
        simp only [unreleased, htotal, node_setHandler]
      · rfl
  | relinquish resource =>
      simp only [MaekawaSystem.handle, MaekawaSystem.handleRelinquish]
      split <;> simp only [unreleased_grantVote, unreleased_setMutex]
  | release resource =>
      simp only [MaekawaSystem.handle, MaekawaSystem.handleRelease]
      split <;> simp only [unreleased_grantVote, unreleased_setMutex]

private theorem unreleased_act {a : MaekawaAction} (hstep : s.step c a = some s') :
    s'.unreleased n v + (if s.handlesRelease n v (.act a) then 1 else 0) =
      s.unreleased n v +
        if TimedAction.releases n (.act a) then (c.quorum n).count v else 0 := by
  cases step_cases hstep with
  | requestCs => exact unreleased_setNode rfl
  | @sendRequest m target resource targets hcall hmem =>
      have hset : (s.setNode m { s.node m with
          call := .asking resource (targets.erase target) }).unreleased n v =
          s.unreleased n v := unreleased_setNode rfl
      rw [unreleased_send, hset]
      simp [handlesRelease, TimedAction.releases, MaekawaTask.release]
  | wait => exact unreleased_setNode rfl
  | enter => exact unreleased_setNode rfl
  | @releaseCs m hcall =>
      simp only [unreleased, link_setNode, node_setNode, handlesRelease,
        TimedAction.releases]
      by_cases hn : n = m
      · subst hn
        rw [if_pos rfl, List.countP_append, countP_releases, (c.distinct n).count]
        simp only [decide_true, if_true, Bool.false_eq_true, if_false]
        omega
      · simp [hn, Ne.symm hn]
  | @sendRelease m target resource hmem =>
      have hperm := (List.perm_cons_erase hmem).countP_eq fun r => r.1 = v
      rw [List.countP_cons] at hperm
      simp only [unreleased, releasing_send, total_send, link_setNode,
        node_setNode, MaekawaTask.release, handlesRelease, TimedAction.releases]
      by_cases hn : n = m
      · subst hn
        simp only [decide_eq_true_eq, eq_comm (a := target)] at hperm
        simp only [if_true, true_and, hperm, Bool.false_eq_true, if_false]
        omega
      · simp [hn]
  | @deliver i j packet rest hqueue hhandler =>
      set clock := (s.node j).clock.update packet.timestamp
      have hset : (s.setNode j { s.node j with clock := clock }).unreleased n v =
          s.unreleased n v := unreleased_setNode rfl
      rw [← hset]
      simp only [unreleased, handlesRelease, TimedAction.releases, node_setLink,
        total_deliver (s.setNode j { s.node j with clock := clock }) hqueue hhandler]
      rfl
  | @handle i j msg htask =>
      have hhandler : ((s.setHandler i j none).link i j).handler = none := by
        simp [setHandler, link_setLink]
      rw [unreleased_handle hhandler, unreleased_setHandler htask]
      cases msg <;>
        simp [handlesRelease, htask, TimedAction.releases, MaekawaTask.release,
          eq_comm (a := n), eq_comm (a := v)]
  | sendRelinquish htask =>
      rw [unreleased_send, unreleased_setHandler htask]
      simp [handlesRelease, TimedAction.releases, MaekawaTask.release]
  | tick => exact unreleased_setNode rfl

private theorem unreleased_step (hstep : s.timedStep c a = some s') :
    s'.unreleased n v + (if s.handlesRelease n v a then 1 else 0) =
      s.unreleased n v + if a.releases n then (c.quorum n).count v else 0 := by
  cases a with
  | act a => exact unreleased_act hstep
  | timeout m =>
      obtain ⟨-, heq⟩ := Option.ite_none_right_eq_some.mp hstep
      cases heq
      exact unreleased_setNode rfl

end Releases

/-! ## Every run -/

section Run

variable {c : QuorumSystem} {s s' t : MaekawaSystem} {a : TimedAction}
  {n v : NodeId}

private theorem run_idle {actions : List TimedAction} (hidle : (s.node n).call = .idle)
    (hcall : ∀ a ∈ actions, a.isCallOf n = false)
    (hrun : run (timedStep c) s actions = some t) : (t.node n).call = .idle :=
  run_invariant (I := fun s => (s.node n).call = .idle)
    (fun _ _ _ h hok hstep => idle_step h hok hstep) hidle
    (along_of_forall_mem hcall s) hrun

/-- No message is in flight, and no handler runs. -/
def Quiet (s : MaekawaSystem) : Prop := ∀ i j, s.link i j = ⟨[], none⟩

/-- The vote of `v` is that of `n`, or its queue has a request of `n`. -/
def Keeps (s : MaekawaSystem) (v n : NodeId) : Prop :=
  (s.node v).mutex.voted.map (·.requester) = some n ∨
    ∃ r ∈ (s.node v).mutex.requestQueue, r.requester = n

theorem traces_eq_zero_iff :
    (s.node v).mutex.traces n = 0 ↔ ¬ s.Keeps v n := by
  simp only [MaekawaExclusion.traces, Keeps, Nat.add_eq_zero_iff,
    List.countP_eq_zero, decide_eq_true_eq, not_or, not_exists, not_and]
  by_cases hvoted : (s.node v).mutex.voted.map (·.requester) = some n <;>
    simp [hvoted]

/-- Every request of `n` to `v` is on its way, at `v` or freed. -/
theorem run_outstanding {actions : List TimedAction}
    (hrun : run (timedStep c) new actions = some t) :
    t.outstanding n v + countAlong (timedStep c) (frees n v) new actions =
      actions.countP (TimedAction.asks n v) := by
  have hsum := run_conserves (f := fun s => s.outstanding n v)
    (fun _ _ _ hstep => outstanding_step hstep) hrun
  have hstart : new.outstanding n v = 0 := rfl
  rw [hstart, sumAlong_ite hrun, Nat.mul_one, Nat.zero_add] at hsum
  exact hsum

private theorem countAlong_frees (actions : List TimedAction) :
    countAlong (timedStep c) (frees n v) s actions +
        countAlong (timedStep c) (wasted n v) s actions =
      countAlong (timedStep c) (strays n v) s actions +
        countAlong (timedStep c) (handlesRelease n v) s actions := by
  simp only [countAlong, ← sumAlong_add]
  congr 1
  funext s a
  cases hfrees : s.frees n v a with
  | false => simp [strays, wasted, hfrees]
  | true =>
      cases hhandles : s.handlesRelease n v a <;>
        simp [strays, wasted, hfrees, hhandles]

/-- An idle node has asked each voter of its quorum once for each call that timed
out, and once for each call that it has released. -/
theorem run_asked {actions : List TimedAction}
    (hrun : run (timedStep c) new actions = some t)
    (hidle : (t.node n).call = .idle) :
    actions.countP (TimedAction.asks n v) =
      (actions.countP (TimedAction.timesOut n) +
        actions.countP (TimedAction.releases n)) * (c.quorum n).count v := by
  have hasked := run_conserves (f := fun s => (s.node n).call.targets.count v)
    (fun _ _ _ hstep => asked_step (v := v) hstep) hrun
  have hactive := run_conserves
    (f := fun s => if (s.node n).call = .idle then 0 else 1)
    (fun _ _ _ hstep => active_step (n := n) hstep) hrun
  have hstart : (new.node n).call.targets.count v = 0 := rfl
  have hend : (t.node n).call.targets.count v = 0 := by rw [hidle]; rfl
  have hnew : (new.node n).call = .idle := rfl
  rw [sumAlong_add, sumAlong_ite hrun, sumAlong_ite hrun, sumAlong_ite hrun,
    if_pos hidle, if_pos hnew] at hactive
  simp only [Nat.mul_one, Nat.zero_add] at hactive
  rw [hstart, hend, sumAlong_ite hrun, sumAlong_ite hrun, Nat.mul_one,
    Nat.zero_add, Nat.zero_add, ← hactive] at hasked
  exact hasked

/-- Each RELEASE of `n` is handled, on its way or still to send. -/
theorem run_unreleased {actions : List TimedAction}
    (hrun : run (timedStep c) new actions = some t) :
    t.unreleased n v + countAlong (timedStep c) (handlesRelease n v) new actions =
      actions.countP (TimedAction.releases n) * (c.quorum n).count v := by
  have hsum := run_conserves (f := fun s => s.unreleased n v)
    (fun _ _ _ hstep => unreleased_step hstep) hrun
  have hstart : new.unreleased n v = 0 := rfl
  rw [hstart, sumAlong_ite hrun, Nat.zero_add] at hsum
  exact hsum

/-- What a voter keeps of an idle node, and the strays that took some of it away. -/
theorem run_traces {actions : List TimedAction}
    (hrun : run (timedStep c) new actions = some t)
    (hidle : (t.node n).call = .idle) (hquiet : t.Quiet) (v : NodeId) :
    (t.node v).mutex.traces n + countAlong (timedStep c) (strays n v) new actions =
      actions.countP (TimedAction.timesOut n) * (c.quorum n).count v +
        countAlong (timedStep c) (wasted n v) new actions +
        (t.node n).releasing.countP fun r => r.1 = v := by
  have hsent := run_outstanding (n := n) (v := v) hrun
  have hreleased := run_unreleased (n := n) (v := v) hrun
  have hsplit := countAlong_frees (c := c) (s := new) (n := n) (v := v) actions
  rw [run_asked hrun hidle, Nat.add_mul] at hsent
  simp only [outstanding, unreleased, hquiet n v, MaekawaLink.total,
    MaekawaLink.weigh, Option.elim_none, Nat.zero_add, Nat.add_zero]
    at hsent hreleased
  omega

private theorem strays_eq_false (h : s.TimedInv c) (a : TimedAction) :
    s.strays n v a = false := by
  cases hfrees : s.frees n v a with
  | false => simp [strays, hfrees]
  | true =>
      unfold frees at hfrees
      split at hfrees
      · next i j =>
        split at hfrees
        · next resource htask =>
          simp only [Bool.and_eq_true, decide_eq_true_eq] at hfrees
          obtain ⟨rfl, hvoted⟩ := hfrees
          rw [h.voted_of_release htask] at hvoted
          cases hvoted
          simp [strays, handlesRelease, htask]
        · cases hfrees
      · cases hfrees

/--
In a state with no message in flight, after a `request_cs` of `n` timed out, its last
mutex call so far: no voter keeps a vote or a queue entry for `n` exactly when each
voter of its quorum has freed the vote of `n`, for RELEASEs of other nodes, once for
each call that timed out and for each RELEASE of `n` that was wasted or is not sent.

In a run in which no node gives a vote back between the return of its
`_cs_event.wait` and the section that sets `_in_cs`, every voter of the quorum keeps
one.
-/
theorem run_timeout_votes_iff {before after : List TimedAction}
    (hrun : run (timedStep c) new (before ++ .timeout n :: after) = some t)
    (hcall : ∀ a ∈ after, a.isCallOf n = false) (hquiet : t.Quiet) :
    ((∀ v, ¬ t.Keeps v n) ↔ ∀ v ∈ c.quorum n,
      countAlong (timedStep c) (strays n v) new (before ++ .timeout n :: after) =
        (before ++ .timeout n :: after).countP (TimedAction.timesOut n) +
          countAlong (timedStep c) (wasted n v) new
            (before ++ .timeout n :: after) +
          (t.node n).releasing.countP fun r => r.1 = v) ∧
    (Along (timedStep c) (fun s a => s.calm a = true) new
        (before ++ .timeout n :: after) →
      c.quorum n ≠ [] ∧ ∀ v ∈ c.quorum n, t.Keeps v n) := by
  obtain ⟨s, hbefore, hrest⟩ := run_append.mp hrun
  obtain ⟨s₁, htimeout, hafter⟩ := run_cons.mp hrest
  have hidle : (t.node n).call = .idle := by
    refine run_idle ?_ hcall hafter
    obtain ⟨-, heq⟩ := Option.ite_none_right_eq_some.mp htimeout
    cases heq
    rw [call_setNode, if_pos rfl]
  have htraces := run_traces hrun hidle hquiet
  have hone : 0 < (before ++ .timeout n :: after).countP (TimedAction.timesOut n) :=
    List.countP_pos_iff.mpr ⟨.timeout n, by simp, by simp [TimedAction.timesOut]⟩
  refine ⟨⟨fun hnone v hv => ?_, fun hall v => ?_⟩, fun hok => ⟨?_, fun v hv => ?_⟩⟩
  · have hcount := htraces v
    rw [traces_eq_zero_iff.mpr (hnone v), List.count_eq_one_of_mem (c.distinct n) hv]
      at hcount
    omega
  · rw [← traces_eq_zero_iff]
    by_cases hv : v ∈ c.quorum n
    · have hcount := htraces v
      rw [List.count_eq_one_of_mem (c.distinct n) hv, hall v hv] at hcount
      omega
    · -- a node that was not asked has nothing
      have hsent := run_outstanding (n := n) (v := v) hrun
      rw [run_asked hrun hidle, List.count_eq_zero_of_not_mem hv] at hsent
      simp only [outstanding] at hsent
      omega
  · have hinv : s.TimedInv c := run_invariant (fun _ _ _ h hok hstep =>
      h.step hok hstep) (timedInv_new c) hok.of_append hbefore
    obtain ⟨hwaiting, -⟩ := Option.ite_none_right_eq_some.mp htimeout
    have hmem := (hinv.node n).caller (by rw [hwaiting]; simp)
    obtain ⟨v, hv, -⟩ := c.intersect n hmem n hmem
    exact List.ne_nil_of_mem hv
  · have hnone : countAlong (timedStep c) (strays n v) new
        (before ++ .timeout n :: after) = 0 :=
      countAlong_eq_zero (fun _ _ _ h hok hstep => TimedInv.step h hok hstep)
        (fun s a h => strays_eq_false h a) (timedInv_new c) hok
    have hcount := htraces v
    rw [hnone, List.count_eq_one_of_mem (c.distinct n) hv] at hcount
    by_contra hkeeps
    rw [traces_eq_zero_iff.mpr hkeeps] at hcount
    omega

end Run

/-- Node 0 asks its quorum and waits. -/
def asksQuorum : List TimedAction :=
  [.act (.requestCs 0 "x"), .act (.sendRequest 0 0), .act (.sendRequest 0 1),
    .act (.sendRequest 0 3), .act (.wait 0)]

/-- The votes of the quorum, which come after the timeout. -/
def votesLate : List TimedAction :=
  [.act (.deliver 0 0), .act (.handle 0 0), .act (.deliver 0 1),
    .act (.handle 0 1), .act (.deliver 0 3), .act (.handle 0 3),
    .act (.deliver 0 0), .act (.handle 0 0), .act (.deliver 1 0),
    .act (.handle 1 0), .act (.deliver 3 0), .act (.handle 3 0)]

/-- With no message in flight and no other call, the three votes are still those of
node 0, which makes no further call. -/
theorem votesLate_kept :
    ∃ t, run (timedStep quorums) new
        (asksQuorum ++ .timeout 0 :: votesLate) = some t ∧
      (∀ a ∈ votesLate, a.isCallOf 0 = false) ∧ t.Quiet ∧
      (∀ m, (t.node m).call = .idle) ∧ ∀ v ∈ quorums.quorum 0, t.Keeps v 0 := by
  refine ⟨_, rfl, by decide, ?_, ?_, ?_⟩
  · intro i j
    rcases i with _ | _ | _ | _ | i <;> rcases j with _ | _ | _ | _ | j <;> rfl
  · intro m
    rcases m with _ | _ | _ | _ | m <;> rfl
  · intro v hv
    left
    simp only [quorums, getQuorum, List.mem_cons, List.not_mem_nil, or_false] at hv
    obtain rfl | rfl | rfl := hv <;> rfl

/-! ### A run in which other nodes free the votes -/

def asksAll (n : NodeId) (l : List NodeId) : List MaekawaAction :=
  l.flatMap fun v => [.sendRequest n v, .deliver n v, .handle n v]

def comes (n : NodeId) (l : List NodeId) : List MaekawaAction :=
  l.flatMap fun v => [.deliver v n, .handle v n]

def givesUp (n v : NodeId) : List MaekawaAction :=
  comes n [v] ++ .sendRelinquish v n :: comes v [n]

def entersAndReleases (n : NodeId) (l : List NodeId) : List MaekawaAction :=
  [.enter n, .releaseCs n] ++
    l.flatMap fun v => [.sendRelease n v (some "x"), .deliver n v, .handle n v]

/-- The vote of node 3 comes back from node 2, after its event was set, for node 0.
Node 2 enters all the same, and its RELEASE frees the vote. -/
def freedByTwo : List MaekawaAction :=
  [.requestCs 0 "x", .requestCs 2 "x"] ++ asksAll 2 [1, 2, 3] ++
    comes 2 [1, 2, 3] ++ [.wait 2] ++ asksAll 0 [3] ++ givesUp 2 3 ++
    entersAndReleases 2 [1, 2, 3]

/-- Node 1 does the same with the votes of nodes 1 and 0. -/
def freedByOne : List MaekawaAction :=
  [.requestCs 1 "x"] ++ asksAll 1 [0, 1, 2] ++ comes 1 [0, 1, 2] ++ [.wait 1] ++
    asksAll 0 [1] ++ givesUp 1 1 ++ asksAll 0 [0] ++ givesUp 1 0 ++
    entersAndReleases 1 [0, 1, 2]

def freedByOthers : List TimedAction :=
  (freedByTwo ++ freedByOne ++ [MaekawaAction.wait 0]).map .act

/-- The votes that are on their way when node 0 gives up. -/
def lastVotes : List TimedAction :=
  (comes 0 [0, 1, 3] ++ comes 1 [0, 1] ++ comes 2 [3]).map .act

set_option maxRecDepth 20000 in
theorem freedByOthers_not_kept :
    ∃ t, run (timedStep quorums) new
        (freedByOthers ++ .timeout 0 :: lastVotes) = some t ∧ t.Quiet ∧
      ∀ v, ¬ t.Keeps v 0 := by
  obtain ⟨t, hrun, hquiet, hnone⟩ : ∃ t, run (timedStep quorums) new
      (freedByOthers ++ .timeout 0 :: lastVotes) = some t ∧ t.Quiet ∧
      (t.node 0).releasing = [] := by
    refine ⟨_, rfl, ?_, rfl⟩
    intro i j
    rcases i with _ | _ | _ | _ | i <;> rcases j with _ | _ | _ | _ | j <;> rfl
  refine ⟨t, hrun, hquiet,
    (run_timeout_votes_iff hrun (by decide +kernel) hquiet).1.mpr ?_⟩
  intro v hv
  rw [hnone]
  have hvoter : v = 0 ∨ v = 1 ∨ v = 3 := by simpa [quorums, getQuorum] using hv
  obtain rfl | rfl | rfl := hvoter <;> decide +kernel

end MaekawaSystem

end DistributedMemory.Mutex
