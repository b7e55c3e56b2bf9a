import DistributedMemory.Library.Budget
import DistributedMemory.Mutex.MaekawaSafety

/-!
# What a request costs in Maekawa's algorithm

A REQUEST brings a LOCKED, a FAILED or an INQUIRE; an INQUIRE at most a RELINQUISH,
and that one LOCKED, as does a RELEASE.  So whatever is under way is worth a number
of further steps, and a run with a given number of calls comes to its end.
-/

namespace DistributedMemory.Mutex

open DistributedMemory.Library DistributedMemory.Network

/-- What each kind of step costs; `yield` is the send of a RELINQUISH. -/
structure MaekawaPrices where
  ask : Nat
  deliver : Nat
  handle : Nat
  yield : Nat
  wait : Nat
  enter : Nat
  leave : Nat
  release : Nat

namespace MaekawaAction

def calls : MaekawaAction → Bool
  | requestCs _ _ => true
  | _ => false

def delivers : MaekawaAction → Bool
  | deliver _ _ => true
  | _ => false

def ticks : MaekawaAction → Bool
  | tick _ _ => true
  | _ => false

end MaekawaAction

namespace MaekawaPrices

variable (c : MaekawaPrices)

def locked : Nat := c.deliver + c.handle

def relinquish : Nat := c.deliver + c.handle + c.locked

def inquire : Nat := c.deliver + c.handle + c.yield + c.relinquish

def follow : MaekawaMsg → Nat
  | .request _ _ => c.inquire
  | .inquire _ _ => c.yield + c.relinquish
  | .relinquish _ | .release _ => c.locked
  | .locked _ _ | .failed _ => 0

def task : MaekawaTask → Nat
  | .received msg => c.handle + c.follow msg
  | .relinquish _ _ => c.yield + c.relinquish

def asking : Nat := c.ask + c.deliver + c.handle + c.inquire

def releasing : Nat := c.release + c.deliver + c.handle + c.locked

/-- What a caller has still to pay for; `k` is the size of a quorum. -/
def call (k : Nat) : MaekawaCall → Nat
  | .idle => 0
  | .asking _ targets =>
      targets.length * c.asking + c.wait + c.enter + c.leave + k * c.releasing
  | .waiting | .woken => c.enter + c.leave + k * c.releasing
  | .inside => c.leave + k * c.releasing

def node (k : Nat) (m : MaekawaNode) : Nat :=
  c.call k m.call + m.releasing.length * c.releasing

/-- One call of `request_cs`. -/
def whole (k : Nat) : Nat :=
  k * (c.asking + c.releasing) + c.wait + c.enter + c.leave

def price : MaekawaAction → Nat
  | .sendRequest _ _ => c.ask
  | .deliver _ _ => c.deliver
  | .handle _ _ => c.handle
  | .sendRelinquish _ _ => c.yield
  | .wait _ => c.wait
  | .enter _ => c.enter
  | .releaseCs _ => c.leave
  | .sendRelease _ _ _ => c.release
  | .requestCs _ _ | .tick _ _ => 0

def income (k : Nat) (a : MaekawaAction) : Nat :=
  if a.calls then c.whole k else 0

/-- Every step but the calls of `request_cs` and the clock counts. -/
def steps : MaekawaPrices := ⟨1, 1, 1, 1, 1, 1, 1, 1⟩

def messages : MaekawaPrices := ⟨0, 1, 0, 0, 0, 0, 0, 0⟩

end MaekawaPrices

def MaekawaTask.Names (nodes : List NodeId) : MaekawaTask → Prop
  | .received (.inquire _ voter) => voter ∈ nodes
  | .relinquish voter _ => voter ∈ nodes
  | .received _ => True

namespace MaekawaSystem

/-! ## Nobody else has a part in it -/

/-- Whoever takes part is one of `nodes`. -/
structure Within (nodes : List NodeId) (s : MaekawaSystem) : Prop where
  caller : ∀ n, (s.node n).call ≠ .idle → n ∈ nodes
  targets : ∀ n, ∀ v ∈ (s.node n).call.targets, v ∈ nodes
  releasing : ∀ n, ∀ p ∈ (s.node n).releasing, n ∈ nodes ∧ p.1 ∈ nodes
  voted : ∀ n, ∀ r ∈ (s.node n).mutex.voted, r.requester ∈ nodes
  queued : ∀ n, ∀ r ∈ (s.node n).mutex.requestQueue, r.requester ∈ nodes
  handler : ∀ i j, ∀ task ∈ (s.link i j).handler,
    i ∈ nodes ∧ j ∈ nodes ∧ task.Names nodes
  queue : ∀ i j, ∀ packet ∈ (s.link i j).queue,
    i ∈ nodes ∧ j ∈ nodes ∧ (MaekawaTask.received packet.msg).Names nodes

section Within

variable {nodes : List NodeId} {s : MaekawaSystem} {n i j : NodeId}

theorem within_new (nodes : List NodeId) : new.Within nodes :=
  ⟨fun _ h => absurd rfl h, by simp [new, MaekawaCall.targets], by simp [new],
    by simp [new, MaekawaExclusion.new], by simp [new, MaekawaExclusion.new],
    by simp [new], by simp [new]⟩

theorem Within.send (h : s.Within nodes) (hn : n ∈ nodes) {target : NodeId}
    (htarget : target ∈ nodes) {msg : MaekawaMsg}
    (hmsg : (MaekawaTask.received msg).Names nodes) :
    (s.send n target msg).Within nodes := by
  refine ⟨?_, ?_, ?_, ?_, ?_, fun i j task htask => ?_, fun i j packet hmem => ?_⟩
  · simpa using h.caller
  · simpa using h.targets
  · simpa using h.releasing
  · simpa using h.voted
  · simpa using h.queued
  · simp only [MaekawaSystem.send, link_setLink, link_setNode] at htask
    split at htask
    · next heq =>
      obtain ⟨rfl, rfl⟩ := heq
      exact h.handler i j task htask
    · exact h.handler i j task htask
  · simp only [MaekawaSystem.send, link_setLink, link_setNode] at hmem
    split at hmem
    · next heq =>
      obtain ⟨rfl, rfl⟩ := heq
      rcases List.mem_append.mp hmem with hmem | hmem
      · exact h.queue i j packet hmem
      · cases List.mem_singleton.mp hmem
        exact ⟨hn, htarget, hmsg⟩
    · exact h.queue i j packet hmem

theorem Within.setNode (h : s.Within nodes) (m : MaekawaNode)
    (hcaller : m.call ≠ .idle → n ∈ nodes)
    (htargets : ∀ v ∈ m.call.targets, v ∈ nodes)
    (hreleasing : ∀ p ∈ m.releasing, n ∈ nodes ∧ p.1 ∈ nodes)
    (hvoted : ∀ r ∈ m.mutex.voted, r.requester ∈ nodes)
    (hqueued : ∀ r ∈ m.mutex.requestQueue, r.requester ∈ nodes) :
    (s.setNode n m).Within nodes := by
  have hnode : ∀ i, (s.setNode n m).node i = m ∧ i = n ∨
      (s.setNode n m).node i = s.node i := by
    intro i
    rw [node_setNode]
    split
    · next heq => exact .inl ⟨rfl, heq⟩
    · exact .inr rfl
  constructor
  · intro i
    rcases hnode i with ⟨heq, rfl⟩ | heq <;> rw [heq]
    · exact hcaller
    · exact h.caller i
  · intro i
    rcases hnode i with ⟨heq, rfl⟩ | heq <;> rw [heq]
    · exact htargets
    · exact h.targets i
  · intro i
    rcases hnode i with ⟨heq, rfl⟩ | heq <;> rw [heq]
    · exact hreleasing
    · exact h.releasing i
  · intro i
    rcases hnode i with ⟨heq, rfl⟩ | heq <;> rw [heq]
    · exact hvoted
    · exact h.voted i
  · intro i
    rcases hnode i with ⟨heq, rfl⟩ | heq <;> rw [heq]
    · exact hqueued
    · exact h.queued i
  · exact h.handler
  · exact h.queue

theorem Within.setMutex (h : s.Within nodes) (m : MaekawaExclusion)
    (hvoted : ∀ r ∈ m.voted, r.requester ∈ nodes)
    (hqueued : ∀ r ∈ m.requestQueue, r.requester ∈ nodes) :
    (s.setMutex n m).Within nodes :=
  h.setNode _ (h.caller n) (h.targets n) (h.releasing n) hvoted hqueued

theorem Within.setLink (h : s.Within nodes) {l : MaekawaLink}
    (hhandler : ∀ task ∈ l.handler, i ∈ nodes ∧ j ∈ nodes ∧ task.Names nodes)
    (hqueue : ∀ packet ∈ l.queue,
      i ∈ nodes ∧ j ∈ nodes ∧ (MaekawaTask.received packet.msg).Names nodes) :
    (s.setLink i j l).Within nodes := by
  refine ⟨h.caller, h.targets, h.releasing, h.voted, h.queued, fun p q => ?_,
    fun p q => ?_⟩
  · rw [link_setLink]
    split
    · next heq =>
      obtain ⟨rfl, rfl⟩ := heq
      exact hhandler
    · exact h.handler p q
  · rw [link_setLink]
    split
    · next heq =>
      obtain ⟨rfl, rfl⟩ := heq
      exact hqueue
    · exact h.queue p q

theorem Within.setHandler (h : s.Within nodes) {task : Option MaekawaTask}
    (htask : ∀ t ∈ task, i ∈ nodes ∧ j ∈ nodes ∧ t.Names nodes) :
    (s.setHandler i j task).Within nodes :=
  h.setLink htask (h.queue i j)

theorem Within.enqueued (h : s.Within nodes) {r : MaekawaRequest}
    (hr : r.requester ∈ nodes) :
    ∀ x ∈ ((s.node n).mutex.enqueue r).requestQueue, x.requester ∈ nodes := by
  intro x hx
  rw [MaekawaExclusion.enqueue, List.mem_insertionSort, List.mem_append,
    List.mem_singleton] at hx
  rcases hx with hx | rfl
  · exact h.queued n x hx
  · exact hr

theorem Within.grantVote (h : s.Within nodes) (hn : n ∈ nodes)
    {r : MaekawaRequest} (hr : r.requester ∈ nodes) :
    (s.grantVote n r).Within nodes := by
  refine Within.send (h.setMutex _ ?_ ?_) hn hr trivial
  · simpa using hr
  · exact h.queued n

theorem Within.grantNext (h : s.Within nodes) (hn : n ∈ nodes) :
    (s.grantNext n).Within nodes := by
  unfold MaekawaSystem.grantNext
  split
  · exact h
  · next r rest hqueue =>
    have hqueued : ∀ x ∈ r :: rest, x.requester ∈ nodes := hqueue ▸ h.queued n
    refine Within.grantVote (h.setMutex _ ?_ ?_) hn (hqueued r List.mem_cons_self)
    · exact h.voted n
    · exact fun x hx => hqueued x (List.mem_cons_of_mem r hx)

/-- What the vote was for goes back to the queue. -/
def returned (m : MaekawaExclusion) : MaekawaExclusion :=
  match m.voted with
  | none => m
  | some old => m.enqueue old

theorem handleRelinquish_grants (s : MaekawaSystem) (n : NodeId) :
    s.handleRelinquish n =
      (s.setMutex n (returned (s.node n).mutex).clearVote).grantNext n := by
  cases hold : (s.node n).mutex.voted with
  | some old =>
      rw [handleRelinquish_eq hold]
      simp only [returned, hold]
  | none =>
      unfold handleRelinquish MaekawaSystem.grantNext
      rw [mutex_setMutex_self]
      simp only [hold, returned, MaekawaExclusion.clearVote]
      cases hqueue : (s.node n).mutex.requestQueue with
      | nil => rfl
      | cons r rest =>
          simp only [setMutex_setMutex, MaekawaSystem.grantVote,
            mutex_setMutex_self]

theorem Within.returned (h : s.Within nodes) :
    ∀ x ∈ (MaekawaSystem.returned (s.node n).mutex).requestQueue,
      x.requester ∈ nodes := by
  unfold MaekawaSystem.returned
  split
  · exact h.queued n
  · next old hold => exact h.enqueued (h.voted n old hold)

theorem Within.handle {c : QuorumSystem} (h : s.Within nodes) (hi : i ∈ nodes)
    (hn : n ∈ nodes) {msg : MaekawaMsg}
    (hmsg : (MaekawaTask.received msg).Names nodes) :
    (s.handle c i n msg).Within nodes := by
  cases msg with
  | request resource reqTs =>
      simp only [MaekawaSystem.handle, handleRequest]
      split
      · exact h.grantVote hn hi
      · next voted hvoted =>
        have hqueued := h.enqueued (n := n) (r := ⟨reqTs, i, resource⟩) hi
        split
        · refine Within.send (h.setMutex _ ?_ ?_) hn (h.voted n voted hvoted) ?_
          · exact h.voted n
          · exact hqueued
          · exact hn
        · refine Within.send (h.setMutex _ ?_ hqueued) hn hi trivial
          exact h.voted n
  | locked resource voter =>
      refine h.setNode _ (fun _ => hn) ?_ ?_ ?_ ?_
      · dsimp only
        split
        · rw [targets_wake]
          exact h.targets n
        · exact h.targets n
      · exact h.releasing n
      · exact h.voted n
      · exact h.queued n
  | failed resource => exact h
  | inquire resource voter =>
      simp only [MaekawaSystem.handle, handleInquire]
      split
      · refine Within.setHandler (h.setMutex _ ?_ ?_) fun t ht => ?_
        · exact h.voted n
        · exact h.queued n
        · cases Option.some.inj ht
          exact ⟨hi, hn, hmsg⟩
      · exact h
  | relinquish resource =>
      simp only [MaekawaSystem.handle, handleRelinquish_grants]
      refine Within.grantNext (h.setMutex _ ?_ ?_) hn
      · simp [MaekawaExclusion.clearVote]
      · exact h.returned
  | release resource =>
      simp only [MaekawaSystem.handle, handleRelease_eq]
      refine Within.grantNext (h.setMutex _ ?_ ?_) hn
      · simp [MaekawaExclusion.clearVote]
      · exact h.queued n

theorem Within.step {c : QuorumSystem} {s' : MaekawaSystem} {a : MaekawaAction}
    (hclosed : ∀ n ∈ c.nodes, ∀ v ∈ c.quorum n, v ∈ c.nodes)
    (h : s.Within c.nodes) (hstep : s.step c a = some s') : s'.Within c.nodes := by
  have hcaller (n : NodeId) (call : MaekawaCall) (hne : call ≠ .idle)
      (hcall : (s.node n).call = call) : n ∈ c.nodes :=
    h.caller n (hcall ▸ hne)
  cases step_cases hstep with
  | @requestCs n resource hn hidle =>
      refine h.setNode _ (fun _ => hn) (hclosed n hn) ?_ ?_ ?_
      · exact h.releasing n
      · exact h.voted n
      · exact h.queued n
  | @sendRequest n target resource targets hcall hmem =>
      have hn := hcaller n _ (by simp) hcall
      have htargets : ∀ v ∈ targets, v ∈ c.nodes := by
        have := h.targets n
        rwa [hcall] at this
      refine Within.send (h.setNode _ (fun _ => hn) ?_ ?_ ?_ ?_) hn
        (htargets target hmem) trivial
      · exact fun v hv => htargets v (List.mem_of_mem_erase hv)
      · exact h.releasing n
      · exact h.voted n
      · exact h.queued n
  | @wait n resource hcall =>
      refine h.setNode _ (fun _ => hcaller n _ (by simp) hcall) ?_ ?_ ?_ ?_
      · dsimp only
        split <;> simp [MaekawaCall.targets]
      · exact h.releasing n
      · exact h.voted n
      · exact h.queued n
  | @enter n hcall =>
      refine h.setNode _ (fun _ => hcaller n _ (by simp) hcall) ?_ ?_ ?_ ?_
      · simp [MaekawaCall.targets]
      · exact h.releasing n
      · exact h.voted n
      · exact h.queued n
  | @releaseCs n hcall =>
      have hn := hcaller n _ (by simp) hcall
      refine h.setNode _ (fun _ => hn) ?_ (fun p hp => ?_) ?_ ?_
      · simp [MaekawaCall.targets]
      · rcases List.mem_append.mp hp with hp | hp
        · exact h.releasing n p hp
        · obtain ⟨v, hv, rfl⟩ := List.mem_map.mp hp
          exact ⟨hn, hclosed n hn v hv⟩
      · exact h.voted n
      · exact h.queued n
  | @sendRelease n target resource hmem =>
      obtain ⟨hn, htarget⟩ := h.releasing n _ hmem
      refine Within.send (h.setNode _ (fun _ => hn) ?_ (fun p hp => ?_) ?_ ?_) hn
        htarget trivial
      · exact h.targets n
      · exact h.releasing n p (List.mem_of_mem_erase hp)
      · exact h.voted n
      · exact h.queued n
  | @deliver i j packet rest hqueue hhandler =>
      have hall : ∀ p ∈ packet :: rest, i ∈ c.nodes ∧ j ∈ c.nodes ∧
          (MaekawaTask.received p.msg).Names c.nodes := hqueue ▸ h.queue i j
      refine Within.setLink (h.setNode _ ?_ ?_ ?_ ?_ ?_) (fun task htask => ?_)
        fun p hp => hall p (List.mem_cons_of_mem packet hp)
      · exact h.caller j
      · exact h.targets j
      · exact h.releasing j
      · exact h.voted j
      · exact h.queued j
      · cases Option.some.inj htask
        exact hall packet List.mem_cons_self
  | @handle i j msg htask =>
      obtain ⟨hi, hj, hmsg⟩ := h.handler i j _ htask
      exact (h.setHandler (by simp)).handle hi hj hmsg
  | @sendRelinquish i j voter resource htask =>
      obtain ⟨hi, hj, hvoter⟩ := h.handler i j _ htask
      exact Within.send (h.setHandler (by simp)) hj hvoter trivial
  | tick n receivedTime =>
      refine h.setNode _ ?_ ?_ ?_ ?_ ?_
      · exact h.caller n
      · exact h.targets n
      · exact h.releasing n
      · exact h.voted n
      · exact h.queued n

end Within

/-! ## The balance -/

section Balance

variable {nodes : List NodeId} {s s' : MaekawaSystem} {n i j : NodeId}
  {p : MaekawaPrices} {k : Nat}

/-- The messages that are sent and not yet taken off their links. -/
def flight (nodes : List NodeId) (s : MaekawaSystem) : Nat :=
  ∑ l ∈ nodes.toFinset ×ˢ nodes.toFinset, (s.link l.1 l.2).queue.length

def worth (nodes : List NodeId) (p : MaekawaPrices) (s : MaekawaSystem) : Nat :=
  ∑ l ∈ nodes.toFinset ×ˢ nodes.toFinset, (s.link l.1 l.2).total p.task

def owed (nodes : List NodeId) (p : MaekawaPrices) (k : Nat)
    (s : MaekawaSystem) : Nat :=
  ∑ n ∈ nodes.toFinset, p.node k (s.node n)

def balance (nodes : List NodeId) (p : MaekawaPrices) (k : Nat)
    (s : MaekawaSystem) : Nat :=
  s.owed nodes p k + s.worth nodes p + p.deliver * s.flight nodes

private theorem owed_setNode (hn : n ∈ nodes) (m : MaekawaNode) :
    (s.setNode n m).owed nodes p k + p.node k (s.node n) =
      s.owed nodes p k + p.node k m := by
  refine sum_changes (List.mem_toFinset.mpr hn) fun i => ?_
  rw [node_setNode]
  split
  · next heq => rw [heq, Nat.add_comm]
  · rfl

theorem owed_congr (hcall : ∀ i, (s'.node i).call = (s.node i).call)
    (hreleasing : ∀ i, (s'.node i).releasing = (s.node i).releasing) :
    s'.owed nodes p k = s.owed nodes p k := by
  refine Finset.sum_congr rfl fun i _ => ?_
  rw [MaekawaPrices.node, MaekawaPrices.node, hcall, hreleasing]

theorem sum_links (f : MaekawaLink → Nat) {x y : Nat} (hi : i ∈ nodes)
    (hj : j ∈ nodes)
    (h : ∀ q r, f (s'.link q r) + (if q = i ∧ r = j then x else 0) =
      f (s.link q r) + if q = i ∧ r = j then y else 0) :
    ∑ l ∈ nodes.toFinset ×ˢ nodes.toFinset, f (s'.link l.1 l.2) + x =
      ∑ l ∈ nodes.toFinset ×ˢ nodes.toFinset, f (s.link l.1 l.2) + y := by
  refine sum_changes (a := (i, j)) ?_ fun l => ?_
  · simp [hi, hj]
  · simp only [Prod.ext_iff]
    exact h l.1 l.2

theorem balance_send (hn : n ∈ nodes) {target : NodeId} (ht : target ∈ nodes)
    (msg : MaekawaMsg) : (s.send n target msg).balance nodes p k =
      s.balance nodes p k + p.deliver + p.task (.received msg) := by
  have howed : (s.send n target msg).owed nodes p k = s.owed nodes p k :=
    owed_congr (call_send s n target msg) (releasing_send s n target msg)
  have hworth : (s.send n target msg).worth nodes p + 0 =
      s.worth nodes p + p.task (.received msg) :=
    sum_links (·.total p.task) hn ht fun q r => by simp [total_send]
  have hflight : (s.send n target msg).flight nodes + 0 =
      s.flight nodes + 1 := by
    refine sum_links (·.queue.length) hn ht fun q r => ?_
    simp only [MaekawaSystem.send, link_setLink, link_setNode]
    split
    · next heq =>
      obtain ⟨rfl, rfl⟩ := heq
      simp
    · simp
  unfold balance
  rw [howed, ← Nat.add_zero (worth nodes p _), hworth,
    ← Nat.add_zero (flight nodes (s.send n target msg)), hflight, Nat.mul_add]
  omega

theorem balance_setNode (hn : n ∈ nodes) (m : MaekawaNode) :
    (s.setNode n m).balance nodes p k + p.node k (s.node n) =
      s.balance nodes p k + p.node k m := by
  have howed := owed_setNode (s := s) (p := p) (k := k) hn m
  have hsame : (s.setNode n m).balance nodes p k = (s.setNode n m).owed nodes p k +
      s.worth nodes p + p.deliver * s.flight nodes := rfl
  unfold balance at hsame ⊢
  omega

theorem balance_setMutex (n : NodeId) (m : MaekawaExclusion) :
    (s.setMutex n m).balance nodes p k = s.balance nodes p k := by
  have howed : (s.setMutex n m).owed nodes p k = s.owed nodes p k :=
    owed_congr (fun i => call_setMutex s n i m) fun i => releasing_setMutex s n i m
  have hsame : (s.setMutex n m).balance nodes p k = (s.setMutex n m).owed nodes p k +
      s.worth nodes p + p.deliver * s.flight nodes := rfl
  rw [hsame, howed, balance]

theorem balance_tick (n : NodeId) (clock : LamportClock) :
    (s.setNode n { s.node n with clock := clock }).balance nodes p k =
      s.balance nodes p k := by
  have howed : (s.setNode n { s.node n with clock := clock }).owed nodes p k =
      s.owed nodes p k :=
    owed_congr (field_setNode s (·.call) rfl) (field_setNode s (·.releasing) rfl)
  have hsame : (s.setNode n { s.node n with clock := clock }).balance nodes p k =
      (s.setNode n { s.node n with clock := clock }).owed nodes p k +
        s.worth nodes p + p.deliver * s.flight nodes := rfl
  rw [hsame, howed, balance]

theorem flight_setHandler (i j : NodeId) (task : Option MaekawaTask) :
    (s.setHandler i j task).flight nodes = s.flight nodes := by
  refine Finset.sum_congr rfl fun l _ => ?_
  rw [setHandler, link_setLink]
  split
  · next heq => rw [heq.1, heq.2]
  · rfl

theorem balance_clear (hi : i ∈ nodes) (hj : j ∈ nodes) {task : MaekawaTask}
    (htask : (s.link i j).handler = some task) :
    s.balance nodes p k =
      (s.setHandler i j none).balance nodes p k + p.task task := by
  have hworth : s.worth nodes p + 0 =
      (s.setHandler i j none).worth nodes p + p.task task :=
    sum_links (·.total p.task) hi hj fun q r => by
      simp [total_setHandler s htask q r]
  have hflight : (s.setHandler i j none).flight nodes = s.flight nodes :=
    flight_setHandler i j none
  have howed : (s.setHandler i j none).owed nodes p k = s.owed nodes p k := rfl
  unfold balance
  rw [howed, hflight]
  omega

private theorem balance_occupy (hi : i ∈ nodes) (hj : j ∈ nodes)
    (hfree : (s.link i j).handler = none) (task : MaekawaTask) :
    (s.setHandler i j (some task)).balance nodes p k =
      s.balance nodes p k + p.task task := by
  have hworth : (s.setHandler i j (some task)).worth nodes p + 0 =
      s.worth nodes p + p.task task := by
    refine sum_links (·.total p.task) hi hj fun q r => ?_
    rw [setHandler, link_setLink]
    split
    · next heq =>
      obtain ⟨rfl, rfl⟩ := heq
      simp only [MaekawaLink.total, hfree, Option.elim_some, Option.elim_none]
      omega
    · simp
  have hflight : (s.setHandler i j (some task)).flight nodes = s.flight nodes :=
    flight_setHandler i j (some task)
  have howed : (s.setHandler i j (some task)).owed nodes p k = s.owed nodes p k := rfl
  unfold balance
  rw [howed, hflight]
  omega

private theorem balance_deliver (hi : i ∈ nodes) (hj : j ∈ nodes) {packet : MaekawaPacket}
    {rest : List MaekawaPacket} (hqueue : (s.link i j).queue = packet :: rest)
    (hfree : (s.link i j).handler = none) :
    (s.setLink i j ⟨rest, some (.received packet.msg)⟩).balance nodes p k +
      p.deliver = s.balance nodes p k := by
  have hworth : (s.setLink i j ⟨rest, some (.received packet.msg)⟩).worth nodes p =
      s.worth nodes p :=
    Finset.sum_congr rfl fun l _ => total_deliver s hqueue hfree l.1 l.2 p.task
  have hflight :
      (s.setLink i j ⟨rest, some (.received packet.msg)⟩).flight nodes + 1 =
        s.flight nodes + 0 := by
    refine sum_links (·.queue.length) hi hj fun q r => ?_
    rw [link_setLink]
    split
    · next heq =>
      obtain ⟨rfl, rfl⟩ := heq
      simp [hqueue]
    · simp
  have howed : (s.setLink i j ⟨rest, some (.received packet.msg)⟩).owed nodes p k =
      s.owed nodes p k := rfl
  have hprice := congrArg (p.deliver * ·) hflight
  simp only [Nat.mul_add, Nat.mul_one, Nat.mul_zero] at hprice
  unfold balance
  rw [howed, hworth]
  omega

/-! ## What a step spends -/

theorem balance_grantVote (hn : n ∈ nodes) {r : MaekawaRequest}
    (hr : r.requester ∈ nodes) :
    (s.grantVote n r).balance nodes p k = s.balance nodes p k + p.locked := by
  rw [MaekawaSystem.grantVote, balance_send hn hr, balance_setMutex]
  simp only [MaekawaPrices.locked, MaekawaPrices.task, MaekawaPrices.follow]
  omega

theorem balance_grantNext (h : s.Within nodes) (hn : n ∈ nodes) :
    (s.grantNext n).balance nodes p k ≤ s.balance nodes p k + p.locked := by
  unfold MaekawaSystem.grantNext
  split
  · omega
  · next r rest hqueue =>
    have hr := h.queued n r (by simp [hqueue])
    rw [balance_grantVote hn hr, balance_setMutex]

private theorem node_wake (m : MaekawaNode) : p.call k m.call.wake = p.call k m.call := by
  cases hcall : m.call <;> rfl

private theorem balance_handle {c : QuorumSystem} (h : s.Within nodes) (hi : i ∈ nodes)
    (hn : n ∈ nodes) (hfree : (s.link i n).handler = none) (msg : MaekawaMsg) :
    (s.handle c i n msg).balance nodes p k ≤
      s.balance nodes p k + p.follow msg := by
  cases msg with
  | request resource reqTs =>
      simp only [MaekawaSystem.handle, handleRequest]
      split
      · rw [balance_grantVote hn hi]
        simp only [MaekawaPrices.follow, MaekawaPrices.inquire,
          MaekawaPrices.relinquish]
        omega
      · next voted hvoted =>
        split
        · rw [balance_send hn (h.voted n voted hvoted), balance_setMutex]
          simp only [MaekawaPrices.follow, MaekawaPrices.inquire,
            MaekawaPrices.task]
          omega
        · rw [balance_send hn hi, balance_setMutex]
          simp only [MaekawaPrices.follow, MaekawaPrices.inquire,
            MaekawaPrices.task]
          omega
  | locked resource voter =>
      simp only [MaekawaSystem.handle, MaekawaSystem.handleLocked]
      generalize hm : ({ s.node n with
        mutex := (s.node n).mutex.handleLocked (c.quorum n).length voter
        call :=
          if (c.quorum n).length ≤ (insert voter (s.node n).mutex.votesHeld).card
          then (s.node n).call.wake else (s.node n).call } : MaekawaNode) = m
      have hsame : p.node k m = p.node k (s.node n) := by
        subst hm
        simp only [MaekawaPrices.node]
        split
        · rw [node_wake]
        · rfl
      have hset := balance_setNode (s := s) (p := p) (k := k) hn m
      omega
  | failed resource => exact Nat.le_add_right _ _
  | inquire resource voter =>
      simp only [MaekawaSystem.handle, handleInquire]
      split
      · have hfree' : ((s.setMutex n
            ((s.node n).mutex.handleInquire voter)).link i n).handler = none := hfree
        rw [balance_occupy hi hn hfree', balance_setMutex]
        simp only [MaekawaPrices.follow, MaekawaPrices.task]
        omega
      · omega
  | relinquish resource =>
      simp only [MaekawaSystem.handle, handleRelinquish_grants]
      refine (balance_grantNext (h.setMutex _ ?_ ?_) hn).trans_eq ?_
      · simp [MaekawaExclusion.clearVote]
      · exact h.returned
      · rw [balance_setMutex]
        rfl
  | release resource =>
      simp only [MaekawaSystem.handle, handleRelease_eq]
      refine (balance_grantNext (h.setMutex _ ?_ ?_) hn).trans_eq ?_
      · simp [MaekawaExclusion.clearVote]
      · exact h.queued n
      · rw [balance_setMutex]
        rfl

theorem balance_step {c : QuorumSystem} {a : MaekawaAction}
    (hsize : ∀ n ∈ c.nodes, (c.quorum n).length ≤ k) (h : s.Within c.nodes)
    (hstep : s.step c a = some s') :
    s'.balance c.nodes p k + p.price a ≤ s.balance c.nodes p k + p.income k a := by
  have hcaller (n : NodeId) (call : MaekawaCall) (hne : call ≠ .idle)
      (hcall : (s.node n).call = call) : n ∈ c.nodes :=
    h.caller n (hcall ▸ hne)
  cases step_cases hstep with
  | @requestCs n resource hn hidle =>
      have hset := balance_setNode (s := s) (p := p) (k := k) hn
        { s.node n with
          clock := (s.node n).clock.increment
          mutex := (s.node n).mutex.requestCs resource
            (s.node n).clock.increment.time
          call := .asking resource (c.quorum n) }
      have hasks : (c.quorum n).length * p.asking ≤ k * p.asking :=
        Nat.mul_le_mul_right _ (hsize n hn)
      simp only [MaekawaPrices.node, hidle, MaekawaPrices.call] at hset
      simp only [MaekawaPrices.price, MaekawaPrices.income, MaekawaAction.calls,
        MaekawaPrices.whole, Nat.mul_add, if_true]
      omega
  | @sendRequest n target resource targets hcall hmem =>
      have hn := hcaller n _ (by simp) hcall
      have ht : target ∈ c.nodes := h.targets n target (by
        rw [hcall]
        exact hmem)
      have hset := balance_setNode (s := s) (p := p) (k := k) hn
        { s.node n with call := .asking resource (targets.erase target) }
      have hlength := List.length_erase_add_one hmem
      have hone : targets.length * p.asking =
          (targets.erase target).length * p.asking + p.asking := by
        rw [← hlength, Nat.add_mul, Nat.one_mul]
      simp only [MaekawaPrices.node, hcall, MaekawaPrices.call] at hset
      rw [balance_send hn ht]
      simp only [MaekawaPrices.price, MaekawaPrices.income, MaekawaAction.calls,
        MaekawaPrices.task, MaekawaPrices.follow]
      simp only [MaekawaPrices.asking] at hone hset
      simp
      omega
  | @wait n resource hcall =>
      have hn := hcaller n _ (by simp) hcall
      have hset := balance_setNode (s := s) (p := p) (k := k) hn
        { s.node n with
          call := if (s.node n).mutex.csEvent then .woken else .waiting }
      have hcost : p.call k (if (s.node n).mutex.csEvent then .woken else .waiting) =
          p.enter + p.leave + k * p.releasing := by
        split <;> rfl
      simp only [MaekawaPrices.node, hcost] at hset
      rw [hcall] at hset
      simp only [MaekawaPrices.call, List.length_nil] at hset
      simp [MaekawaPrices.price, MaekawaPrices.income, MaekawaAction.calls]
      omega
  | @enter n hcall =>
      have hn := hcaller n _ (by simp) hcall
      have hset := balance_setNode (s := s) (p := p) (k := k) hn
        { s.node n with
          mutex := { (s.node n).mutex with inCs := true }, call := .inside }
      simp only [MaekawaPrices.node, hcall, MaekawaPrices.call] at hset
      simp [MaekawaPrices.price, MaekawaPrices.income, MaekawaAction.calls]
      omega
  | @releaseCs n hcall =>
      have hn := hcaller n _ (by simp) hcall
      have hset := balance_setNode (s := s) (p := p) (k := k) hn
        { s.node n with
          mutex := (s.node n).mutex.releaseCs
          call := .idle
          releasing := (s.node n).releasing ++ (c.quorum n).map fun target =>
            (target, (s.node n).mutex.requestResource) }
      have hsends : (c.quorum n).length * p.releasing ≤ k * p.releasing :=
        Nat.mul_le_mul_right _ (hsize n hn)
      simp only [MaekawaPrices.node, hcall, MaekawaPrices.call, List.length_append,
        List.length_map, Nat.add_mul] at hset
      simp [MaekawaPrices.price, MaekawaPrices.income, MaekawaAction.calls]
      omega
  | @sendRelease n target resource hmem =>
      obtain ⟨hn, ht⟩ := h.releasing n _ hmem
      have hset := balance_setNode (s := s) (p := p) (k := k) hn
        { s.node n with
          releasing := (s.node n).releasing.erase (target, resource) }
      have hlength := List.length_erase_add_one hmem
      have hone : (s.node n).releasing.length * p.releasing =
          ((s.node n).releasing.erase (target, resource)).length * p.releasing +
            p.releasing := by
        rw [← hlength, Nat.add_mul, Nat.one_mul]
      simp only [MaekawaPrices.node] at hset
      rw [balance_send hn ht]
      simp only [MaekawaPrices.price, MaekawaPrices.income, MaekawaAction.calls,
        MaekawaPrices.task, MaekawaPrices.follow]
      simp only [MaekawaPrices.releasing] at hone hset
      simp
      omega
  | @deliver i j packet rest hqueue hhandler =>
      obtain ⟨hi, hj, -⟩ := h.queue i j packet (by simp [hqueue])
      have hdeliver := balance_deliver (p := p) (k := k) hi hj
        (s := s.setNode j
          { s.node j with clock := (s.node j).clock.update packet.timestamp })
        hqueue hhandler
      rw [balance_tick] at hdeliver
      exact Nat.le_add_right_of_le hdeliver.le
  | @handle i j msg htask =>
      obtain ⟨hi, hj, -⟩ := h.handler i j _ htask
      have hclear := balance_clear (p := p) (k := k) hi hj htask
      have hfree : ((s.setHandler i j none).link i j).handler = none := by
        rw [setHandler, link_setLink, if_pos ⟨rfl, rfl⟩]
      have hhandle := balance_handle (p := p) (k := k) (c := c)
        (h.setHandler (by simp)) hi hj hfree msg
      simp only [MaekawaPrices.task] at hclear
      simp [MaekawaPrices.price, MaekawaPrices.income, MaekawaAction.calls]
      omega
  | @sendRelinquish i j voter resource htask =>
      obtain ⟨hi, hj, hvoter⟩ := h.handler i j _ htask
      have hclear := balance_clear (p := p) (k := k) hi hj htask
      rw [balance_send hj hvoter]
      simp only [MaekawaPrices.task, MaekawaPrices.relinquish] at hclear
      simp [MaekawaPrices.price, MaekawaPrices.income, MaekawaAction.calls,
        MaekawaPrices.task, MaekawaPrices.follow]
      omega
  | tick n receivedTime =>
      exact Nat.le_add_right_of_le (balance_tick n _).le

theorem balance_new (nodes : List NodeId) : new.balance nodes p k = 0 := by
  simp [balance, owed, worth, flight, new, MaekawaPrices.node, MaekawaPrices.call,
    MaekawaLink.total, MaekawaLink.weigh]

/-- A run spends no more than its calls bring. -/
theorem run_affords {c : QuorumSystem} {actions : List MaekawaAction}
    {t : MaekawaSystem}
    (hclosed : ∀ n ∈ c.nodes, ∀ v ∈ c.quorum n, v ∈ c.nodes)
    (hsize : ∀ n ∈ c.nodes, (c.quorum n).length ≤ k)
    (hrun : run (step c) new actions = some t) :
    t.balance c.nodes p k + (actions.map p.price).sum ≤
      p.whole k * actions.countP MaekawaAction.calls := by
  have hfree : Along (step c) (fun _ _ => True) new actions :=
    along_of_forall (fun _ _ => trivial) new actions
  have hspent := run_afford (I := Within c.nodes) (balance c.nodes p k)
    (fun _ => 0) p.price (p.income k)
    (fun s a s' h _ hstep => ⟨h.step hclosed hstep, balance_step hsize h hstep⟩)
    (within_new c.nodes) hfree hrun
  have hincome : (actions.map (p.income k)).sum =
      p.whole k * actions.countP MaekawaAction.calls :=
    sum_map_ite actions MaekawaAction.calls _
  rw [balance_new, hincome] at hspent
  omega

end Balance

private theorem price_messages (actions : List MaekawaAction) :
    (actions.map MaekawaPrices.messages.price).sum =
      actions.countP MaekawaAction.delivers := by
  induction actions with
  | nil => rfl
  | cons a rest ih =>
      rw [List.map_cons, List.sum_cons, List.countP_cons, ih]
      cases a <;>
        simp [MaekawaPrices.price, MaekawaPrices.messages, MaekawaAction.delivers,
          Nat.add_comm]

private theorem price_steps (actions : List MaekawaAction) :
    actions.countP (fun a => !a.ticks) = actions.countP MaekawaAction.calls +
      (actions.map MaekawaPrices.steps.price).sum := by
  induction actions with
  | nil => rfl
  | cons a rest ih =>
      rw [List.map_cons, List.sum_cons, List.countP_cons, List.countP_cons, ih]
      cases a <;>
        simp [MaekawaPrices.price, MaekawaPrices.steps, MaekawaAction.ticks,
          MaekawaAction.calls] <;> omega

/-- With quorums of at most `k` nodes every call of `request_cs` pays for `6 * k`
messages, and for `15 * k + 4` steps in all: no exchange of INQUIRE and RELINQUISH
goes on for ever. -/
theorem run_maekawaCost (c : QuorumSystem) (k : Nat)
    (hclosed : ∀ n ∈ c.nodes, ∀ v ∈ c.quorum n, v ∈ c.nodes)
    (hsize : ∀ n ∈ c.nodes, (c.quorum n).length ≤ k)
    (actions : List MaekawaAction) (t : MaekawaSystem)
    (hrun : run (step c) new actions = some t) :
    actions.countP MaekawaAction.delivers + t.flight c.nodes ≤
      6 * k * actions.countP MaekawaAction.calls ∧
    actions.countP (fun a => !a.ticks) ≤
      (15 * k + 4) * actions.countP MaekawaAction.calls := by
  have hmessages := run_affords (p := .messages) hclosed hsize hrun
  have hsteps := run_affords (p := .steps) hclosed hsize hrun
  have hflight : t.flight c.nodes ≤ t.balance c.nodes .messages k := by
    simp [balance, MaekawaPrices.messages]
  have hsix : MaekawaPrices.messages.whole k = 6 * k := by
    simp [MaekawaPrices.whole, MaekawaPrices.asking, MaekawaPrices.releasing,
      MaekawaPrices.inquire, MaekawaPrices.relinquish, MaekawaPrices.locked,
      MaekawaPrices.messages, Nat.mul_comm]
  have hfifteen : MaekawaPrices.steps.whole k = 15 * k + 3 := by
    simp [MaekawaPrices.whole, MaekawaPrices.asking, MaekawaPrices.releasing,
      MaekawaPrices.inquire, MaekawaPrices.relinquish, MaekawaPrices.locked,
      MaekawaPrices.steps, Nat.mul_comm]
  rw [hsix, price_messages] at hmessages
  rw [hfifteen] at hsteps
  have hcount := price_steps actions
  have hfour : (15 * k + 4) * actions.countP MaekawaAction.calls =
      (15 * k + 3) * actions.countP MaekawaAction.calls +
        actions.countP MaekawaAction.calls := by
    rw [← Nat.succ_mul]
  constructor <;> omega

theorem inTime_maekawaCost : ∃ t, run (step quorums) new inTime = some t ∧
    inTime.countP MaekawaAction.delivers + t.flight quorums.nodes ≤
      6 * 3 * inTime.countP MaekawaAction.calls ∧
    inTime.countP (fun a => !a.ticks) ≤
      (15 * 3 + 4) * inTime.countP MaekawaAction.calls := by
  have hruns : (run (step quorums) new inTime).isSome = true := by
    decide +kernel
  obtain ⟨t, ht⟩ := Option.isSome_iff_exists.mp hruns
  exact ⟨t, ht, run_maekawaCost quorums 3 (by decide) (by decide) inTime t ht⟩

end MaekawaSystem

end DistributedMemory.Mutex
