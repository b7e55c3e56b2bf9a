import DistributedMemory.Library.Ballot
import DistributedMemory.Mutex.Maekawa

/-!
# Maekawa exclusion

The votes of a run make a balanced ballot: whatever is around of a node at a voter,
in a thread, on a link, in the queue of the voter or in the set of votes held, is one
request or vote while the node is active, and one vote or release while the voter has
voted for it.  A node whose event is set holds its whole quorum.

This is kept as long as no node gives a vote back between the return of its
`_cs_event.wait` and the section that sets `_in_cs`.
-/

namespace DistributedMemory.Mutex

open DistributedMemory.Library DistributedMemory.Network

/-! ## What is around -/

namespace MaekawaTask

def request : MaekawaTask → Nat
  | .received (.request _ _) => 1
  | _ => 0

def grant : MaekawaTask → Nat
  | .received (.locked _ _) => 1
  | .relinquish _ _ => 1
  | _ => 0

def back : MaekawaTask → Nat
  | .received (.relinquish _) => 1
  | _ => 0

def release : MaekawaTask → Nat
  | .received (.release _) => 1
  | _ => 0

/-- The voter that a task on the link from `sender` names is `sender`. -/
def Signed (sender : NodeId) : MaekawaTask → Prop
  | .received (.locked _ voter) => voter = sender
  | .received (.inquire _ voter) => voter = sender
  | .relinquish voter _ => voter = sender
  | _ => True

end MaekawaTask

structure MaekawaMsg.Idle (msg : MaekawaMsg) : Prop where
  request : MaekawaTask.request (.received msg) = 0
  grant : MaekawaTask.grant (.received msg) = 0
  back : MaekawaTask.back (.received msg) = 0
  release : MaekawaTask.release (.received msg) = 0

namespace MaekawaLink

def weigh (weight : MaekawaTask → Nat) : List MaekawaPacket → Nat
  | [] => 0
  | packet :: rest => weight (.received packet.msg) + weigh weight rest

private theorem weigh_concat (weight : MaekawaTask → Nat) (queue : List MaekawaPacket)
    (packet : MaekawaPacket) :
    weigh weight (queue ++ [packet]) =
      weigh weight queue + weight (.received packet.msg) := by
  induction queue with
  | nil => simp [weigh]
  | cons first rest ih => simp [weigh, ih, Nat.add_assoc]

def total (l : MaekawaLink) (weight : MaekawaTask → Nat) : Nat :=
  l.handler.elim 0 weight + weigh weight l.queue

def Signed (l : MaekawaLink) (sender : NodeId) : Prop :=
  (∀ task ∈ l.handler, task.Signed sender) ∧
    ∀ packet ∈ l.queue, (MaekawaTask.received packet.msg).Signed sender

end MaekawaLink

def MaekawaCall.targets : MaekawaCall → List NodeId
  | .asking _ targets => targets
  | _ => []

namespace MaekawaNode

def Signalled (m : MaekawaNode) : Prop :=
  match m.call with
  | .idle => False
  | .asking _ _ => m.mutex.csEvent = true
  | .waiting => m.mutex.csEvent = true
  | .woken => True
  | .inside => True

/-- Node `i` holds its quorum when it is signalled. -/
structure Inv (c : QuorumSystem) (i : NodeId) (m : MaekawaNode) : Prop where
  caller : m.call ≠ .idle → i ∈ c.nodes
  signalled : m.Signalled → ∀ v ∈ c.quorum i, v ∈ m.mutex.votesHeld
  entered : m.call = .inside → m.mutex.inCs = true

theorem Inv.same {c : QuorumSystem} {i : NodeId} {m m' : MaekawaNode}
    (h : m.Inv c i) (hcall : m'.call = m.call)
    (hheld : m'.mutex.votesHeld = m.mutex.votesHeld)
    (hevent : m'.mutex.csEvent = m.mutex.csEvent)
    (hin : m'.mutex.inCs = m.mutex.inCs) : m'.Inv c i := by
  refine ⟨by rw [hcall]; exact h.caller, ?_, by rw [hcall, hin]; exact h.entered⟩
  unfold Signalled
  rw [hcall, hheld, hevent]
  exact h.signalled

theorem Inv.requestCs {c : QuorumSystem} {i : NodeId} {m : MaekawaNode}
    {resource : Resource} {targets : List NodeId} (hi : i ∈ c.nodes)
    (hcall : m.call = .asking resource targets)
    (hevent : m.mutex.csEvent = false) : m.Inv c i := by
  refine ⟨fun _ => hi, fun hsignalled => ?_, fun hinside => ?_⟩
  · simp [Signalled, hcall, hevent] at hsignalled
  · simp [hcall] at hinside

end MaekawaNode

namespace MaekawaSystem

def ballot (c : QuorumSystem) (s : MaekawaSystem) : Ballot NodeId NodeId where
  asking i v := (s.node i).call.targets.count v +
    (s.link i v).total MaekawaTask.request +
    (s.node v).mutex.requestQueue.countP fun r => r.requester = i
  granted i v := (s.link v i).total MaekawaTask.grant +
    (if v ∈ (s.node i).mutex.votesHeld then 1 else 0) +
    (s.link i v).total MaekawaTask.back
  released i v := ((s.node i).releasing.countP fun r => r.1 = v) +
    (s.link i v).total MaekawaTask.release
  votedFor v := (s.node v).mutex.voted.map (·.requester)
  wants i v := (s.node i).call ≠ .idle ∧ v ∈ c.quorum i

/-! ## The links -/

section Links

variable (s : MaekawaSystem)

theorem node_setNode (n i : NodeId) (m : MaekawaNode) :
    (s.setNode n m).node i = if i = n then m else s.node i :=
  Function.update_apply _ _ _ _

theorem field_setNode {n : NodeId} {m : MaekawaNode} {α : Sort*}
    (f : MaekawaNode → α) (hf : f m = f (s.node n)) (i : NodeId) :
    f ((s.setNode n m).node i) = f (s.node i) := by
  rw [node_setNode]
  split
  · next heq => rw [hf, heq]
  · rfl

theorem call_setNode (n i : NodeId) (m : MaekawaNode) :
    ((s.setNode n m).node i).call = if i = n then m.call else (s.node i).call := by
  rw [node_setNode]
  split <;> rfl

theorem mutex_setNode (n i : NodeId) (m : MaekawaNode) :
    ((s.setNode n m).node i).mutex =
      if i = n then m.mutex else (s.node i).mutex := by
  rw [node_setNode]
  split <;> rfl

theorem link_setLink (i j p q : NodeId) (l : MaekawaLink) :
    (s.setLink i j l).link p q = if p = i ∧ q = j then l else s.link p q := by
  unfold setLink
  by_cases hp : p = i
  · subst hp
    by_cases hq : q = j <;> simp [hq]
  · simp [hp]

@[simp] theorem link_setNode (n : NodeId) (m : MaekawaNode) :
    (s.setNode n m).link = s.link := rfl

@[simp] theorem node_setLink (i j : NodeId) (l : MaekawaLink) :
    (s.setLink i j l).node = s.node := rfl

@[simp] theorem node_setHandler (i j : NodeId) (task : Option MaekawaTask) :
    (s.setHandler i j task).node = s.node := rfl

theorem total_send (n target : NodeId) (msg : MaekawaMsg) (p q : NodeId)
    (weight : MaekawaTask → Nat) :
    ((s.send n target msg).link p q).total weight =
      (s.link p q).total weight +
        if p = n ∧ q = target then weight (.received msg) else 0 := by
  simp only [send, link_setLink, link_setNode]
  split
  · next heq =>
    obtain ⟨rfl, rfl⟩ := heq
    simp [MaekawaLink.total, MaekawaLink.weigh_concat, Nat.add_assoc]
  · rfl

theorem total_setHandler {i j : NodeId} {task : MaekawaTask}
    (h : (s.link i j).handler = some task) (p q : NodeId)
    (weight : MaekawaTask → Nat) :
    (s.link p q).total weight = ((s.setHandler i j none).link p q).total weight +
      if p = i ∧ q = j then weight task else 0 := by
  simp only [setHandler, link_setLink]
  split
  · next heq =>
    obtain ⟨rfl, rfl⟩ := heq
    simp [MaekawaLink.total, h, Nat.add_comm]
  · rfl

theorem total_replace {i j : NodeId} {task : MaekawaTask}
    (h : (s.link i j).handler = some task) (task' : MaekawaTask) (p q : NodeId)
    (weight : MaekawaTask → Nat) :
    ((s.setHandler i j (some task')).link p q).total weight +
        (if p = i ∧ q = j then weight task else 0) =
      (s.link p q).total weight + if p = i ∧ q = j then weight task' else 0 := by
  simp only [setHandler, link_setLink]
  split
  · next heq =>
    obtain ⟨rfl, rfl⟩ := heq
    simp only [MaekawaLink.total, h, Option.elim_some]
    omega
  · rfl

theorem total_deliver {i j : NodeId} {packet : MaekawaPacket}
    {rest : List MaekawaPacket} (hqueue : (s.link i j).queue = packet :: rest)
    (hhandler : (s.link i j).handler = none) (p q : NodeId)
    (weight : MaekawaTask → Nat) :
    ((s.setLink i j ⟨rest, some (.received packet.msg)⟩).link p q).total
      weight = (s.link p q).total weight := by
  rw [link_setLink]
  split
  · next heq =>
    obtain ⟨rfl, rfl⟩ := heq
    simp [MaekawaLink.total, MaekawaLink.weigh, hqueue, hhandler]
  · rfl

private theorem link_setHandler_setHandler (i j : NodeId)
    (task task' : Option MaekawaTask) (n : NodeId) (m : MaekawaExclusion) :
    (((s.setHandler i j task).setMutex n m).setHandler i j task').link =
      (s.setHandler i j task').link := by
  simp [setHandler, setMutex, setLink, setNode]

@[simp] theorem link_setMutex (n : NodeId) (m : MaekawaExclusion) :
    (s.setMutex n m).link = s.link := rfl

@[simp] theorem call_setMutex (n i : NodeId) (m : MaekawaExclusion) :
    ((s.setMutex n m).node i).call = (s.node i).call :=
  field_setNode s (m := { s.node n with mutex := m }) (·.call) rfl i

@[simp] theorem releasing_setMutex (n i : NodeId) (m : MaekawaExclusion) :
    ((s.setMutex n m).node i).releasing = (s.node i).releasing :=
  field_setNode s (m := { s.node n with mutex := m }) (·.releasing) rfl i

theorem mutex_setMutex (n i : NodeId) (m : MaekawaExclusion) :
    ((s.setMutex n m).node i).mutex = if i = n then m else (s.node i).mutex := by
  rw [setMutex, node_setNode]
  split <;> rfl

@[simp] theorem mutex_setMutex_self (n : NodeId) (m : MaekawaExclusion) :
    ((s.setMutex n m).node n).mutex = m := by
  rw [mutex_setMutex, if_pos rfl]

theorem field_setMutex {n : NodeId} {m : MaekawaExclusion} {α : Sort*}
    (f : MaekawaExclusion → α) (hf : f m = f (s.node n).mutex) (i : NodeId) :
    f ((s.setMutex n m).node i).mutex = f (s.node i).mutex :=
  field_setNode s (fun x => f x.mutex) hf i

theorem countP_enqueue (m : MaekawaExclusion) (r : MaekawaRequest) (k : NodeId) :
    ((m.enqueue r).requestQueue.countP fun x => x.requester = k) =
      (m.requestQueue.countP fun x => x.requester = k) +
        if k = r.requester then 1 else 0 := by
  rw [MaekawaExclusion.enqueue, (List.perm_insertionSort _ _).countP_eq,
    List.countP_append, List.countP_singleton]
  simp only [decide_eq_true_eq, eq_comm (a := k)]

theorem setMutex_setMutex (n : NodeId) (m m' : MaekawaExclusion) :
    (s.setMutex n m).setMutex n m' = s.setMutex n m' := by
  simp [setMutex, setNode]

theorem field_send {α : Sort*} (f : MaekawaNode → α)
    (hf : ∀ m clock, f { m with clock := clock } = f m) (n target : NodeId)
    (msg : MaekawaMsg) (i : NodeId) :
    f ((s.send n target msg).node i) = f (s.node i) :=
  field_setNode s f (hf _ _) i

@[simp] theorem mutex_send (n target : NodeId) (msg : MaekawaMsg) (i : NodeId) :
    ((s.send n target msg).node i).mutex = (s.node i).mutex :=
  field_send s (·.mutex) (fun _ _ => rfl) n target msg i

@[simp] theorem call_send (n target : NodeId) (msg : MaekawaMsg) (i : NodeId) :
    ((s.send n target msg).node i).call = (s.node i).call :=
  field_send s (·.call) (fun _ _ => rfl) n target msg i

@[simp] theorem releasing_send (n target : NodeId) (msg : MaekawaMsg)
    (i : NodeId) :
    ((s.send n target msg).node i).releasing = (s.node i).releasing :=
  field_send s (·.releasing) (fun _ _ => rfl) n target msg i

end Links

/-! ## The invariant -/

/-- The votes are as `P` says. -/
structure Inv (c : QuorumSystem) (P : Ballot NodeId NodeId → Prop)
    (s : MaekawaSystem) : Prop where
  votes : P (s.ballot c)
  signed : ∀ i j, (s.link i j).Signed i
  node : ∀ i, (s.node i).Inv c i

section Signed

variable {s : MaekawaSystem}

theorem signed_send (h : ∀ i j, (s.link i j).Signed i) {n : NodeId}
    {msg : MaekawaMsg} (hmsg : (MaekawaTask.received msg).Signed n)
    (target i j : NodeId) : ((s.send n target msg).link i j).Signed i := by
  simp only [send, link_setLink, link_setNode]
  split
  · next heq =>
    obtain ⟨rfl, rfl⟩ := heq
    refine ⟨(h i j).1, fun packet hmem => ?_⟩
    rcases List.mem_append.mp hmem with hmem | hmem
    · exact (h i j).2 packet hmem
    · cases List.mem_singleton.mp hmem
      exact hmsg
  · exact h i j

theorem signed_setHandler (h : ∀ i j, (s.link i j).Signed i) {p q : NodeId}
    {task : Option MaekawaTask} (htask : ∀ t ∈ task, t.Signed p) (i j : NodeId) :
    ((s.setHandler p q task).link i j).Signed i := by
  simp only [setHandler, link_setLink]
  split
  · next heq =>
    obtain ⟨rfl, rfl⟩ := heq
    exact ⟨htask, (h i j).2⟩
  · exact h i j

end Signed

section Votes

variable {c : QuorumSystem} {P : Ballot NodeId NodeId → Prop}
  {s : MaekawaSystem} {n : NodeId}

theorem Inv.grantVote [Ballot.Law P] {s₁ : MaekawaSystem} {r : MaekawaRequest}
    (h : s.Inv c P)
    (hfree : (s.ballot c).votedFor n = none)
    (hasking : ∀ k x, (s.ballot c).asking k x = (s₁.ballot c).asking k x +
      if k = r.requester ∧ x = n then 1 else 0)
    (hgranted : (s₁.ballot c).granted = (s.ballot c).granted)
    (hreleased : (s₁.ballot c).released = (s.ballot c).released)
    (hvoted : (s₁.ballot c).votedFor = (s.ballot c).votedFor)
    (hwants : (s₁.ballot c).wants = (s.ballot c).wants)
    (hsigned : ∀ i j, (s₁.link i j).Signed i)
    (hnode : ∀ i, (s₁.node i).Inv c i) : (s₁.grantVote n r).Inv c P := by
  have hmutex : ∀ {α : Type} (f : MaekawaExclusion → α),
      f { (s₁.node n).mutex with voted := some r, inquireSent := false } =
        f (s₁.node n).mutex →
      ∀ i, f ((s₁.grantVote n r).node i).mutex = f (s₁.node i).mutex :=
    fun f hf i => by
      rw [MaekawaSystem.grantVote, mutex_send, field_setMutex s₁ f hf]
  have hqueue := hmutex (·.requestQueue) rfl
  have hheld := hmutex (·.votesHeld) rfl
  have hasked : ((s₁.grantVote n r).ballot c).asking = (s₁.ballot c).asking := by
    funext k x
    simp only [ballot, hqueue]
    simp [MaekawaSystem.grantVote, total_send, MaekawaTask.request]
  have hgave : ∀ k x, ((s₁.grantVote n r).ballot c).granted k x =
      (s₁.ballot c).granted k x +
        if k = r.requester ∧ x = n then 1 else 0 := by
    intro k x
    simp only [ballot, hheld]
    simp only [MaekawaSystem.grantVote, total_send, link_setMutex,
      MaekawaTask.grant, MaekawaTask.back, ite_self, and_comm]
    omega
  have hkept : ((s₁.grantVote n r).ballot c).released =
      (s₁.ballot c).released := by
    funext k x
    simp [ballot, MaekawaSystem.grantVote, total_send, MaekawaTask.release]
  have hgrants : (s.ballot c).Grants ((s₁.grantVote n r).ballot c)
      r.requester n := by
    refine ⟨⟨fun k x hkx => ?_, fun k x hkx => ?_, fun k x _ => ?_,
      fun x hx => ?_, ?_⟩, hfree, ?_, ?_, ?_, ?_⟩
    · rw [hasked, hasking, if_neg hkx, Nat.add_zero]
    · rw [hgave, hgranted, if_neg hkx, Nat.add_zero]
    · rw [hkept, hreleased]
    · rw [← hvoted]
      simp [ballot, MaekawaSystem.grantVote, mutex_setMutex, hx]
    · rw [← hwants]
      simp [ballot, MaekawaSystem.grantVote]
    · simp [ballot, MaekawaSystem.grantVote, mutex_setMutex]
    · rw [hasked, hasking, if_pos ⟨rfl, rfl⟩]
    · rw [hgave, hgranted, if_pos ⟨rfl, rfl⟩]
    · rw [hkept, hreleased]
  have hmsg : (MaekawaTask.received (.locked r.resource n)).Signed n := rfl
  refine ⟨Ballot.Law.grants h.votes hgrants, ?_, fun i =>
    (hnode i).same (by simp [MaekawaSystem.grantVote]) (hheld i)
      (hmutex (·.csEvent) rfl i) (hmutex (·.inCs) rfl i)⟩
  exact signed_send (s := s₁.setMutex n _) hsigned hmsg r.requester

def grantNext (s : MaekawaSystem) (n : NodeId) : MaekawaSystem :=
  match (s.node n).mutex.requestQueue with
  | [] => s
  | r :: rest =>
      (s.setMutex n { (s.node n).mutex with requestQueue := rest }).grantVote n r

theorem Inv.grantNext [Ballot.Law P] (h : s.Inv c P)
    (hfree : (s.node n).mutex.voted = none) :
    (s.grantNext n).Inv c P := by
  unfold MaekawaSystem.grantNext
  split
  · exact h
  · next r rest hqueue =>
    have hmutex : ∀ {α : Type} (f : MaekawaExclusion → α),
        f { (s.node n).mutex with requestQueue := rest } = f (s.node n).mutex →
        ∀ i, f ((s.setMutex n
          { (s.node n).mutex with requestQueue := rest }).node i).mutex =
            f (s.node i).mutex :=
      fun f hf i => field_setMutex s f hf i
    refine h.grantVote (by simp [ballot, hfree]) (fun k x => ?_) ?_ ?_ ?_ ?_
      h.signed fun i => (h.node i).same (call_setMutex _ _ _ _)
        (hmutex (·.votesHeld) rfl i) (hmutex (·.csEvent) rfl i)
        (hmutex (·.inCs) rfl i)
    · simp only [ballot, call_setMutex, link_setMutex, mutex_setMutex]
      by_cases hx : x = n
      · subst hx
        simp only [if_true, hqueue, List.countP_cons, and_true,
          decide_eq_true_eq, eq_comm (a := k)]
        omega
      · simp [hx]
    · funext k x
      simp only [ballot, link_setMutex, hmutex (·.votesHeld) rfl]
    · funext k x
      simp only [ballot, link_setMutex, releasing_setMutex]
    · funext x
      simp only [ballot, hmutex (·.voted) rfl]
    · funext k x
      simp only [ballot, call_setMutex]

theorem handleRelease_eq (s : MaekawaSystem) (n : NodeId) :
    s.handleRelease n = (s.setMutex n (s.node n).mutex.clearVote).grantNext n := by
  unfold handleRelease MaekawaSystem.grantNext
  rw [mutex_setMutex_self]
  generalize (s.node n).mutex.clearVote = m
  cases hqueue : m.requestQueue with
  | nil => simp only [hqueue]
  | cons r rest => simp only [hqueue, setMutex_setMutex]

theorem handleRelinquish_eq {old : MaekawaRequest}
    (hold : (s.node n).mutex.voted = some old) :
    s.handleRelinquish n =
      (s.setMutex n ((s.node n).mutex.enqueue old).clearVote).grantNext n := by
  unfold handleRelinquish MaekawaSystem.grantNext
  rw [mutex_setMutex_self]
  simp only [hold, MaekawaExclusion.clearVote]
  generalize (s.node n).mutex.enqueue old = m
  cases hqueue : m.requestQueue with
  | nil => rfl
  | cons r rest =>
      simp only [setMutex_setMutex, MaekawaSystem.grantVote, mutex_setMutex_self]

theorem Inv.handleRelease [Ballot.Law P] (h : s.Inv c P) {i : NodeId}
    {resource : Option Resource}
    (htask : (s.link i n).handler = some (.received (.release resource))) :
    ((s.setHandler i n none).handleRelease n).Inv c P := by
  rw [handleRelease_eq]
  refine Inv.grantNext ?_ (by rw [mutex_setMutex_self]; rfl)
  set s₂ := (s.setHandler i n none).setMutex n
    ((s.setHandler i n none).node n).mutex.clearVote with hs₂
  have hmutex : ∀ {α : Type} (f : MaekawaExclusion → α),
      f (s.node n).mutex.clearVote = f (s.node n).mutex →
      ∀ k, f (s₂.node k).mutex = f (s.node k).mutex :=
    fun f hf k => field_setMutex (s.setHandler i n none) f hf k
  have hasking : ∀ k x,
      (s₂.ballot c).asking k x = (s.ballot c).asking k x := by
    intro k x
    simp only [ballot, hmutex (·.requestQueue) rfl]
    simp [hs₂, total_setHandler s htask, MaekawaTask.request]
  have hgranted : ∀ k x,
      (s₂.ballot c).granted k x = (s.ballot c).granted k x := by
    intro k x
    simp only [ballot, hmutex (·.votesHeld) rfl]
    simp [hs₂, total_setHandler s htask, MaekawaTask.grant, MaekawaTask.back]
  have hreleased : ∀ k x, (s.ballot c).released k x =
      (s₂.ballot c).released k x + if k = i ∧ x = n then 1 else 0 := by
    intro k x
    simp [ballot, hs₂, total_setHandler s htask, MaekawaTask.release,
      Nat.add_assoc]
  have hfrees : (s.ballot c).Frees (s₂.ballot c) i n := by
    refine ⟨⟨fun k x _ => hasking k x, fun k x _ => hgranted k x,
      fun k x hkx => ?_, fun x hx => ?_, ?_⟩, ?_, hasking i n, hgranted i n, ?_⟩
    · rw [hreleased, if_neg hkx, Nat.add_zero]
    · simp [ballot, hs₂, mutex_setMutex, hx]
    · simp [ballot, hs₂]
    · simp [ballot, hs₂, MaekawaExclusion.clearVote]
    · rw [hreleased, if_pos ⟨rfl, rfl⟩]
  refine ⟨Ballot.Law.frees h.votes hfrees, ?_, fun k => ?_⟩
  · exact signed_setHandler (q := n) h.signed (by simp)
  · exact (h.node k).same (call_setMutex _ _ _ _) (hmutex (·.votesHeld) rfl k)
      (hmutex (·.csEvent) rfl k) (hmutex (·.inCs) rfl k)

theorem Inv.handleRelinquish [Ballot.Law P] (h : s.Inv c P) {i : NodeId}
    {resource : Resource}
    (htask : (s.link i n).handler = some (.received (.relinquish resource))) :
    ((s.setHandler i n none).handleRelinquish n).Inv c P := by
  -- The vote that comes back is the one that `n` has given to `i`.
  have hpos : 0 < (s.link i n).total MaekawaTask.back := by
    rw [MaekawaLink.total, htask]
    exact Nat.lt_of_lt_of_le Nat.one_pos (Nat.le_add_right 1 _)
  have hvoted : (s.ballot c).votedFor n = some i :=
    Ballot.Law.own h.votes (by simp only [ballot]; omega)
  obtain ⟨old, hold, hi⟩ := Option.map_eq_some_iff.mp hvoted
  have hold' : ((s.setHandler i n none).node n).mutex.voted = some old := hold
  rw [handleRelinquish_eq hold']
  refine Inv.grantNext ?_ (by rw [mutex_setMutex_self]; rfl)
  set s₂ := (s.setHandler i n none).setMutex n
    (((s.setHandler i n none).node n).mutex.enqueue old).clearVote with hs₂
  have hmutex : ∀ {α : Type} (f : MaekawaExclusion → α),
      f ((s.node n).mutex.enqueue old).clearVote = f (s.node n).mutex →
      ∀ k, f (s₂.node k).mutex = f (s.node k).mutex :=
    fun f hf k => field_setMutex (s.setHandler i n none) f hf k
  have hasking : ∀ k x, (s₂.ballot c).asking k x =
      (s.ballot c).asking k x + if k = i ∧ x = n then 1 else 0 := by
    intro k x
    have hlink : (s₂.link k x).total MaekawaTask.request =
        (s.link k x).total MaekawaTask.request := by
      simp [hs₂, total_setHandler s htask, MaekawaTask.request]
    have hqueue : (s₂.node x).mutex.requestQueue.countP
        (fun r => r.requester = k) =
        ((s.node x).mutex.requestQueue.countP fun r => r.requester = k) +
          if k = i ∧ x = n then 1 else 0 := by
      by_cases hx : x = n
      · subst hx
        rw [hs₂, mutex_setMutex_self]
        have hcount := countP_enqueue (s.node x).mutex old k
        rw [hi] at hcount
        simpa [MaekawaExclusion.clearVote] using hcount
      · simp [hs₂, mutex_setMutex, hx]
    simp only [ballot, hlink, hqueue]
    simp [hs₂, Nat.add_assoc]
  have hgranted : ∀ k x, (s.ballot c).granted k x =
      (s₂.ballot c).granted k x + if k = i ∧ x = n then 1 else 0 := by
    intro k x
    simp only [ballot, hmutex (·.votesHeld) rfl]
    simp [hs₂, total_setHandler s htask, MaekawaTask.grant, MaekawaTask.back,
      Nat.add_assoc]
  have hreleased : ∀ k x,
      (s₂.ballot c).released k x = (s.ballot c).released k x := by
    intro k x
    simp [ballot, hs₂, total_setHandler s htask, MaekawaTask.release]
  have hreturns : (s.ballot c).Returns (s₂.ballot c) i n := by
    refine ⟨⟨fun k x hkx => ?_, fun k x hkx => ?_, fun k x _ => hreleased k x,
      fun x hx => ?_, ?_⟩, ?_, ?_, ?_, hreleased i n⟩
    · rw [hasking, if_neg hkx, Nat.add_zero]
    · rw [hgranted, if_neg hkx, Nat.add_zero]
    · simp [ballot, hs₂, mutex_setMutex, hx]
    · simp [ballot, hs₂]
    · simp [ballot, hs₂, MaekawaExclusion.clearVote]
    · rw [hasking, if_pos ⟨rfl, rfl⟩]
    · rw [hgranted, if_pos ⟨rfl, rfl⟩]
  refine ⟨Ballot.Law.returns h.votes hreturns, ?_, fun k => ?_⟩
  · exact signed_setHandler (q := n) h.signed (by simp)
  · exact (h.node k).same (call_setMutex _ _ _ _) (hmutex (·.votesHeld) rfl k)
      (hmutex (·.csEvent) rfl k) (hmutex (·.inCs) rfl k)

theorem Inv.queued {s₁ : MaekawaSystem} {r : MaekawaRequest} (h : s.Inv c P)
    {m : MaekawaExclusion} {target : NodeId} {msg : MaekawaMsg}
    (hm : m = { (s.node n).mutex.enqueue r with inquireSent := m.inquireSent })
    (hidle : msg.Idle) (hmsg : (MaekawaTask.received msg).Signed n)
    (hasking : ∀ k x, (s.ballot c).asking k x = (s₁.ballot c).asking k x +
      if k = r.requester ∧ x = n then 1 else 0)
    (hgranted : (s₁.ballot c).granted = (s.ballot c).granted)
    (hreleased : (s₁.ballot c).released = (s.ballot c).released)
    (hsigned : ∀ i j, (s₁.link i j).Signed i) (hnode : s₁.node = s.node) :
    ((s₁.setMutex n m).send n target msg).Inv c P := by
  set s₂ := (s₁.setMutex n m).send n target msg with hs₂
  have hmutex : ∀ {α : Type} (f : MaekawaExclusion → α),
      f m = f (s.node n).mutex → ∀ k, f (s₂.node k).mutex = f (s.node k).mutex := by
    intro α f hf k
    rw [hs₂, mutex_send, field_setMutex s₁ f (by rw [hnode]; exact hf), hnode]
  have hqueue : ∀ k x, (s₂.node x).mutex.requestQueue.countP
      (fun r => r.requester = k) =
      ((s₁.node x).mutex.requestQueue.countP fun r => r.requester = k) +
        if k = r.requester ∧ x = n then 1 else 0 := by
    intro k x
    by_cases hx : x = n
    · subst hx
      rw [hs₂, mutex_send, mutex_setMutex_self, hm, hnode]
      simpa using countP_enqueue (s.node x).mutex r k
    · simp [hs₂, mutex_setMutex, hx]
  have hballot : s₂.ballot c = s.ballot c := by
    apply Ballot.ext
    · funext k x
      rw [hasking]
      simp only [ballot, hqueue]
      simp [hs₂, total_send, hidle.request, Nat.add_assoc]
    · rw [← hgranted]
      funext k x
      simp only [ballot, hmutex (·.votesHeld) (by rw [hm]; rfl)]
      simp [hs₂, total_send, hidle.grant, hidle.back, hnode]
    · rw [← hreleased]
      funext k x
      simp [ballot, hs₂, total_send, hidle.release]
    · funext x
      simp only [ballot, hmutex (·.voted) (by rw [hm]; rfl)]
    · funext k x
      simp [ballot, hs₂, hnode]
  refine ⟨by rw [hballot]; exact h.votes, ?_, fun k => ?_⟩
  · exact signed_send (s := s₁.setMutex n m) hsigned hmsg target
  · refine (h.node k).same ?_ (hmutex (·.votesHeld) (by rw [hm]; rfl) k)
      (hmutex (·.csEvent) (by rw [hm]; rfl) k) (hmutex (·.inCs) (by rw [hm]; rfl) k)
    rw [hs₂, call_send, call_setMutex, hnode]

theorem Inv.handleRequest [Ballot.Law P] (h : s.Inv c P) {i : NodeId} {resource : Resource}
    {reqTs : Nat}
    (htask : (s.link i n).handler = some (.received (.request resource reqTs))) :
    ((s.setHandler i n none).handleRequest n i resource reqTs).Inv c P := by
  set s₁ := s.setHandler i n none with hs₁
  have hsigned : ∀ p q, (s₁.link p q).Signed p :=
    signed_setHandler h.signed (by simp)
  have hasking : ∀ k x, (s.ballot c).asking k x = (s₁.ballot c).asking k x +
      if k = i ∧ x = n then 1 else 0 := by
    intro k x
    simp only [ballot, hs₁, node_setHandler, total_setHandler s htask,
      MaekawaTask.request]
    omega
  have hgranted : (s₁.ballot c).granted = (s.ballot c).granted := by
    funext k x
    simp [ballot, hs₁, total_setHandler s htask, MaekawaTask.grant,
      MaekawaTask.back]
  have hreleased : (s₁.ballot c).released = (s.ballot c).released := by
    funext k x
    simp [ballot, hs₁, total_setHandler s htask, MaekawaTask.release]
  unfold MaekawaSystem.handleRequest
  dsimp only
  split
  · next hfree =>
    have hfree' : (s.ballot c).votedFor n = none := by
      simp only [ballot]
      exact congrArg (Option.map (·.requester)) hfree
    exact h.grantVote hfree' hasking hgranted hreleased rfl rfl hsigned h.node
  · have hqueued : ∀ (m : MaekawaExclusion) (target : NodeId) (msg : MaekawaMsg),
        m = { (s.node n).mutex.enqueue ⟨reqTs, i, resource⟩ with
          inquireSent := m.inquireSent } → msg.Idle →
        (MaekawaTask.received msg).Signed n →
        ((s₁.setMutex n m).send n target msg).Inv c P :=
      fun m target msg hm hmsg hby =>
        h.queued hm hmsg hby hasking hgranted hreleased hsigned rfl
    split
    · exact hqueued _ _ _ rfl ⟨rfl, rfl, rfl, rfl⟩ rfl
    · exact hqueued _ _ _ rfl ⟨rfl, rfl, rfl, rfl⟩ trivial

end Votes

/-! ## The candidate -/

section Candidate

variable {c : QuorumSystem} {P : Ballot NodeId NodeId → Prop}
  {s : MaekawaSystem} {n : NodeId}

theorem Inv.wants_of_granted (h : s.Inv c Ballot.Balanced) {i v : NodeId}
    (hpos : 0 < (s.ballot c).granted i v) : (s.ballot c).wants i v := by
  by_contra hw
  have hzero := h.votes.unwanted i v hw
  omega

theorem granted_of_held {i v : NodeId} (hv : v ∈ (s.node i).mutex.votesHeld) :
    0 < (s.ballot c).granted i v := by
  simp only [ballot, if_pos hv]
  omega

theorem total_pos {i j : NodeId} {task : MaekawaTask}
    {weight : MaekawaTask → Nat} (h : (s.link i j).handler = some task)
    (hweight : 0 < weight task) : 0 < (s.link i j).total weight := by
  rw [MaekawaLink.total, h]
  exact Nat.lt_of_lt_of_le hweight (Nat.le_add_right _ _)

private theorem holds_of_card {i : NodeId} {held : Finset NodeId}
    (hsub : ∀ v ∈ held, v ∈ c.quorum i) (hcard : (c.quorum i).length ≤ held.card) :
    ∀ v ∈ c.quorum i, v ∈ held := by
  have hsubset : held ⊆ (c.quorum i).toFinset := fun v hv =>
    List.mem_toFinset.mpr (hsub v hv)
  have hlength : (c.quorum i).toFinset.card ≤ held.card := by
    rw [List.toFinset_card_of_nodup (c.distinct i)]
    exact hcard
  intro v hv
  rw [Finset.eq_of_subset_of_card_le hsubset hlength]
  exact List.mem_toFinset.mpr hv

theorem targets_wake (call : MaekawaCall) : call.wake.targets = call.targets := by
  cases call <;> rfl

theorem wake_eq_idle {call : MaekawaCall} : call.wake = .idle ↔ call = .idle := by
  cases call <;> simp [MaekawaCall.wake]

theorem wake_eq_inside {call : MaekawaCall} :
    call.wake = .inside ↔ call = .inside := by
  cases call <;> simp [MaekawaCall.wake]

theorem Inv.handleLocked [Ballot.Law P] (h : s.Inv c P) {i voter : NodeId}
    {resource : Resource}
    (hquorum : ∀ v, 0 < (s.ballot c).granted n v → v ∈ c.quorum n)
    (htask : (s.link i n).handler =
      some (.received (.locked resource voter))) :
    ((s.setHandler i n none).handleLocked (c.quorum n).length n voter).Inv c P := by
  have hvoter : voter = i := (h.signed i n).1 _ htask
  subst hvoter
  have hpos : 0 < (s.link voter n).total MaekawaTask.grant :=
    total_pos htask Nat.one_pos
  -- A vote is granted once, so the one that arrives is not held yet.
  have hnew : voter ∉ (s.node n).mutex.votesHeld := by
    intro hmem
    have hone := Ballot.Law.one h.votes (i := n) (w := voter)
    simp only [ballot, if_pos hmem] at hone
    omega
  set m : MaekawaNode :=
    { s.node n with
      mutex := (s.node n).mutex.handleLocked (c.quorum n).length voter
      call :=
        if (c.quorum n).length ≤ (insert voter (s.node n).mutex.votesHeld).card
        then (s.node n).call.wake
        else (s.node n).call } with hm
  have htargets : m.call.targets = (s.node n).call.targets := by
    rw [hm]
    dsimp only
    split
    · exact targets_wake _
    · rfl
  have hidle : m.call = .idle ↔ (s.node n).call = .idle := by
    rw [hm]
    dsimp only
    split
    · exact wake_eq_idle
    · rfl
  set s₁ := s.setHandler voter n none with hs₁
  change (s₁.setNode n m).Inv c P
  have hsame : ∀ {α : Type} (f : MaekawaNode → α), f m = f (s.node n) →
      ∀ k, f ((s₁.setNode n m).node k) = f (s.node k) :=
    fun f hf k => field_setNode s₁ f hf k
  have hballot : (s₁.setNode n m).ballot c = s.ballot c := by
    apply Ballot.ext
    · funext k x
      simp only [ballot, hsame (·.call.targets) htargets,
        hsame (·.mutex.requestQueue) rfl]
      simp [hs₁, total_setHandler s htask, MaekawaTask.request]
    · funext k x
      simp only [ballot, link_setNode, total_setHandler s htask, hs₁,
        MaekawaTask.grant, MaekawaTask.back, node_setNode, node_setHandler]
      by_cases hk : k = n
      · subst hk
        by_cases hx : x = voter
        · subst hx
          simp [hm, MaekawaExclusion.handleLocked, hnew]
        · simp [hm, MaekawaExclusion.handleLocked, hx]
      · simp [hk]
    · funext k x
      simp only [ballot, hsame (·.releasing) rfl]
      simp [hs₁, total_setHandler s htask, MaekawaTask.release]
    · funext x
      simp only [ballot, hsame (·.mutex.voted) rfl]
    · funext k x
      simp only [ballot, hsame (·.call ≠ .idle) (propext (not_congr hidle))]
  have hsub : ∀ v ∈ m.mutex.votesHeld, v ∈ c.quorum n := by
    intro v hv
    rcases Finset.mem_insert.mp hv with rfl | hv
    · have hgranted : 0 < (s.ballot c).granted n v := by
        simp only [ballot]
        omega
      exact hquorum v hgranted
    · exact hquorum v (granted_of_held hv)
  refine ⟨by rw [hballot]; exact h.votes, ?_, fun k => ?_⟩
  · exact signed_setHandler h.signed (by simp)
  rw [node_setNode]
  split
  · next heq =>
    subst heq
    refine ⟨fun hcall => (h.node k).caller fun hk => hcall (hidle.mpr hk), ?_, ?_⟩
    · intro hsignalled
      by_cases hcard : (c.quorum k).length ≤ m.mutex.votesHeld.card
      · exact holds_of_card hsub hcard
      · have hcall : m.call = (s.node k).call := if_neg hcard
        have hevent : m.mutex.csEvent = (s.node k).mutex.csEvent := by
          simp only [hm, MaekawaExclusion.handleLocked] at hcard ⊢
          simp [hcard]
        unfold MaekawaNode.Signalled at hsignalled
        rw [hcall, hevent] at hsignalled
        intro v hv
        exact Finset.mem_insert_of_mem ((h.node k).signalled hsignalled v hv)
    · intro hinside
      refine (h.node k).entered ?_
      rw [hm] at hinside
      dsimp only at hinside
      split at hinside
      · exact wake_eq_inside.mp hinside
      · exact hinside
  · exact h.node k

theorem Inv.quiet {s' : MaekawaSystem} (h : s.Inv c P)
    (hballot : s'.ballot c = s.ballot c)
    (hsigned : ∀ i j, (s'.link i j).Signed i)
    (hnode : ∀ i, (s'.node i).Inv c i) : s'.Inv c P :=
  ⟨by rw [hballot]; exact h.votes, hsigned, hnode⟩

theorem ballot_done {i : NodeId} {msg : MaekawaMsg}
    (htask : (s.link i n).handler = some (.received msg)) (hidle : msg.Idle) :
    (s.setHandler i n none).ballot c = s.ballot c := by
  simp only [ballot, node_setHandler, total_setHandler s htask, hidle.request,
    hidle.grant, hidle.back, hidle.release, ite_self, Nat.add_zero]
  rfl

theorem Inv.handleInquire (h : s.Inv c P) {i voter : NodeId} {resource : Resource}
    (htask : (s.link i n).handler =
      some (.received (.inquire resource voter)))
    (hcalm : (s.node n).call = .woken → (s.node n).mutex.gives voter = false) :
    ((s.setHandler i n none).handleInquire n i resource voter).Inv c P := by
  have hvoter : voter = i := (h.signed i n).1 _ htask
  subst hvoter
  unfold MaekawaSystem.handleInquire
  rw [node_setHandler]
  split
  · next hgives =>
    have hheld : voter ∈ (s.node n).mutex.votesHeld := by
      simp only [MaekawaExclusion.gives, Bool.and_eq_true,
        decide_eq_true_eq] at hgives
      exact hgives.2
    set m := (s.node n).mutex.handleInquire voter with hm
    set s₁ := (s.setHandler voter n none).setMutex n m with hs₁
    set s₂ := s₁.setHandler voter n (some (.relinquish voter resource)) with hs₂
    have hsame : ∀ {α : Type} (f : MaekawaExclusion → α),
        f m = f (s.node n).mutex → ∀ k, f (s₂.node k).mutex = f (s.node k).mutex :=
      fun f hf k => field_setMutex (s.setHandler voter n none) f hf k
    have hlink : s₂.link =
        (s.setHandler voter n (some (.relinquish voter resource))).link :=
      link_setHandler_setHandler s voter n _ _ n m
    have htotal : ∀ p q weight,
        weight (.received (.inquire resource voter)) =
          weight (.relinquish voter resource) →
        (s₂.link p q).total weight = (s.link p q).total weight := by
      intro p q weight hweight
      have hreplace := total_replace s htask (.relinquish voter resource) p q
        weight
      rw [← hlink, hweight] at hreplace
      exact Nat.add_right_cancel hreplace
    have hcall : ∀ k, (s₂.node k).call = (s.node k).call := fun k =>
      call_setMutex _ n k m
    have hreleasing : ∀ k, (s₂.node k).releasing = (s.node k).releasing :=
      fun k => releasing_setMutex _ n k m
    have hmutex' : ∀ k,
        (s₂.node k).mutex = if k = n then m else (s.node k).mutex :=
      fun k => mutex_setMutex _ n k m
    have hballot : s₂.ballot c = s.ballot c := by
      apply Ballot.ext
      · funext k x
        simp only [ballot, hcall, hsame (·.requestQueue) rfl,
          htotal k x MaekawaTask.request rfl]
      · funext k x
        have hgrant := total_replace s htask (.relinquish voter resource) x k
          MaekawaTask.grant
        rw [← hlink] at hgrant
        simp only [MaekawaTask.grant, ite_self, Nat.add_zero] at hgrant
        simp only [ballot, htotal k x MaekawaTask.back rfl, hgrant, hmutex']
        by_cases hk : k = n
        · subst hk
          by_cases hx : x = voter
          · subst hx
            simp [hm, MaekawaExclusion.handleInquire, hheld]
          · simp [hm, MaekawaExclusion.handleInquire, hx]
        · simp [hk]
      · funext k x
        simp only [ballot, htotal k x MaekawaTask.release rfl, hreleasing]
      · funext x
        simp only [ballot, hsame (·.voted) rfl]
      · funext k x
        simp only [ballot, hcall]
    refine ⟨by rw [hballot]; exact h.votes, ?_, fun k => ?_⟩
    · have htask' : MaekawaTask.Signed voter (.relinquish voter resource) := rfl
      refine signed_setHandler (s := s₁) ?_ (by simpa using htask')
      exact signed_setHandler (s := s) h.signed (by simp)
    by_cases hk : k = n
    · subst hk
      have hevent : (s₂.node k).mutex.csEvent = false := by
        simp [hs₂, hs₁, hm, MaekawaExclusion.handleInquire]
      have hin : (s₂.node k).mutex.inCs = (s.node k).mutex.inCs :=
        hsame (·.inCs) rfl k
      refine ⟨by rw [hcall]; exact (h.node k).caller, fun hsignalled => ?_, ?_⟩
      · -- A caller that gives a vote back is neither woken nor inside.
        unfold MaekawaNode.Signalled at hsignalled
        rw [hcall, hevent] at hsignalled
        exfalso
        cases hphase : (s.node k).call with
        | idle => simp [hphase] at hsignalled
        | asking resource targets => simp [hphase] at hsignalled
        | waiting => simp [hphase] at hsignalled
        | woken =>
            rw [hcalm hphase] at hgives
            cases hgives
        | inside =>
            have hentered := (h.node k).entered hphase
            simp [MaekawaExclusion.gives, hentered] at hgives
      · rw [hcall, hin]
        exact (h.node k).entered
    · have hnode : s₂.node k = s.node k :=
        (node_setNode _ n k _).trans (if_neg hk)
      rw [hnode]
      exact h.node k
  · exact h.quiet (ballot_done htask ⟨rfl, rfl, rfl, rfl⟩)
      (signed_setHandler h.signed (by simp)) h.node

theorem Inv.handle [Ballot.Law P] (h : s.Inv c P) {i : NodeId} {msg : MaekawaMsg}
    (hquorum : ∀ v, 0 < (s.ballot c).granted n v → v ∈ c.quorum n)
    (htask : (s.link i n).handler = some (.received msg))
    (hcalm : ∀ resource voter, msg = .inquire resource voter →
      (s.node n).call = .woken → (s.node n).mutex.gives voter = false) :
    ((s.setHandler i n none).handle c i n msg).Inv c P := by
  cases msg with
  | request resource requestTs => exact h.handleRequest htask
  | locked resource voter => exact h.handleLocked hquorum htask
  | failed resource =>
      exact h.quiet (ballot_done htask ⟨rfl, rfl, rfl, rfl⟩)
        (signed_setHandler h.signed (by simp)) h.node
  | inquire resource voter => exact h.handleInquire htask (hcalm _ _ rfl)
  | relinquish resource => exact h.handleRelinquish htask
  | release resource => exact h.handleRelease htask

theorem Inv.tick (h : s.Inv c P) (clock : LamportClock) :
    (s.setNode n { s.node n with clock := clock }).Inv c P := by
  have hsame : ∀ {α : Type} (f : MaekawaNode → α),
      f { s.node n with clock := clock } = f (s.node n) → ∀ k,
      f ((s.setNode n { s.node n with clock := clock }).node k) = f (s.node k) :=
    fun f hf k => field_setNode s f hf k
  have hmutex := hsame (·.mutex) rfl
  have hcall := hsame (·.call) rfl
  have hreleasing := hsame (·.releasing) rfl
  refine h.quiet ?_ h.signed fun k => (h.node k).same (hcall k) ?_ ?_ ?_
  · simp only [ballot, hmutex, hcall, hreleasing, link_setNode]
  all_goals rw [hmutex]

theorem Inv.deliver (h : s.Inv c P) {i : NodeId} {packet : MaekawaPacket}
    {rest : List MaekawaPacket} (hqueue : (s.link i n).queue = packet :: rest)
    (hhandler : (s.link i n).handler = none) :
    (s.setLink i n ⟨rest, some (.received packet.msg)⟩).Inv c P := by
  refine h.quiet ?_ (fun p q => ?_) h.node
  · simp only [ballot, total_deliver s hqueue hhandler, node_setLink]
    rfl
  · rw [link_setLink]
    split
    · next heq =>
      obtain ⟨rfl, rfl⟩ := heq
      have hall := (h.signed p q).2
      rw [hqueue] at hall
      refine ⟨?_, fun packet' hmem => hall packet' (List.mem_cons_of_mem _ hmem)⟩
      simpa using hall packet List.mem_cons_self
    · exact h.signed p q

theorem Inv.sendRelinquish (h : s.Inv c P) {i voter : NodeId} {resource : Resource}
    (htask : (s.link i n).handler = some (.relinquish voter resource)) :
    ((s.setHandler i n none).send n voter (.relinquish resource)).Inv c P := by
  have hvoter : voter = i := (h.signed i n).1 _ htask
  subst hvoter
  refine h.quiet ?_ ?_ fun k => (h.node k).same (call_send _ _ _ _ k)
    (by rw [mutex_send]; rfl) (by rw [mutex_send]; rfl)
    (by rw [mutex_send]; rfl)
  · apply Ballot.ext
    · funext k x
      simp [ballot, total_send, total_setHandler s htask, MaekawaTask.request]
    · funext k x
      simp only [ballot, mutex_send, node_setHandler, total_send,
        total_setHandler s htask, MaekawaTask.grant, MaekawaTask.back, ite_self,
        Nat.add_zero, and_comm (a := k = n)]
      omega
    · funext k x
      simp [ballot, total_send, total_setHandler s htask, MaekawaTask.release]
    · funext x
      simp [ballot]
    · funext k x
      simp [ballot]
  · have hmsg : (MaekawaTask.received (.relinquish resource)).Signed n := trivial
    exact signed_send (signed_setHandler h.signed (by simp)) hmsg voter

private theorem asking_requestCs {m : MaekawaNode} (hidle : (s.node n).call = .idle)
    (htargets : m.call.targets = c.quorum n)
    (hqueue : m.mutex.requestQueue = (s.node n).mutex.requestQueue) (k w : NodeId) :
    ((s.setNode n m).ballot c).asking k w =
      (s.ballot c).asking k w + if k = n then (c.quorum n).count w else 0 := by
  simp only [ballot, field_setNode s (m := m) (·.mutex.requestQueue) hqueue,
    link_setNode, call_setNode]
  by_cases hk : k = n
  · subst hk
    have hnone : (s.node k).call.targets = [] := by rw [hidle]; rfl
    simp only [if_true, htargets, hnone, List.count_nil]
    omega
  · simp [hk]

theorem Inv.requestCs (h : s.Inv c Ballot.Balanced) (hn : n ∈ c.nodes)
    (hidle : (s.node n).call = .idle) (resource : Resource) (clock : LamportClock) :
    (s.setNode n
      { s.node n with
        clock := clock
        mutex := (s.node n).mutex.requestCs resource clock.time
        call := .asking resource (c.quorum n) }).Inv c Ballot.Balanced := by
  set m : MaekawaNode :=
    { s.node n with
      clock := clock
      mutex := (s.node n).mutex.requestCs resource clock.time
      call := .asking resource (c.quorum n) } with hm
  have hsame : ∀ {α : Type} (f : MaekawaNode → α), f m = f (s.node n) →
      ∀ k, f ((s.setNode n m).node k) = f (s.node k) :=
    fun f hf k => field_setNode s f hf k
  have hnone : ∀ v, v ∉ (s.node n).mutex.votesHeld := fun v hv =>
    (h.wants_of_granted (granted_of_held hv)).1 hidle
  have hasking := asking_requestCs (c := c) (m := m) hidle rfl rfl
  have hasks : (s.ballot c).Asks ((s.setNode n m).ballot c) n (c.quorum n) := by
    refine ⟨fun w hw => hw.1 hidle, fun k w => ?_, fun w hw => ?_,
      fun w hw => ?_, fun k hk => ?_, ?_, ?_, ?_⟩
    · simp only [ballot, node_setNode]
      by_cases hk : k = n
      · subst hk
        simp [hm, hidle]
      · simp [hk]
    · rw [hasking, if_pos rfl, List.count_eq_one_of_mem (c.distinct n) hw]
    · rw [hasking, if_pos rfl, List.count_eq_zero_of_not_mem hw, Nat.add_zero]
    · funext w
      rw [hasking, if_neg hk, Nat.add_zero]
    · funext k w
      simp only [ballot, link_setNode, node_setNode]
      by_cases hk : k = n
      · subst hk
        simp [hm, MaekawaExclusion.requestCs, hnone w]
      · simp [hk]
    · funext k w
      simp only [ballot, link_setNode, hsame (·.releasing) rfl]
    · funext w
      simp only [ballot, hsame (·.mutex.voted) rfl]
  refine ⟨hasks.balanced h.votes, h.signed, fun k => ?_⟩
  rw [node_setNode]
  split
  · next heq =>
    subst heq
    exact .requestCs hn rfl rfl
  · exact h.node k

theorem Inv.sendRequest (h : s.Inv c P) {target : NodeId} {resource : Resource}
    {targets : List NodeId} (hcall : (s.node n).call = .asking resource targets)
    (hmem : target ∈ targets) (requestTs : Nat) :
    ((s.setNode n
      { s.node n with call := .asking resource (targets.erase target) }).send n
      target (.request resource requestTs)).Inv c P := by
  set m : MaekawaNode :=
    { s.node n with call := .asking resource (targets.erase target) } with hm
  have hsame : ∀ {α : Type} (f : MaekawaNode → α), f m = f (s.node n) →
      ∀ k, f ((s.setNode n m).node k) = f (s.node k) :=
    fun f hf k => field_setNode s f hf k
  have hmutex := hsame (·.mutex) rfl
  refine h.quiet ?_ ?_ fun k => ?_
  · apply Ballot.ext
    · funext k w
      simp only [ballot, mutex_send, hmutex, call_send, total_send, link_setNode,
        call_setNode, MaekawaTask.request]
      by_cases hk : k = n
      · subst hk
        have hcount := List.count_erase (a := w) (b := target) (l := targets)
        have hpos := List.count_pos_iff.mpr hmem
        simp only [hm, if_true, hcall, MaekawaCall.targets, hcount, beq_iff_eq,
          true_and, eq_comm (a := target)]
        by_cases hw : w = target
        · subst hw
          simp only [if_true]
          omega
        · simp [hw]
      · simp [hk]
    · funext k w
      simp [ballot, hmutex, total_send, MaekawaTask.grant, MaekawaTask.back]
    · funext k w
      simp [ballot, hsame (·.releasing) rfl, total_send, MaekawaTask.release]
    · funext w
      simp [ballot, hmutex]
    · funext k w
      have hidle : (m.call ≠ .idle) = ((s.node n).call ≠ .idle) := by
        simp [hm, hcall]
      simp only [ballot, call_send, hsame (·.call ≠ .idle) hidle]
  · have hmsg : (MaekawaTask.received (.request resource requestTs)).Signed n :=
      trivial
    exact signed_send (s := s.setNode n m) h.signed hmsg target
  · have hinv : ((s.setNode n m).node k).Inv c k := by
      rw [node_setNode]
      split
      · next heq =>
        subst heq
        refine ⟨fun _ => (h.node k).caller (by simp [hcall]), ?_, ?_⟩
        · have hsignalled := (h.node k).signalled
          unfold MaekawaNode.Signalled at hsignalled ⊢
          rw [hcall] at hsignalled
          exact hsignalled
        · simp [hm]
      · exact h.node k
    exact hinv.same (call_send _ _ _ _ k) (by rw [mutex_send])
      (by rw [mutex_send]) (by rw [mutex_send])

theorem Inv.proceeds {m : MaekawaNode} (h : s.Inv c P)
    (hm : m = { s.node n with
      mutex := { (s.node n).mutex with inCs := m.mutex.inCs }, call := m.call })
    (htargets : (s.node n).call.targets = [] ∧ m.call.targets = [])
    (hactive : (s.node n).call ≠ .idle ∧ m.call ≠ .idle)
    (hnode : m.Inv c n) : (s.setNode n m).Inv c P := by
  have hsame : ∀ {α : Type} (f : MaekawaNode → α), f m = f (s.node n) →
      ∀ k, f ((s.setNode n m).node k) = f (s.node k) :=
    fun f hf k => field_setNode s f hf k
  refine h.quiet ?_ h.signed fun k => ?_
  · apply Ballot.ext
    · funext k w
      simp only [ballot, link_setNode,
        hsame (·.call.targets) (htargets.2.trans htargets.1.symm),
        hsame (·.mutex.requestQueue) (by rw [hm])]
    · funext k w
      simp only [ballot, link_setNode, hsame (·.mutex.votesHeld) (by rw [hm])]
    · funext k w
      simp only [ballot, link_setNode, hsame (·.releasing) (by rw [hm])]
    · funext w
      simp only [ballot, hsame (·.mutex.voted) (by rw [hm])]
    · funext k w
      simp only [ballot, hsame (·.call ≠ .idle)
        (propext (iff_of_true hactive.2 hactive.1))]
  · rw [node_setNode]
    split
    · next heq => rw [heq]; exact hnode
    · exact h.node k

theorem countP_releases (c : QuorumSystem) (n : NodeId) (resource : Option Resource)
    (w : NodeId) :
    ((c.quorum n).map fun target => (target, resource)).countP
      (fun r => r.1 = w) = if w ∈ c.quorum n then 1 else 0 := by
  rw [List.countP_map]
  by_cases hw : w ∈ c.quorum n
  · rw [if_pos hw, ← List.count_eq_one_of_mem (c.distinct n) hw]
    rfl
  · rw [if_neg hw, ← List.count_eq_zero_of_not_mem hw]
    rfl

theorem Inv.releaseCs (h : s.Inv c Ballot.Balanced) (hcall : (s.node n).call = .inside) :
    (s.setNode n
      { s.node n with
        mutex := (s.node n).mutex.releaseCs
        call := .idle
        releasing := (s.node n).releasing ++ (c.quorum n).map fun target =>
          (target, (s.node n).mutex.requestResource) }).Inv c Ballot.Balanced := by
  set m : MaekawaNode :=
    { s.node n with
      mutex := (s.node n).mutex.releaseCs
      call := .idle
      releasing := (s.node n).releasing ++ (c.quorum n).map fun target =>
        (target, (s.node n).mutex.requestResource) } with hm
  have hsame : ∀ {α : Type} (f : MaekawaNode → α), f m = f (s.node n) →
      ∀ k, f ((s.setNode n m).node k) = f (s.node k) :=
    fun f hf k => field_setNode s f hf k
  have hholds : ∀ w ∈ c.quorum n, w ∈ (s.node n).mutex.votesHeld := by
    refine (h.node n).signalled ?_
    rw [MaekawaNode.Signalled, hcall]
    trivial
  -- The votes of the quorum are all held, and there are no others.
  have hgranted : ∀ w, (s.link w n).total MaekawaTask.grant = 0 ∧
      (s.link n w).total MaekawaTask.back = 0 ∧
      (w ∈ (s.node n).mutex.votesHeld ↔ w ∈ c.quorum n) := by
    intro w
    by_cases hw : w ∈ c.quorum n
    · have hone := Ballot.Law.one h.votes (i := n) (w := w)
      simp only [ballot, if_pos (hholds w hw)] at hone
      exact ⟨by omega, by omega, iff_of_true (hholds w hw) hw⟩
    · have hzero := h.votes.unwanted n w fun hwants => hw hwants.2
      simp only [ballot] at hzero
      refine ⟨by omega, by omega, iff_of_false (fun hheld => ?_) hw⟩
      exact hw (h.wants_of_granted (granted_of_held hheld)).2
  have hretires : (s.ballot c).Retires ((s.setNode n m).ballot c) n := by
    refine ⟨fun k w => ?_, ?_, fun w => ?_, fun w => ?_, fun w hw => ?_,
      fun k hk => ?_, fun k hk => ?_, ?_⟩
    · simp only [ballot, call_setNode]
      by_cases hk : k = n
      · simp [hk, hm]
      · simp [hk]
    · funext k w
      have htargets : m.call.targets = (s.node n).call.targets := by
        rw [hm, hcall]
        rfl
      simp only [ballot, link_setNode, hsame (·.call.targets) htargets,
        hsame (·.mutex.requestQueue) rfl]
    · obtain ⟨hgrant, hback, -⟩ := hgranted w
      simp [ballot, mutex_setNode, hm, MaekawaExclusion.releaseCs, hgrant, hback]
    · obtain ⟨hgrant, hback, hiff⟩ := hgranted w
      simp only [ballot, link_setNode, node_setNode, if_true, hm,
        List.countP_append, countP_releases, hgrant, hback, hiff]
      omega
    · have hpos := granted_of_held (c := c) (hholds w hw.2)
      omega
    · funext w
      simp [ballot, mutex_setNode, hk]
    · funext w
      simp [ballot, node_setNode, hk]
    · funext w
      simp only [ballot, hsame (·.mutex.voted) rfl]
  refine ⟨hretires.balanced h.votes, h.signed, fun k => ?_⟩
  rw [node_setNode]
  split
  · exact ⟨fun hne => absurd rfl hne, fun hs => hs.elim, fun hin => (by cases hin)⟩
  · exact h.node k

theorem Inv.sendRelease (h : s.Inv c P) {target : NodeId}
    {resource : Option Resource}
    (hmem : (target, resource) ∈ (s.node n).releasing) :
    ((s.setNode n
      { s.node n with
        releasing := (s.node n).releasing.erase (target, resource) }).send n
      target (.release resource)).Inv c P := by
  set m : MaekawaNode :=
    { s.node n with
      releasing := (s.node n).releasing.erase (target, resource) } with hm
  have hsame : ∀ {α : Type} (f : MaekawaNode → α), f m = f (s.node n) →
      ∀ k, f ((s.setNode n m).node k) = f (s.node k) :=
    fun f hf k => field_setNode s f hf k
  have hmutex := hsame (·.mutex) rfl
  have hcall := hsame (·.call) rfl
  refine h.quiet ?_ ?_ fun k => (h.node k).same
    (by rw [call_send]; exact hcall k) (by rw [mutex_send, hmutex])
    (by rw [mutex_send, hmutex]) (by rw [mutex_send, hmutex])
  · apply Ballot.ext
    · funext k w
      simp [ballot, hmutex, hcall, total_send, MaekawaTask.request]
    · funext k w
      simp [ballot, hmutex, total_send, MaekawaTask.grant, MaekawaTask.back]
    · funext k w
      simp only [ballot, releasing_send, total_send, link_setNode, node_setNode,
        MaekawaTask.release]
      by_cases hk : k = n
      · subst hk
        have hperm := (List.perm_cons_erase hmem).countP_eq fun r => r.1 = w
        rw [List.countP_cons] at hperm
        simp only [decide_eq_true_eq] at hperm
        simp only [hm, if_true, true_and, hperm, eq_comm (a := w)]
        omega
      · simp [hk]
    · funext w
      simp [ballot, hmutex]
    · funext k w
      simp [ballot, hcall]
  · have hmsg : (MaekawaTask.received (.release resource)).Signed n := trivial
    exact signed_send (s := s.setNode n m) h.signed hmsg target

end Candidate

/-! ## The cases of a step -/

inductive StepCase (c : QuorumSystem) (s : MaekawaSystem) :
    MaekawaAction → MaekawaSystem → Prop
  | requestCs {n : NodeId} (resource : Resource) (hn : n ∈ c.nodes)
      (hidle : (s.node n).call = .idle) :
      StepCase c s (.requestCs n resource) (s.setNode n
        { s.node n with
          clock := (s.node n).clock.increment
          mutex := (s.node n).mutex.requestCs resource
            (s.node n).clock.increment.time
          call := .asking resource (c.quorum n) })
  | sendRequest {n target : NodeId} {resource : Resource}
      {targets : List NodeId} (hcall : (s.node n).call = .asking resource targets)
      (hmem : target ∈ targets) :
      StepCase c s (.sendRequest n target) ((s.setNode n
        { s.node n with call := .asking resource (targets.erase target) }).send n
        target (.request resource (s.node n).mutex.requestTs))
  | wait {n : NodeId} {resource : Resource}
      (hcall : (s.node n).call = .asking resource []) :
      StepCase c s (.wait n) (s.setNode n
        { s.node n with
          call := if (s.node n).mutex.csEvent then .woken else .waiting })
  | enter {n : NodeId} (hcall : (s.node n).call = .woken) :
      StepCase c s (.enter n) (s.setNode n
        { s.node n with
          mutex := { (s.node n).mutex with inCs := true }, call := .inside })
  | releaseCs {n : NodeId} (hcall : (s.node n).call = .inside) :
      StepCase c s (.releaseCs n) (s.setNode n
        { s.node n with
          mutex := (s.node n).mutex.releaseCs
          call := .idle
          releasing := (s.node n).releasing ++ (c.quorum n).map fun target =>
            (target, (s.node n).mutex.requestResource) })
  | sendRelease {n target : NodeId} {resource : Option Resource}
      (hmem : (target, resource) ∈ (s.node n).releasing) :
      StepCase c s (.sendRelease n target resource) ((s.setNode n
        { s.node n with
          releasing := (s.node n).releasing.erase (target, resource) }).send n
        target (.release resource))
  | deliver {i j : NodeId} {packet : MaekawaPacket} {rest : List MaekawaPacket}
      (hqueue : (s.link i j).queue = packet :: rest)
      (hhandler : (s.link i j).handler = none) :
      StepCase c s (.deliver i j) ((s.setNode j
        { s.node j with
          clock := (s.node j).clock.update packet.timestamp }).setLink i j
        ⟨rest, some (.received packet.msg)⟩)
  | handle {i j : NodeId} {msg : MaekawaMsg}
      (htask : (s.link i j).handler = some (.received msg)) :
      StepCase c s (.handle i j) ((s.setHandler i j none).handle c i j msg)
  | sendRelinquish {i j voter : NodeId} {resource : Resource}
      (htask : (s.link i j).handler = some (.relinquish voter resource)) :
      StepCase c s (.sendRelinquish i j)
        ((s.setHandler i j none).send j voter (.relinquish resource))
  | tick (n : NodeId) (receivedTime : Nat) :
      StepCase c s (.tick n receivedTime) (s.setNode n
        { s.node n with clock := (s.node n).clock.update receivedTime })

theorem step_cases {c : QuorumSystem} {s s' : MaekawaSystem}
    {a : MaekawaAction} (hstep : s.step c a = some s') : s.StepCase c a s' := by
  cases a with
  | requestCs n resource =>
      obtain ⟨⟨hn, hidle⟩, heq⟩ := Option.ite_none_right_eq_some.mp hstep
      cases heq
      exact .requestCs resource hn hidle
  | sendRequest n target =>
      simp only [MaekawaSystem.step] at hstep
      split at hstep
      · next hcall =>
        obtain ⟨hmem, heq⟩ := Option.ite_none_right_eq_some.mp hstep
        cases heq
        exact .sendRequest hcall hmem
      · cases hstep
  | wait n =>
      simp only [MaekawaSystem.step] at hstep
      split at hstep
      · next hcall =>
        cases hstep
        exact .wait hcall
      · cases hstep
  | enter n =>
      obtain ⟨hcall, heq⟩ := Option.ite_none_right_eq_some.mp hstep
      cases heq
      exact .enter hcall
  | releaseCs n =>
      obtain ⟨hcall, heq⟩ := Option.ite_none_right_eq_some.mp hstep
      cases heq
      exact .releaseCs hcall
  | sendRelease n target resource =>
      obtain ⟨hmem, heq⟩ := Option.ite_none_right_eq_some.mp hstep
      cases heq
      exact .sendRelease hmem
  | deliver i j =>
      simp only [MaekawaSystem.step] at hstep
      split at hstep
      · next hqueue hhandler =>
        cases hstep
        exact .deliver hqueue hhandler
      · cases hstep
  | handle i j =>
      simp only [MaekawaSystem.step] at hstep
      split at hstep
      · next htask =>
        cases hstep
        exact .handle htask
      · cases hstep
  | sendRelinquish i j =>
      simp only [MaekawaSystem.step] at hstep
      split at hstep
      · next htask =>
        cases hstep
        exact .sendRelinquish htask
      · cases hstep
  | tick n receivedTime =>
      cases hstep
      exact .tick n receivedTime

/-! ## Every run -/

/-- No vote is given back at a node between the return of its `_cs_event.wait` and
the section that sets `_in_cs`. -/
def unhurried (s : MaekawaSystem) : MaekawaAction → Bool
  | .handle i n =>
      match (s.link i n).handler with
      | some (.received (.inquire _ voter)) =>
          !((s.node n).call = .woken && (s.node n).mutex.gives voter)
      | _ => true
  | _ => true

section Run

variable {c : QuorumSystem} {s s' : MaekawaSystem}

theorem inv_new (c : QuorumSystem) : new.Inv c Ballot.Balanced := by
  have hnode : ∀ i, (new.node i).Inv c i := fun i =>
    ⟨fun hne => absurd rfl hne, fun h => h.elim, fun h => (by cases h)⟩
  refine ⟨⟨fun i w hw => absurd rfl hw.1, fun i w _ => ?_, fun i w hv => ?_,
    fun i w _ => ?_⟩, fun i j => ⟨?_, ?_⟩, hnode⟩
  · simp [ballot, new, MaekawaCall.targets, MaekawaLink.total,
      MaekawaLink.weigh, MaekawaExclusion.new]
  · simp [ballot, new, MaekawaExclusion.new] at hv
  · simp [ballot, new, MaekawaLink.total, MaekawaLink.weigh,
      MaekawaExclusion.new]
  · simp [new]
  · simp [new]

theorem Inv.step_of {P : Ballot NodeId NodeId → Prop} [Ballot.Law P]
    {a : MaekawaAction} (h : s.Inv c P) (hok : s.unhurried a = true)
    (hquorum : ∀ n v, 0 < (s.ballot c).granted n v → v ∈ c.quorum n)
    (hstep : s.step c a = some s')
    (hrequest : ∀ n resource, a = .requestCs n resource → s'.Inv c P)
    (hrelease : ∀ n, a = .releaseCs n → s'.Inv c P) : s'.Inv c P := by
  cases step_cases hstep with
  | requestCs resource hn hidle => exact hrequest _ _ rfl
  | sendRequest hcall hmem => exact h.sendRequest hcall hmem _
  | @wait n resource hcall =>
      have hactive : (s.node n).call ≠ .idle := by simp [hcall]
      have hholds := (h.node n).signalled
      rw [MaekawaNode.Signalled, hcall] at hholds
      refine h.proceeds rfl ⟨by rw [hcall]; rfl, ?_⟩ ⟨hactive, ?_⟩
        ⟨fun _ => (h.node n).caller hactive, ?_, ?_⟩
      · dsimp only
        split <;> rfl
      · dsimp only
        split <;> simp
      · intro hsignalled
        by_cases hevent : (s.node n).mutex.csEvent = true
        · exact hholds hevent
        · simp [MaekawaNode.Signalled, hevent] at hsignalled
      · intro hinside
        dsimp only at hinside
        split at hinside <;> cases hinside
  | @enter n hcall =>
      have hactive : (s.node n).call ≠ .idle := by simp [hcall]
      have hholds := (h.node n).signalled
      rw [MaekawaNode.Signalled, hcall] at hholds
      exact h.proceeds rfl ⟨by rw [hcall]; rfl, rfl⟩ ⟨hactive, by simp⟩
        ⟨fun _ => (h.node n).caller hactive, fun _ => hholds trivial,
          fun _ => rfl⟩
  | releaseCs hcall => exact hrelease _ rfl
  | sendRelease hmem => exact h.sendRelease hmem
  | @deliver i j packet rest hqueue hhandler =>
      have hticked := h.tick (n := j) ((s.node j).clock.update packet.timestamp)
      exact hticked.deliver hqueue hhandler
  | handle htask =>
      refine h.handle (hquorum _) htask fun resource voter hmsg hwoken => ?_
      subst hmsg
      simpa [unhurried, htask, hwoken] using hok
  | sendRelinquish htask => exact h.sendRelinquish htask
  | tick => exact h.tick _

theorem Inv.step {a : MaekawaAction} (h : s.Inv c Ballot.Balanced)
    (hok : s.unhurried a = true) (hstep : s.step c a = some s') :
    s'.Inv c Ballot.Balanced := by
  refine h.step_of hok (fun n v hpos => (h.wants_of_granted hpos).2) hstep ?_ ?_
  · rintro n resource rfl
    cases step_cases hstep with
    | requestCs _ hn hidle => exact h.requestCs hn hidle resource _
  · rintro n rfl
    cases step_cases hstep with
    | releaseCs hcall => exact h.releaseCs hcall

theorem Inv.exclusive (h : s.Inv c Ballot.Balanced) {i j : NodeId} (hi : s.Inside i)
    (hj : s.Inside j) : i = j := by
  have hholds : ∀ k, s.Inside k → k ∈ c.nodes ∧
      ∀ v ∈ c.quorum k, 0 < (s.ballot c).granted k v := by
    intro k hk
    have hcall : (s.node k).call = .inside := hk
    refine ⟨(h.node k).caller (by simp [hcall]), fun v hv => ?_⟩
    refine granted_of_held ((h.node k).signalled ?_ v hv)
    rw [MaekawaNode.Signalled, hcall]
    trivial
  obtain ⟨himem, hivotes⟩ := hholds i hi
  obtain ⟨hjmem, hjvotes⟩ := hholds j hj
  obtain ⟨v, hvi, hvj⟩ := c.intersect i himem j hjmem
  exact Ballot.Law.unique h.votes (hivotes v hvi) (hjvotes v hvj)

end Run

/--
No two nodes are inside at the same time, in a run in which no node gives a vote back
between the return of its `_cs_event.wait` and the section that sets `_in_cs`.
-/
theorem run_maekawaExclusion (actions : List MaekawaAction) (s : MaekawaSystem)
    (hok : Along (step quorums) (fun s a => s.unhurried a = true) new actions)
    (hrun : run (step quorums) new actions = some s) (i j : NodeId)
    (hi : s.Inside i) (hj : s.Inside j) : i = j := by
  have hinv : s.Inv quorums Ballot.Balanced :=
    run_invariant (fun s a s' h hok hstep => h.step hok hstep)
      (inv_new quorums) hok hrun
  exact hinv.exclusive hi hj

/-- Nodes 0 and 1 ask at the same time, and node 1 comes first to nodes 0 and 1,
which ask for their votes back for node 0. -/
def contention : List MaekawaAction :=
  [.requestCs 0 "x", .requestCs 1 "x", .sendRequest 1 0, .sendRequest 1 1,
    .sendRequest 1 2, .deliver 1 0, .handle 1 0, .deliver 1 1, .handle 1 1,
    .deliver 1 2, .handle 1 2, .sendRequest 0 0, .sendRequest 0 1,
    .sendRequest 0 3, .deliver 0 0, .handle 0 0, .deliver 0 3, .handle 0 3,
    .deliver 0 1, .handle 0 1, .deliver 0 1, .handle 0 1, .deliver 1 1,
    .handle 1 1, .wait 1]

/-- Node 1 gives the two votes back. -/
def givesBack : List MaekawaAction :=
  [.deliver 0 1, .handle 0 1, .sendRelinquish 0 1, .deliver 1 1, .handle 1 1,
    .sendRelinquish 1 1]

/-- Node 0 has the two votes and that of node 3. -/
def entersWithVotes : List MaekawaAction :=
  [.deliver 1 0, .handle 1 0, .deliver 1 1, .handle 1 1, .wait 0, .deliver 0 0,
    .handle 0 0, .deliver 1 0, .handle 1 0, .deliver 3 0, .handle 3 0, .enter 0]

/-- Node 1 gives the votes back in time and waits on. -/
def inTime : List MaekawaAction :=
  contention ++ givesBack ++ [.deliver 2 1, .handle 2 1] ++ entersWithVotes

theorem inTime_maekawaExclusion :
    ∃ s, run (step quorums) new inTime = some s ∧ s.Inside 0 ∧
      ∀ i, s.Inside i → i = 0 := by
  have hview : (run (step quorums) new inTime).any
      (fun s => decide (s.Inside 0)) = true := by
    decide +kernel
  obtain ⟨s, hrun, hinside⟩ := (Option.any_eq_true _ _).mp hview
  have hok : Along (step quorums) (fun s a => s.unhurried a = true) new
      inTime := by
    decide +kernel
  have hzero : s.Inside 0 := of_decide_eq_true hinside
  exact ⟨s, hrun, hzero, fun i hi =>
    run_maekawaExclusion inTime s hok hrun i 0 hi hzero⟩

/-- The vote of node 2 sets the event of node 1, which gives the two votes back
before it sets `_in_cs`. -/
def inTheWindow : List MaekawaAction :=
  contention ++ [.deliver 2 1, .handle 2 1] ++ givesBack ++ [.enter 1] ++
    entersWithVotes

theorem inTheWindow_not_exclusive :
    ∃ s, run (step quorums) new inTheWindow = some s ∧ s.Inside 0 ∧
      s.Inside 1 := by
  have hview : (run (step quorums) new inTheWindow).any
      (fun s => decide (s.Inside 0) && decide (s.Inside 1)) = true := by
    decide +kernel
  obtain ⟨s, hrun, hinside⟩ := (Option.any_eq_true _ _).mp hview
  obtain ⟨hzero, hone⟩ := (Bool.and_eq_true _ _).mp hinside
  exact ⟨s, hrun, of_decide_eq_true hzero, of_decide_eq_true hone⟩

end MaekawaSystem

end DistributedMemory.Mutex
