import DistributedMemory.Election.RingLeader

/-!
# The ring with crashes

The nodes run the handlers of `ChangRoberts`, and any of them may crash at any
time.  What was on its way to a crashed node and what its threads had left to do
is lost.  A send to a crashed node returns `False`, or `True` when a connection to
it is still open; in that case the message is lost and the successor is not
skipped.  A crashed node does not come back.

`originated` and `handled` are no fields of the source: they list the messages
that nodes made themselves, and those that were handled.
-/

namespace DistributedMemory.Election

open DistributedMemory.Library
open DistributedMemory.Network (NodeId)

structure CrashRing where
  live : Finset NodeId
  ring : RingSystem
  originated : List RingMsg
  handled : List (NodeId × RingMsg)

/-- `stale` are the crashed nodes to which the sender has an open connection. -/
inductive CrashRingAction where
  | startElection (n : NodeId)
  | deliver (packet : Nat)
  | resume (task : Nat) (stale : List NodeId)
  | crash (n : NodeId)
  deriving DecidableEq

/-- The message that a handler makes itself: the token of its own node, or the
announcement of its own node as leader. -/
def originates (e : ChangRobertsElection) (n : NodeId) :
    RingMsg → Option RingMsg
  | .election candidateId =>
      if candidateId > n then none
      else if candidateId < n then
        if e.participant then none else some (.election n)
      else some (.elected n)
  | .elected _ => none

namespace CrashRing

def new (live : Finset NodeId) : CrashRing := ⟨live, .new, [], []⟩

def sendToSuccessor (order : List NodeId) (stale : List NodeId)
    (live : Finset NodeId) (s : RingSystem) (n : NodeId) (msg : RingMsg) :
    RingSystem :=
  match successorOf order (fun x => x ∈ live ∨ x ∈ stale) n with
  | none => s
  | some target =>
      if target ∈ live then { s with network := (target, msg) :: s.network }
      else s

def execute (order : List NodeId) (stale : List NodeId) (live : Finset NodeId)
    (s : RingSystem) : NodeId × RingTask → RingSystem
  | (n, .passElection candidateId) =>
      sendToSuccessor order stale live s n (.election candidateId)
  | (n, .announce) =>
      (sendToSuccessor order stale live s n (.elected n)).setNode n
        { s.node n with electionComplete := true }
  | (n, .adopt leaderId) =>
      let s := s.setNode n
        { s.node n with leaderId := some leaderId, electionComplete := true }
      if leaderId ≠ n then s.later n (.passElected leaderId) else s
  | (n, .passElected leaderId) =>
      sendToSuccessor order stale live s n (.elected leaderId)

def deliver (s : CrashRing) (n : NodeId) (msg : RingMsg) : CrashRing :=
  { s with
    ring := s.ring.handle (n, msg)
    originated := s.originated ++ (originates (s.ring.node n) n msg).toList
    handled := s.handled ++ [(n, msg)] }

def step (order : List NodeId) (s : CrashRing) :
    CrashRingAction → Option CrashRing
  | .startElection n =>
      if n ∈ s.live then
        some { s with
          ring := s.ring.startElection n
          originated := s.originated ++ [.election n] }
      else none
  | .deliver packet =>
      (pick s.ring.network packet).map fun ((n, msg), rest) =>
        { s with ring := { s.ring with network := rest } }.deliver n msg
  | .resume task stale =>
      (pick s.ring.running task).map fun (todo, rest) =>
        { s with
          ring := execute order stale s.live { s.ring with running := rest }
            todo }
  | .crash n =>
      if n ∈ s.live then
        some { s with
          live := s.live.erase n
          ring := { s.ring with
            network := s.ring.network.filter (·.1 ≠ n)
            running := s.ring.running.filter (·.1 ≠ n) } }
      else none

/-! ## One send -/

theorem sendToSuccessor_cases {order : List NodeId} {live : Finset NodeId}
    (hnodup : order.Nodup) (honRing : ∀ x ∈ live, x ∈ order) {n : NodeId}
    (hn : n ∈ order) (stale : List NodeId) (s : RingSystem) (msg : RingMsg) :
    (∃ m ∈ live, m ≠ n ∧ (∀ x ∈ live, x ≠ n →
        Cycle.position order n m ≤ Cycle.position order n x) ∧
      sendToSuccessor order stale live s n msg =
        { s with network := (m, msg) :: s.network }) ∨
    ((stale = [] → ∀ x ∈ live, x = n) ∧
      sendToSuccessor order stale live s n msg = s) := by
  unfold sendToSuccessor
  rcases successorOf_cases (fun x => x ∈ live ∨ x ∈ stale) hnodup hn with
    ⟨m, -, hne, haccepts, hnearest, hresult⟩ | ⟨hnone, hresult⟩
  · rw [hresult]
    dsimp only
    by_cases hm : m ∈ live
    · left
      refine ⟨m, hm, hne, fun x hx hxn => ?_, if_pos hm⟩
      exact hnearest x (honRing x hx) hxn (.inl hx)
    · right
      refine ⟨fun hstale => ?_, if_neg hm⟩
      rw [hstale] at haccepts
      exact absurd (haccepts.resolve_right (List.not_mem_nil)) hm
  · right
    rw [hresult]
    refine ⟨fun _ x hx => ?_, rfl⟩
    by_contra hne
    exact hnone x (honRing x hx) hne (.inl hx)

theorem network_sendToSuccessor (order stale : List NodeId)
    (live : Finset NodeId) (s : RingSystem) (n : NodeId) (msg : RingMsg) :
    ∃ sent, (sendToSuccessor order stale live s n msg).network =
      sent ++ s.network ∧ (sent = [] ∨ ∃ target, sent = [(target, msg)]) := by
  unfold sendToSuccessor
  split
  · exact ⟨[], rfl, .inl rfl⟩
  · next target _ =>
    split
    · exact ⟨[(target, msg)], rfl, .inr ⟨target, rfl⟩⟩
    · exact ⟨[], rfl, .inl rfl⟩

theorem node_sendToSuccessor (order stale : List NodeId) (live : Finset NodeId)
    (s : RingSystem) (n : NodeId) (msg : RingMsg) :
    (sendToSuccessor order stale live s n msg).node = s.node := by
  unfold sendToSuccessor
  split
  · rfl
  · split <;> rfl

theorem running_sendToSuccessor (order stale : List NodeId)
    (live : Finset NodeId) (s : RingSystem) (n : NodeId) (msg : RingMsg) :
    (sendToSuccessor order stale live s n msg).running = s.running := by
  unfold sendToSuccessor
  split
  · rfl
  · split <;> rfl

end CrashRing

end DistributedMemory.Election
