import DistributedMemory.Election.RingSuccessor
import DistributedMemory.Library.Bag
import DistributedMemory.Library.Run
import Mathlib.Data.Finset.Max

/-!
# The Chang-Roberts election

Every live node passes ELECTION tokens to its next live successor in the ring.  A
token with a larger candidate goes on, one with a smaller candidate is replaced by
the node's own unless the node takes part already, and the node that gets its own
token back is the leader and sends an ELECTED message round.

A handler or a call of `start_election` is its section under `_lock` followed by
what is left to do, which comes at any later time: a send, or the assignment of
`leader_id`.  The sends that the source makes while it holds the lock are among
these later steps, so nothing waits for the lock here.  The runs of the source are
among the runs of this system.

Whether a node is live does not change; a send to a node that is not live returns
`False` and the next successor is tried.
-/

namespace DistributedMemory.Election

open DistributedMemory.Library
open DistributedMemory.Network (NodeId)

/-- The ring order and the nodes that are up, at least two of them. -/
structure RingConfig where
  order : List NodeId
  nodup : order.Nodup
  live : Finset NodeId
  onRing : ∀ n ∈ live, n ∈ order
  several : 1 < live.card

structure ChangRobertsElection where
  participant : Bool
  leaderId : Option NodeId
  electionComplete : Bool
  deriving DecidableEq

def ChangRobertsElection.new : ChangRobertsElection := ⟨false, none, false⟩

inductive RingMsg where
  | election (candidateId : NodeId)
  | elected (leaderId : NodeId)
  deriving DecidableEq

/-- What a thread has left to do: a send, the announcement of the new leader and
the lines after it, the lines of `handle_elected_ring` after its section, or its
last send. -/
inductive RingTask where
  | passElection (candidateId : NodeId)
  | announce
  | adopt (leaderId : NodeId)
  | passElected (leaderId : NodeId)
  deriving DecidableEq

structure RingSystem where
  node : NodeId → ChangRobertsElection
  network : List (NodeId × RingMsg)
  running : List (NodeId × RingTask)

inductive RingAction where
  | startElection (n : NodeId)
  | deliver (packet : Nat)
  | resume (task : Nat)

namespace RingConfig

/-- The live node that takes the message of `_send_to_successor`. -/
def successorOf (c : RingConfig) (self : NodeId) : Option NodeId :=
  Election.successorOf c.order (· ∈ c.live) self

end RingConfig

namespace RingSystem

def new : RingSystem := ⟨fun _ => .new, [], []⟩

def setNode (s : RingSystem) (n : NodeId) (e : ChangRobertsElection) :
    RingSystem :=
  { s with node := Function.update s.node n e }

def sendToSuccessor (c : RingConfig) (s : RingSystem) (n : NodeId)
    (msg : RingMsg) : RingSystem :=
  match c.successorOf n with
  | none => s
  | some target => { s with network := (target, msg) :: s.network }

def later (s : RingSystem) (n : NodeId) (task : RingTask) : RingSystem :=
  { s with running := (n, task) :: s.running }

def startElection (s : RingSystem) (n : NodeId) : RingSystem :=
  (s.setNode n
      { s.node n with participant := true, electionComplete := false }).later
    n (.passElection n)

def handleElectionRing (s : RingSystem) (n candidateId : NodeId) : RingSystem :=
  if candidateId > n then
    (s.setNode n { s.node n with participant := true }).later n
      (.passElection candidateId)
  else if candidateId < n then
    if (s.node n).participant then s
    else
      (s.setNode n { s.node n with participant := true }).later n
        (.passElection n)
  else
    (s.setNode n
      { s.node n with participant := false, leaderId := some n }).later n
      .announce

/-- The section of `handle_elected_ring`; the rest is the task `adopt`. -/
def handleElectedRing (s : RingSystem) (n leaderId : NodeId) : RingSystem :=
  (s.setNode n { s.node n with participant := false }).later n (.adopt leaderId)

def handle (s : RingSystem) : NodeId × RingMsg → RingSystem
  | (n, .election candidateId) => s.handleElectionRing n candidateId
  | (n, .elected leaderId) => s.handleElectedRing n leaderId

def execute (c : RingConfig) (s : RingSystem) : NodeId × RingTask → RingSystem
  | (n, .passElection candidateId) =>
      s.sendToSuccessor c n (.election candidateId)
  | (n, .announce) =>
      (s.sendToSuccessor c n (.elected n)).setNode n
        { s.node n with electionComplete := true }
  | (n, .adopt leaderId) =>
      let s := s.setNode n
        { s.node n with leaderId := some leaderId, electionComplete := true }
      if leaderId ≠ n then s.later n (.passElected leaderId) else s
  | (n, .passElected leaderId) => s.sendToSuccessor c n (.elected leaderId)

def step (c : RingConfig) (s : RingSystem) : RingAction → Option RingSystem
  | .startElection n => if n ∈ c.live then some (s.startElection n) else none
  | .deliver packet =>
      (pick s.network packet).map fun (msg, rest) =>
        { s with network := rest }.handle msg
  | .resume task =>
      (pick s.running task).map fun (todo, rest) =>
        { s with running := rest }.execute c todo

/-- No message is in flight and no thread has anything left to do. -/
def Quiet (s : RingSystem) : Prop := s.network = [] ∧ s.running = []

end RingSystem

end DistributedMemory.Election
