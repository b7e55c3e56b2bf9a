import DistributedMemory.Library.Bag
import DistributedMemory.Library.Run
import DistributedMemory.Network.Clock
import Mathlib.Data.Finset.Max

/-!
# The bully election

A node that starts an election asks the nodes with higher ids, and declares itself
the leader when it has none or its timer expires without an ELECTION_OK.  Every
election of a node has a new epoch; a node takes the epoch of a COORDINATOR
message and drops one whose epoch is below its own.

Each section under `_lock` is one step, and so is each send, each assignment of
`leader_id`, and the creation of a timer.  What a thread has left to do is a task.
A timer is named by the epoch it was made for; it may expire at a node with a live
higher node only when its epoch is over or an ELECTION_OK has been handled since
the election began.  A message to a node that is not live is lost; any other one
arrives once, at any time.
-/

namespace DistributedMemory.Election

open DistributedMemory.Library
open DistributedMemory.Network (NodeId)

/-- The configured nodes and those of them that are up. -/
structure BullyConfig where
  nodes : List NodeId
  live : Finset NodeId
  known : ∀ n ∈ live, n ∈ nodes
  someLive : live.Nonempty

structure BullyElection where
  gotOk : Bool
  inElection : Bool
  timer : Option Nat
  epoch : Nat
  electionComplete : Bool
  leaderId : Option NodeId
  deriving DecidableEq

def BullyElection.new : BullyElection := ⟨false, false, none, 0, false, none⟩

inductive BullyMsg where
  | election (epoch : Nat)
  | electionOk
  | coordinator (leaderId : NodeId) (epoch : Nat)
  deriving DecidableEq

structure BullyPacket where
  sender : NodeId
  target : NodeId
  msg : BullyMsg
  deriving DecidableEq

/-- What a thread has left to do: the reply of `handle_election` to a sender and
the call of `start_election` after it, the sends of `start_election` and the timer
after them, the two sections on the way to a victory, the assignment of
`leader_id` and the broadcast after it, and the lines of `handle_coordinator` after
its section. -/
inductive BullyTask where
  | answer (sender : NodeId)
  | start
  | elect (epoch : Nat) (targets : List NodeId)
  | onTimeout (epoch : Nat)
  | declare (epoch : Nat)
  | announce (epoch : Nat)
  | broadcast (epoch : Nat) (targets : List NodeId)
  | adopt (leaderId : NodeId)
  deriving DecidableEq

structure BullySystem where
  node : NodeId → BullyElection
  network : List BullyPacket
  running : List (NodeId × BullyTask)
  timers : List (NodeId × Nat)

inductive BullyAction where
  | startElection (n : NodeId)
  | deliver (packet : Nat)
  | resume (task : Nat)
  | expire (timer : Nat)

def BullyConfig.higherNodes (c : BullyConfig) (n : NodeId) : List NodeId :=
  c.nodes.filter fun nid => n < nid

namespace BullySystem

def new : BullySystem := ⟨fun _ => .new, [], [], []⟩

def setNode (s : BullySystem) (n : NodeId) (e : BullyElection) : BullySystem :=
  { s with node := Function.update s.node n e }

def later (s : BullySystem) (n : NodeId) (todo : BullyTask) : BullySystem :=
  { s with running := (n, todo) :: s.running }

def send (c : BullyConfig) (s : BullySystem) (n target : NodeId)
    (msg : BullyMsg) : BullySystem :=
  if target ∈ c.live then
    { s with network := ⟨n, target, msg⟩ :: s.network }
  else s

/-- `self._timer.cancel()`; a timer that has expired is not pending any more. -/
def cancelTimer (s : BullySystem) (n : NodeId) : BullySystem :=
  match (s.node n).timer with
  | none => s
  | some epoch => { s with timers := s.timers.erase (n, epoch) }

/-- The section of `start_election`. -/
def startElection (c : BullyConfig) (s : BullySystem) (n : NodeId) :
    BullySystem :=
  let e := s.node n
  if e.inElection then s
  else
    (s.setNode n
      { e with
        inElection := true, gotOk := false, epoch := e.epoch + 1
        electionComplete := false }).later n
      (if c.higherNodes n = [] then .declare (e.epoch + 1)
      else .elect (e.epoch + 1) (c.higherNodes n))

def handleElectionOk (s : BullySystem) (n : NodeId) : BullySystem :=
  (s.cancelTimer n).setNode n { s.node n with gotOk := true, timer := none }

/-- The section of `handle_coordinator`. -/
def handleCoordinator (s : BullySystem) (n leaderId : NodeId) (epoch : Nat) :
    BullySystem :=
  if epoch < (s.node n).epoch then s
  else
    ((s.cancelTimer n).setNode n
      { s.node n with epoch := epoch, inElection := false, timer := none }).later
      n (.adopt leaderId)

def handle (s : BullySystem) : BullyPacket → BullySystem
  | ⟨sender, n, .election _⟩ =>
      if sender < n then s.later n (.answer sender) else s
  | ⟨_, n, .electionOk⟩ => s.handleElectionOk n
  | ⟨_, n, .coordinator leaderId epoch⟩ => s.handleCoordinator n leaderId epoch

def execute (c : BullyConfig) (s : BullySystem) :
    NodeId × BullyTask → BullySystem
  | (n, .answer sender) => (s.send c n sender .electionOk).later n .start
  | (n, .start) => s.startElection c n
  | (n, .elect epoch (target :: targets)) =>
      (s.send c n target (.election epoch)).later n (.elect epoch targets)
  | (n, .elect epoch []) =>
      { s.setNode n { s.node n with timer := some epoch } with
        timers := (n, epoch) :: s.timers }
  | (n, .onTimeout epoch) =>
      if epoch ≠ (s.node n).epoch then s
      else if (s.node n).gotOk then s
      else if !(s.node n).inElection then s
      else s.later n (.declare epoch)
  | (n, .declare epoch) =>
      if epoch ≠ (s.node n).epoch then s
      else
        (s.setNode n { s.node n with inElection := false }).later n
          (.announce epoch)
  | (n, .announce epoch) =>
      (s.setNode n { s.node n with leaderId := some n }).later n
        (.broadcast epoch (c.nodes.filter (· ≠ n)))
  | (n, .broadcast epoch (target :: targets)) =>
      (s.send c n target (.coordinator n epoch)).later n
        (.broadcast epoch targets)
  | (n, .broadcast _ []) =>
      s.setNode n { s.node n with electionComplete := true }
  | (n, .adopt leaderId) =>
      s.setNode n
        { s.node n with leaderId := some leaderId, electionComplete := true }

/-- A timer may expire where no live node is higher, and otherwise when its
election is over or answered. -/
def MayExpire (c : BullyConfig) (s : BullySystem) (n : NodeId) (epoch : Nat) :
    Prop :=
  (∀ m ∈ c.live, m ≤ n) ∨ epoch ≠ (s.node n).epoch ∨ (s.node n).gotOk = true

instance (c : BullyConfig) (s : BullySystem) (n : NodeId) (epoch : Nat) :
    Decidable (s.MayExpire c n epoch) :=
  inferInstanceAs (Decidable (_ ∨ _ ∨ _))

def step (c : BullyConfig) (s : BullySystem) : BullyAction → Option BullySystem
  | .startElection n => if n ∈ c.live then some (s.startElection c n) else none
  | .deliver packet =>
      (pick s.network packet).map fun (packet, rest) =>
        { s with network := rest }.handle packet
  | .resume task =>
      (pick s.running task).map fun (todo, rest) =>
        { s with running := rest }.execute c todo
  | .expire timer =>
      (pick s.timers timer).bind fun ((n, epoch), rest) =>
        if s.MayExpire c n epoch then
          some ({ s with timers := rest }.later n (.onTimeout epoch))
        else none

/-- Nothing is in flight, no thread has anything left to do and no timer is
pending. -/
def Quiet (s : BullySystem) : Prop :=
  s.network = [] ∧ s.running = [] ∧ s.timers = []

end BullySystem

end DistributedMemory.Election
