import DistributedMemory.Library.Run
import DistributedMemory.Mutex.RicartAgrawala
import Mathlib.Data.Finset.Card
import Mathlib.Data.List.Sort

/-!
# The Maekawa algorithm

A node asks the nodes of its quorum for their votes and enters when it holds all
of them.  A voter has one vote; it queues the requests that it can not grant, and
asks for its vote back with an INQUIRE when a queued request is before the one that
it has voted for.

Every node has one caller, which runs `request_cs` and `release_cs`, and a handler
thread for each link to it.  The sections under `_lock` are steps, with the sends
made inside them; so are the other sends, the return of `_cs_event.wait` and the
section that sets `_in_cs`.  A link is first in, first out, and its handler takes
the next message when it is done with the one before.  The nodes of a quorum are
asked in any order.
-/

namespace DistributedMemory.Mutex

open DistributedMemory.Library DistributedMemory.Network

structure QuorumSystem where
  nodes : List NodeId
  quorum : NodeId → List NodeId
  distinct : ∀ n, (quorum n).Nodup
  intersect : ∀ i ∈ nodes, ∀ j ∈ nodes, ∃ v ∈ quorum i, v ∈ quorum j

/-- `QUORUMS.get(node_id, set())` -/
def getQuorum : NodeId → List NodeId
  | 0 => [0, 1, 3]
  | 1 => [0, 1, 2]
  | 2 => [1, 2, 3]
  | 3 => [0, 2, 3]
  | _ => []

private theorem nodup_getQuorum (n : NodeId) : (getQuorum n).Nodup := by
  unfold getQuorum
  split <;> decide

def quorums : QuorumSystem :=
  ⟨[0, 1, 2, 3], getQuorum, nodup_getQuorum, by decide⟩

/-- An entry of `_request_queue`. -/
structure MaekawaRequest where
  requestTs : Nat
  requester : NodeId
  resource : Resource
  deriving DecidableEq

/-- `(x[0], x[1])` is not after `(y[0], y[1])`, the key of the sort. -/
def MaekawaRequest.KeyLe (x y : MaekawaRequest) : Prop :=
  x.requestTs < y.requestTs ∨
    x.requestTs = y.requestTs ∧ x.requester ≤ y.requester

instance : DecidableRel MaekawaRequest.KeyLe := fun x y =>
  inferInstanceAs (Decidable
    (x.requestTs < y.requestTs ∨
      x.requestTs = y.requestTs ∧ x.requester ≤ y.requester))

inductive MaekawaMsg where
  | request (resource : Resource) (requestTs : Nat)
  | locked (resource : Resource) (voter : NodeId)
  | failed (resource : Resource)
  | inquire (resource : Resource) (voter : NodeId)
  | relinquish (resource : Resource)
  | release (resource : Option Resource)
  deriving DecidableEq

structure MaekawaPacket where
  msg : MaekawaMsg
  timestamp : Nat
  deriving DecidableEq

/-- `voted` is `_voted_for` with `_voted_ts` and `_voted_resource`, which are set
and cleared together. -/
structure MaekawaExclusion where
  voted : Option MaekawaRequest
  inquireSent : Bool
  requestQueue : List MaekawaRequest
  votesHeld : Finset NodeId
  requestTs : Nat
  requestResource : Option Resource
  csEvent : Bool
  inCs : Bool

namespace MaekawaExclusion

def new : MaekawaExclusion := ⟨none, false, [], ∅, 0, none, false, false⟩

def requestCs (m : MaekawaExclusion) (resource : Resource) (ts : Nat) :
    MaekawaExclusion :=
  { m with
    requestTs := ts, requestResource := some resource, votesHeld := ∅
    inCs := false, csEvent := false }

def releaseCs (m : MaekawaExclusion) : MaekawaExclusion :=
  { m with inCs := false, requestResource := none, votesHeld := ∅ }

def enqueue (m : MaekawaExclusion) (r : MaekawaRequest) : MaekawaExclusion :=
  { m with
    requestQueue := (m.requestQueue ++ [r]).insertionSort MaekawaRequest.KeyLe }

def handleLocked (m : MaekawaExclusion) (needed : Nat) (voter : NodeId) :
    MaekawaExclusion :=
  { m with
    votesHeld := insert voter m.votesHeld
    csEvent := m.csEvent || needed ≤ (insert voter m.votesHeld).card }

/-- `_handle_inquire` goes on to its send. -/
def gives (m : MaekawaExclusion) (voter : NodeId) : Bool :=
  !m.inCs && voter ∈ m.votesHeld

def handleInquire (m : MaekawaExclusion) (voter : NodeId) : MaekawaExclusion :=
  { m with votesHeld := m.votesHeld.erase voter, csEvent := false }

def clearVote (m : MaekawaExclusion) : MaekawaExclusion :=
  { m with voted := none, inquireSent := false }

end MaekawaExclusion

/-- Where the caller of a node is.  `woken` is between the return of
`_cs_event.wait` and the section after it. -/
inductive MaekawaCall where
  | idle
  | asking (resource : Resource) (targets : List NodeId)
  | waiting
  | woken
  | inside
  deriving DecidableEq

/-- `_cs_event.set()` lets a blocked caller go on, whatever comes after it. -/
def MaekawaCall.wake : MaekawaCall → MaekawaCall
  | .waiting => .woken
  | call => call

/-- `releasing` is what `release_cs` has still to send. -/
structure MaekawaNode where
  clock : LamportClock
  mutex : MaekawaExclusion
  call : MaekawaCall
  releasing : List (NodeId × Option Resource)

inductive MaekawaTask where
  | received (msg : MaekawaMsg)
  | relinquish (voter : NodeId) (resource : Resource)
  deriving DecidableEq

structure MaekawaLink where
  queue : List MaekawaPacket
  handler : Option MaekawaTask

/-- `link i j` leads from `i` to `j`. -/
structure MaekawaSystem where
  node : NodeId → MaekawaNode
  link : NodeId → NodeId → MaekawaLink

inductive MaekawaAction where
  | requestCs (n : NodeId) (resource : Resource)
  | sendRequest (n target : NodeId)
  | wait (n : NodeId)
  | enter (n : NodeId)
  | releaseCs (n : NodeId)
  | sendRelease (n target : NodeId) (resource : Option Resource)
  | deliver (sender receiver : NodeId)
  | handle (sender receiver : NodeId)
  | sendRelinquish (sender receiver : NodeId)
  | tick (n : NodeId) (receivedTime : Nat)

namespace MaekawaSystem

def new : MaekawaSystem :=
  ⟨fun _ => ⟨.new, .new, .idle, []⟩, fun _ _ => ⟨[], none⟩⟩

def setNode (s : MaekawaSystem) (n : NodeId) (m : MaekawaNode) :
    MaekawaSystem :=
  { s with node := Function.update s.node n m }

def setMutex (s : MaekawaSystem) (n : NodeId) (m : MaekawaExclusion) :
    MaekawaSystem :=
  s.setNode n { s.node n with mutex := m }

def setLink (s : MaekawaSystem) (i j : NodeId) (l : MaekawaLink) :
    MaekawaSystem :=
  { s with link := Function.update s.link i (Function.update (s.link i) j l) }

def setHandler (s : MaekawaSystem) (i j : NodeId) (task : Option MaekawaTask) :
    MaekawaSystem :=
  s.setLink i j { s.link i j with handler := task }

/-- `Node.send` -/
def send (s : MaekawaSystem) (n target : NodeId) (msg : MaekawaMsg) :
    MaekawaSystem :=
  let clock := (s.node n).clock.increment
  let l := s.link n target
  (s.setNode n { s.node n with clock := clock }).setLink n target
    { l with queue := l.queue ++ [⟨msg, clock.time⟩] }

def grantVote (s : MaekawaSystem) (n : NodeId) (r : MaekawaRequest) :
    MaekawaSystem :=
  (s.setMutex n
    { (s.node n).mutex with voted := some r, inquireSent := false }).send n
    r.requester (.locked r.resource n)

def handleRequest (s : MaekawaSystem) (n sender : NodeId) (resource : Resource)
    (reqTs : Nat) : MaekawaSystem :=
  let m := (s.node n).mutex
  let r : MaekawaRequest := ⟨reqTs, sender, resource⟩
  match m.voted with
  | none => s.grantVote n r
  | some voted =>
      if !m.inquireSent ∧ (reqTs < voted.requestTs ∨
          reqTs = voted.requestTs ∧ sender < voted.requester) then
        (s.setMutex n { m.enqueue r with inquireSent := true }).send n
          voted.requester (.inquire resource n)
      else (s.setMutex n (m.enqueue r)).send n sender (.failed resource)

def handleLocked (needed : Nat) (s : MaekawaSystem) (n voter : NodeId) :
    MaekawaSystem :=
  let m := s.node n
  s.setNode n
    { m with
      mutex := m.mutex.handleLocked needed voter
      call :=
        if needed ≤ (insert voter m.mutex.votesHeld).card then m.call.wake
        else m.call }

/-- The handler of the link from `sender` has the RELINQUISH still to send. -/
def handleInquire (s : MaekawaSystem) (n sender : NodeId) (resource : Resource)
    (voter : NodeId) : MaekawaSystem :=
  if (s.node n).mutex.gives voter then
    (s.setMutex n ((s.node n).mutex.handleInquire voter)).setHandler sender n
      (some (.relinquish voter resource))
  else s

def handleRelinquish (s : MaekawaSystem) (n : NodeId) : MaekawaSystem :=
  let m := (s.node n).mutex
  let m :=
    match m.voted with
    | none => m
    | some old => m.enqueue old
  match m.requestQueue with
  | [] => s.setMutex n m.clearVote
  | r :: rest => (s.setMutex n { m with requestQueue := rest }).grantVote n r

def handleRelease (s : MaekawaSystem) (n : NodeId) : MaekawaSystem :=
  let m := (s.node n).mutex.clearVote
  match m.requestQueue with
  | [] => s.setMutex n m
  | r :: rest => (s.setMutex n { m with requestQueue := rest }).grantVote n r

def handle (c : QuorumSystem) (s : MaekawaSystem) (sender n : NodeId) :
    MaekawaMsg → MaekawaSystem
  | .request resource reqTs => s.handleRequest n sender resource reqTs
  | .locked _ voter => s.handleLocked (c.quorum n).length n voter
  | .failed _ => s
  | .inquire resource voter => s.handleInquire n sender resource voter
  | .relinquish _ => s.handleRelinquish n
  | .release _ => s.handleRelease n

/-- `request_cs` is called when the node has no request pending, and `release_cs`
after a `request_cs` that has returned `True`.  `tick` stands for the other
messages of the node, which share its clock. -/
def step (c : QuorumSystem) (s : MaekawaSystem) :
    MaekawaAction → Option MaekawaSystem
  | .requestCs n resource =>
      let m := s.node n
      if n ∈ c.nodes ∧ m.call = .idle then
        let clock := m.clock.increment
        some (s.setNode n
          { m with
            clock := clock, mutex := m.mutex.requestCs resource clock.time
            call := .asking resource (c.quorum n) })
      else none
  | .sendRequest n target =>
      let m := s.node n
      match m.call with
      | .asking resource targets =>
          if target ∈ targets then
            some ((s.setNode n
              { m with call := .asking resource (targets.erase target) }).send n
              target (.request resource m.mutex.requestTs))
          else none
      | _ => none
  | .wait n =>
      let m := s.node n
      match m.call with
      | .asking _ [] =>
          some (s.setNode n
            { m with call := if m.mutex.csEvent then .woken else .waiting })
      | _ => none
  | .enter n =>
      let m := s.node n
      if m.call = .woken then
        some (s.setNode n
          { m with mutex := { m.mutex with inCs := true }, call := .inside })
      else none
  | .releaseCs n =>
      let m := s.node n
      if m.call = .inside then
        some (s.setNode n
          { m with
            mutex := m.mutex.releaseCs
            call := .idle
            releasing := m.releasing ++
              (c.quorum n).map fun target => (target, m.mutex.requestResource) })
      else none
  | .sendRelease n target resource =>
      let m := s.node n
      if (target, resource) ∈ m.releasing then
        some ((s.setNode n
          { m with releasing := m.releasing.erase (target, resource) }).send n
          target (.release resource))
      else none
  | .deliver i j =>
      match (s.link i j).queue, (s.link i j).handler with
      | packet :: rest, none =>
          let m := s.node j
          some ((s.setNode j
            { m with clock := m.clock.update packet.timestamp }).setLink i j
            ⟨rest, some (.received packet.msg)⟩)
      | _, _ => none
  | .handle i j =>
      match (s.link i j).handler with
      | some (.received msg) => some ((s.setHandler i j none).handle c i j msg)
      | _ => none
  | .sendRelinquish i j =>
      match (s.link i j).handler with
      | some (.relinquish voter resource) =>
          some ((s.setHandler i j none).send j voter (.relinquish resource))
      | _ => none
  | .tick n receivedTime =>
      let m := s.node n
      some (s.setNode n { m with clock := m.clock.update receivedTime })

/-- `request_cs` has returned `True` and `release_cs` has not been called. -/
def Inside (s : MaekawaSystem) (n : NodeId) : Prop := (s.node n).call = .inside

instance (s : MaekawaSystem) (n : NodeId) : Decidable (s.Inside n) :=
  inferInstanceAs (Decidable (_ = _))

end MaekawaSystem

end DistributedMemory.Mutex
