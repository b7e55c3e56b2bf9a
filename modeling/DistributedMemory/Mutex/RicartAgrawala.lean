import DistributedMemory.Library.Run
import DistributedMemory.Network.Clock
import Mathlib.Logic.Function.Basic

/-!
# The Ricart-Agrawala algorithm

A node asks all others for permission and enters when every one of them has
answered.  A node that holds the critical section, or wants the same one with an
earlier request, defers its answer until it releases.

Every node has one caller thread, which runs `request_cs` and `release_cs`, and a
handler thread for each message received.  The sections under `_lock` and the
single sends are the steps.  A REPLY is in `packets` from the moment that a thread
has decided to send it until its handler has run.  A REQUEST is there once it is
sent; before, its receiver is among the `targets` of the call.  Each packet is
handled once, in any order.

`granted` is no field of the source.  It lists the nodes whose answers have been
counted for the current request.
-/

namespace DistributedMemory.Mutex

open DistributedMemory.Library DistributedMemory.Network

abbrev Resource := String

inductive MutexState where
  | released
  | wanted
  | held
  deriving DecidableEq

inductive MutexMsg where
  | request (resource : Resource) (requestTs : Nat)
  | reply (resource : Resource)
  deriving DecidableEq

/-- Not yet sent, sent with a timestamp, or dispatched and waiting for `_lock`. -/
inductive Stage where
  | outgoing
  | sent (timestamp : Nat)
  | received
  deriving DecidableEq

structure MutexPacket where
  sender : NodeId
  receiver : NodeId
  msg : MutexMsg
  stage : Stage
  deriving DecidableEq

structure RicartAgrawala where
  state : MutexState
  requestTs : Nat
  requestResource : Option Resource
  repliesReceived : Nat
  repliesNeeded : Nat
  deferred : List (NodeId × Resource)
  csEvent : Bool

namespace RicartAgrawala

def new : RicartAgrawala := ⟨.released, 0, none, 0, 0, [], false⟩

def requestCs (m : RicartAgrawala) (resource : Resource) (ts needed : Nat) :
    RicartAgrawala :=
  { m with
    state := .wanted
    requestTs := ts
    requestResource := some resource
    repliesReceived := 0
    repliesNeeded := needed
    csEvent := false }

def releaseCs (m : RicartAgrawala) : RicartAgrawala :=
  { m with state := .released, requestResource := none, deferred := [] }

/-- `send_reply` of `_handle_request`, at node `nodeId`. -/
def sendsReply (m : RicartAgrawala) (nodeId sender : NodeId)
    (resource : Resource) (reqTs : Nat) : Bool :=
  match m.state with
  | .released => true
  | .held => false
  | .wanted =>
      if some resource ≠ m.requestResource then true
      else reqTs < m.requestTs || (reqTs = m.requestTs && sender < nodeId)

def defer (m : RicartAgrawala) (sender : NodeId) (resource : Resource) :
    RicartAgrawala :=
  { m with deferred := m.deferred ++ [(sender, resource)] }

def handleReply (m : RicartAgrawala) : RicartAgrawala :=
  { m with
    repliesReceived := m.repliesReceived + 1
    csEvent := m.csEvent || m.repliesNeeded ≤ m.repliesReceived + 1 }

end RicartAgrawala

/-- A caller in `request_cs`, with the nodes that it still has to ask. -/
structure MutexCall where
  resource : Resource
  targets : List NodeId

structure MutexNode where
  clock : LamportClock
  mutex : RicartAgrawala
  call : Option MutexCall
  granted : List NodeId

def MutexNode.targets (n : MutexNode) : List NodeId :=
  match n.call with
  | some call => call.targets
  | none => []

structure MutexSystem where
  node : NodeId → MutexNode
  packets : List MutexPacket

inductive MutexAction where
  | requestCs (i : NodeId) (resource : Resource)
  | sendRequest (i : NodeId)
  | sendReply (p : MutexPacket)
  | dispatch (p : MutexPacket)
  | handle (p : MutexPacket)
  | wake (i : NodeId)
  | timeout (i : NodeId)
  | releaseCs (i : NodeId)
  | tick (i : NodeId) (receivedTime : Nat)

namespace MutexSystem

def new : MutexSystem := ⟨fun _ => ⟨.new, .new, none, []⟩, []⟩

/-- `get_all_other_nodes` -/
def others (nodes : List NodeId) (i : NodeId) : List NodeId :=
  nodes.filter (· ≠ i)

def setNode (s : MutexSystem) (i : NodeId) (n : MutexNode) : MutexSystem :=
  { s with node := Function.update s.node i n }

def swap (s : MutexSystem) (p q : MutexPacket) : MutexSystem :=
  { s with packets := s.packets.erase p ++ [q] }

def drop (s : MutexSystem) (p : MutexPacket) : MutexSystem :=
  { s with packets := s.packets.erase p }

def handleRequest (s : MutexSystem) (p : MutexPacket) (resource : Resource)
    (reqTs : Nat) : MutexSystem :=
  let n := s.node p.receiver
  if n.mutex.sendsReply p.receiver p.sender resource reqTs then
    s.swap p ⟨p.receiver, p.sender, .reply resource, .outgoing⟩
  else
    (s.drop p).setNode p.receiver
      { n with mutex := n.mutex.defer p.sender resource }

def handleReply (s : MutexSystem) (p : MutexPacket) : MutexSystem :=
  let n := s.node p.receiver
  (s.drop p).setNode p.receiver
    { n with mutex := n.mutex.handleReply, granted := n.granted ++ [p.sender] }

/-- `tick` stands for the other messages of the node, which share its clock. -/
def step (nodes : List NodeId) (s : MutexSystem) :
    MutexAction → Option MutexSystem
  | .requestCs i resource =>
      let n := s.node i
      if i ∈ nodes ∧ n.call.isNone then
        let clock := n.clock.increment
        some (s.setNode i
          { clock := clock
            mutex := n.mutex.requestCs resource clock.time
              (others nodes i).length
            call := some ⟨resource, others nodes i⟩
            granted := [] })
      else none
  | .sendRequest i =>
      let n := s.node i
      match n.call with
      | some ⟨resource, target :: rest⟩ =>
          let clock := n.clock.increment
          let p : MutexPacket := ⟨i, target,
            .request resource n.mutex.requestTs, .sent clock.time⟩
          some { s.setNode i
              { n with clock := clock, call := some ⟨resource, rest⟩ } with
            packets := s.packets ++ [p] }
      | _ => none
  | .sendReply p =>
      if p ∈ s.packets ∧ p.stage = .outgoing then
        let n := s.node p.sender
        let clock := n.clock.increment
        some ((s.swap p { p with stage := .sent clock.time }).setNode p.sender
          { n with clock := clock })
      else none
  | .dispatch p =>
      match p.stage with
      | .sent timestamp =>
          if p ∈ s.packets then
            let n := s.node p.receiver
            some ((s.swap p { p with stage := .received }).setNode p.receiver
              { n with clock := n.clock.update timestamp })
          else none
      | _ => none
  | .handle p =>
      if p ∈ s.packets ∧ p.stage = .received then
        match p.msg with
        | .request resource reqTs => some (s.handleRequest p resource reqTs)
        | .reply _ => some (s.handleReply p)
      else none
  | .wake i =>
      let n := s.node i
      if n.mutex.csEvent then
        match n.call with
        | some ⟨_, []⟩ =>
            some (s.setNode i { n with
              mutex := { n.mutex with state := .held }
              call := none })
        | _ => none
      else none
  | .timeout i =>
      let n := s.node i
      match n.call with
      | some ⟨_, []⟩ => some (s.setNode i { n with call := none })
      | _ => none
  | .releaseCs i =>
      let n := s.node i
      if n.call.isNone then
        some { s.setNode i { n with mutex := n.mutex.releaseCs, granted := [] }
          with
          packets := s.packets ++ n.mutex.deferred.map fun d =>
            ⟨i, d.1, .reply d.2, .outgoing⟩ }
      else none
  | .tick i receivedTime =>
      let n := s.node i
      some (s.setNode i { n with clock := n.clock.update receivedTime })

/-- `request_cs` only while RELEASED, `release_cs` only after `request_cs`
returned `True`, and no timeout. -/
def wellBehaved (s : MutexSystem) : MutexAction → Bool
  | .requestCs i _ => (s.node i).mutex.state = .released
  | .releaseCs i => (s.node i).mutex.state = .held
  | .timeout _ => false
  | _ => true

/-- From the moment that the waiting `request_cs` is signalled until
`release_cs`. -/
def Inside (s : MutexSystem) (i : NodeId) (resource : Resource) : Prop :=
  (s.node i).mutex.requestResource = some resource ∧
    ((s.node i).mutex.state = .held ∨
      (s.node i).mutex.state = .wanted ∧ (s.node i).mutex.csEvent = true)

end MutexSystem

end DistributedMemory.Mutex
