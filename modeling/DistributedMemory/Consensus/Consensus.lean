import DistributedMemory.Library.Run
import DistributedMemory.Network.Clock

/-!
# The consensus protocol

A node that believes to be leader opens a round under the next number of its own
counter, proposes a value to the nodes that its failure detector holds alive, and
decides when the accepting votes and itself are more than half of those nodes and
itself.  Whoever gets a DECIDE message stores its value.

Who believes to be leader and what the failure detectors answer is arbitrary: a
call of `propose` that passes `is_leader` is an action, and every step that reads
the alive set takes it as an argument, in the order in which the set is iterated.
Each section under `_lock` is one step, each send of a PROPOSE another; `wait`
may end at any time, since the timeout is arbitrary.  The network keeps what was
sent and may hand it over late, in any order, again, or never.

`chosen` and `answered` are no fields of the source: they record the decisions
taken by counting votes and the answers of `get_decision`.
-/

namespace DistributedMemory.Consensus

open DistributedMemory.Library
open DistributedMemory.Network (NodeId)

universe u

variable {α : Type u}

structure ConsensusRound (α : Type u) where
  proposedValue : α
  votes : Dict NodeId Bool
  decided : Bool
  decision : Option α

structure ConsensusProtocol (α : Type u) where
  roundCounter : Nat
  rounds : Dict Nat (ConsensusRound α)
  decidedValues : Dict Nat α

/-- The accepting votes and the proposer are more than half of the alive nodes and
the proposer. -/
def majority (votes : Dict NodeId Bool) (alive : List NodeId) : Bool :=
  decide (alive.length + 1 < 2 * ((votes.items.filter Prod.snd).length + 1))

namespace ConsensusProtocol

def new : ConsensusProtocol α := ⟨0, .empty, .empty⟩

def openRound (p : ConsensusProtocol α) (value : α) : ConsensusProtocol α :=
  { p with
    roundCounter := p.roundCounter + 1
    rounds := p.rounds.set (p.roundCounter + 1) ⟨value, .empty, false, none⟩ }

def conclude (p : ConsensusProtocol α) (roundId : Nat) (rnd : ConsensusRound α)
    (value : α) : ConsensusProtocol α :=
  { p with
    rounds :=
      p.rounds.set roundId { rnd with decided := true, decision := some value }
    decidedValues := p.decidedValues.set roundId value }

/-- The last section of `propose`: the new state, the value decided here, and what
`propose` returns; a round that is not there raises `KeyError`. -/
def closeRound (p : ConsensusProtocol α) (roundId : Nat) (value : α)
    (alive : List NodeId) :
    Option (ConsensusProtocol α × Option α × Option α) :=
  match p.rounds.get? roundId with
  | none => none
  | some rnd =>
      if rnd.decided then some (p, none, rnd.decision)
      else if majority rnd.votes alive then
        some (p.conclude roundId rnd value, some value, some value)
      else some (p, none, none)

def handleVote (p : ConsensusProtocol α) (sender : NodeId) (roundId : Nat)
    (accepted : Bool) (alive : List NodeId) : ConsensusProtocol α × Option α :=
  match p.rounds.get? roundId with
  | none => (p, none)
  | some rnd =>
      if rnd.decided then (p, none)
      else
        let rnd := { rnd with votes := rnd.votes.set sender accepted }
        if majority rnd.votes alive then
          (p.conclude roundId rnd rnd.proposedValue, some rnd.proposedValue)
        else ({ p with rounds := p.rounds.set roundId rnd }, none)

def handleDecide (p : ConsensusProtocol α) (roundId : Nat) (value : α) :
    ConsensusProtocol α :=
  match p.rounds.get? roundId with
  | none => { p with decidedValues := p.decidedValues.set roundId value }
  | some rnd => p.conclude roundId rnd value

def getDecision (p : ConsensusProtocol α) (roundId : Nat) : Option α :=
  p.decidedValues.get? roundId

end ConsensusProtocol

inductive ConsensusMsg (α : Type u) where
  | propose (roundId : Nat) (value : α)
  | voteAccept (roundId : Nat)
  | voteReject (roundId : Nat)
  | decide (roundId : Nat) (value : α)

structure ConsensusPacket (α : Type u) where
  sender : NodeId
  target : NodeId
  msg : ConsensusMsg α

/-- Where a call of `propose` is: before it reads the alive set, sending, or done
with its result. -/
inductive ProposePhase (α : Type u) where
  | opened
  | sending (alive unsent : List NodeId)
  | done (result : Option α)

structure ProposeCall (α : Type u) where
  roundId : Nat
  value : α
  phase : ProposePhase α

abbrev Choice (α : Type u) := NodeId × Nat × α

structure ConsensusSystem (α : Type u) where
  node : NodeId → ConsensusProtocol α
  calls : NodeId → List (ProposeCall α)
  network : List (ConsensusPacket α)
  chosen : List (Choice α)
  answered : List (Choice α)

/-- `alive` is what the failure detector answers in the step. -/
inductive ConsensusAction (α : Type u) where
  | propose (n : NodeId) (value : α)
  | readAlive (n : NodeId) (call : Nat) (alive : List NodeId)
  | sendPropose (n : NodeId) (call : Nat)
  | close (n : NodeId) (call : Nat)
  | deliver (packet : Nat) (alive : List NodeId)
  | getDecision (n : NodeId) (roundId : Nat)

namespace ConsensusSystem

def new : ConsensusSystem α := ⟨fun _ => .new, fun _ => [], [], [], []⟩

def setNode (s : ConsensusSystem α) (n : NodeId) (p : ConsensusProtocol α) :
    ConsensusSystem α :=
  { s with node := Function.update s.node n p }

def setCall (s : ConsensusSystem α) (n : NodeId) (call : Nat)
    (c : ProposeCall α) : ConsensusSystem α :=
  { s with calls := Function.update s.calls n ((s.calls n).set call c) }

/-- The rest of a section that has counted the votes: the DECIDE messages when a
value was decided. -/
def announce (s : ConsensusSystem α) (n : NodeId) (roundId : Nat)
    (alive : List NodeId) : Option α → ConsensusSystem α
  | none => s
  | some value =>
      { s with
        network := s.network ++
          alive.map fun target => ⟨n, target, .decide roundId value⟩
        chosen := s.chosen ++ [(n, roundId, value)] }

def handle (s : ConsensusSystem α) (alive : List NodeId) :
    ConsensusPacket α → ConsensusSystem α
  | ⟨sender, n, .propose roundId _⟩ =>
      { s with network := s.network ++ [⟨n, sender, .voteAccept roundId⟩] }
  | ⟨sender, n, .voteAccept roundId⟩ =>
      let (p, value) := (s.node n).handleVote sender roundId true alive
      (s.setNode n p).announce n roundId alive value
  | ⟨sender, n, .voteReject roundId⟩ =>
      let (p, value) := (s.node n).handleVote sender roundId false alive
      (s.setNode n p).announce n roundId alive value
  | ⟨_, n, .decide roundId value⟩ =>
      s.setNode n ((s.node n).handleDecide roundId value)

def step (s : ConsensusSystem α) : ConsensusAction α → Option (ConsensusSystem α)
  | .propose n value =>
      let p := (s.node n).openRound value
      some { s.setNode n p with
        calls := Function.update s.calls n
          (s.calls n ++ [⟨p.roundCounter, value, .opened⟩]) }
  | .readAlive n call alive =>
      match (s.calls n)[call]? with
      | some ⟨roundId, value, .opened⟩ =>
          if alive.Nodup then
            some (s.setCall n call ⟨roundId, value, .sending alive alive⟩)
          else none
      | _ => none
  | .sendPropose n call =>
      match (s.calls n)[call]? with
      | some ⟨roundId, value, .sending alive (target :: unsent)⟩ =>
          some { s.setCall n call ⟨roundId, value, .sending alive unsent⟩ with
            network := s.network ++ [⟨n, target, .propose roundId value⟩] }
      | _ => none
  | .close n call =>
      match (s.calls n)[call]? with
      | some ⟨roundId, value, .sending alive []⟩ =>
          ((s.node n).closeRound roundId value alive).map fun (p, own, result) =>
            ((s.setNode n p).setCall n call
              ⟨roundId, value, .done result⟩).announce n roundId alive own
      | _ => none
  | .deliver packet alive =>
      if alive.Nodup then (s.network[packet]?).map (s.handle alive) else none
  | .getDecision n roundId =>
      match (s.node n).getDecision roundId with
      | none => some s
      | some value =>
          some { s with answered := s.answered ++ [(n, roundId, value)] }

end ConsensusSystem

end DistributedMemory.Consensus
