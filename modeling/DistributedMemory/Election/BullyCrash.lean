import DistributedMemory.Election.BullyAgreement

/-!
# The bully election with crashes

The nodes run the handlers of `Bully`, and any of them may crash at any time and
be started again later.  A node that crashes loses the messages to it, its timers
and what its threads had left to do; what it has sent before still arrives.  It
comes back with a fresh `BullyElection`, in epoch 0.  A timer may expire at any
time: how long messages take is not bounded.
-/

namespace DistributedMemory.Election

open DistributedMemory.Library
open DistributedMemory.Network (NodeId)

/-- `live` are the nodes that are up. -/
structure CrashBully (nodes : List NodeId) where
  live : Finset NodeId
  known : ∀ n ∈ live, n ∈ nodes
  bully : BullySystem

inductive CrashBullyAction where
  | startElection (n : NodeId)
  | deliver (packet : Nat)
  | resume (task : Nat)
  | expire (timer : Nat)
  | crash (n : NodeId)
  | restart (n : NodeId)
  deriving DecidableEq

def BullySystem.drop (s : BullySystem) (n : NodeId) : BullySystem :=
  { s with
    network := s.network.filter (·.target ≠ n)
    running := s.running.filter (·.1 ≠ n)
    timers := s.timers.filter (·.1 ≠ n) }

namespace CrashBully

variable {nodes : List NodeId}

def new (live : Finset NodeId) (known : ∀ n ∈ live, n ∈ nodes) :
    CrashBully nodes :=
  ⟨live, known, .new⟩

/-- What the live node `n` takes its higher nodes and its targets from. -/
def config (s : CrashBully nodes) (n : NodeId) (hn : n ∈ s.live) :
    BullyConfig :=
  ⟨nodes, s.live, s.known, ⟨n, hn⟩⟩

def crash (s : CrashBully nodes) (n : NodeId) : CrashBully nodes :=
  { live := s.live.erase n
    known := fun m hm => s.known m (Finset.mem_of_mem_erase hm)
    bully := s.bully.drop n }

def restart (s : CrashBully nodes) (n : NodeId) (hn : n ∈ nodes) :
    CrashBully nodes :=
  { live := insert n s.live
    known := by
      intro m hm
      rcases Finset.mem_insert.mp hm with rfl | hm
      · exact hn
      · exact s.known m hm
    bully := s.bully.setNode n .new }

def step (s : CrashBully nodes) : CrashBullyAction → Option (CrashBully nodes)
  | .startElection n =>
      if hn : n ∈ s.live then
        some { s with bully := s.bully.startElection (s.config n hn) n }
      else none
  | .deliver packet =>
      (pick s.bully.network packet).map fun (packet, rest) =>
        { s with bully := { s.bully with network := rest }.handle packet }
  | .resume task =>
      (pick s.bully.running task).bind fun (todo, rest) =>
        if hn : todo.1 ∈ s.live then
          some { s with
            bully := { s.bully with running := rest }.execute
              (s.config todo.1 hn) todo }
        else none
  | .expire timer =>
      (pick s.bully.timers timer).map fun ((n, epoch), rest) =>
        { s with
          bully := { s.bully with timers := rest }.later n (.onTimeout epoch) }
  | .crash n => if n ∈ s.live then some (s.crash n) else none
  | .restart n =>
      if hn : n ∈ nodes ∧ n ∉ s.live then some (s.restart n hn.1) else none

end CrashBully

/-! ## Waiting for a leader -/

namespace BullySystem

/-- Node `n` is in an election in which it has been answered, so that its timer is
of no use to it. -/
def Waits (s : BullySystem) (n : NodeId) : Prop :=
  (s.node n).inElection = true ∧ (s.node n).gotOk = true

/-- The epoch of the election that node `n` is in, or will be in next. -/
def nextEpoch (s : BullySystem) (n : NodeId) : Nat :=
  if (s.node n).inElection then (s.node n).epoch else (s.node n).epoch + 1

/-- An election of node `q` may end with an announcement that node `n` does not
drop in epoch `bound`: its epoch is high enough, and `q` is above `n` or does not
wait itself. -/
def Outbids (s : BullySystem) (n : NodeId) (bound : Nat) (q : NodeId) : Prop :=
  q ≠ n ∧ bound ≤ s.nextEpoch q ∧ (n < q ∨ ¬ s.Waits q)

/-- The item at node `q` is on the way to what ends an election of node `n` in
epoch `bound`: it is an announcement, it becomes one, or it makes a node start an
election. -/
def Promises (live : Finset NodeId) (s : BullySystem) (n : NodeId) (bound : Nat)
    (q : NodeId) : BullyItem → Prop
  | .message sender (.election _) => sender < q ∧ s.Outbids n bound q
  | .message _ .electionOk => False
  | .message _ (.coordinator _ epoch) => q = n ∧ bound ≤ epoch
  | .task (.answer _) => s.Outbids n bound q
  | .task .start => s.Outbids n bound q
  | .task (.elect _ targets) =>
      ∃ m ∈ targets, m ∈ live ∧ q < m ∧ s.Outbids n bound m
  | .task (.onTimeout _) => False
  | .task (.declare epoch) => epoch = (s.node q).epoch ∧ bound ≤ epoch
  | .task (.announce epoch) => q ≠ n ∧ bound ≤ epoch
  | .task (.broadcast epoch targets) => n ∈ targets ∧ bound ≤ epoch
  | .task (.adopt _) => False
  | .timer _ => False

/-- What is under way at the live nodes may still end an election of node `n` in
epoch `bound`. -/
def Hopeful (live : Finset NodeId) (s : BullySystem) (n : NodeId)
    (bound : Nat) : Prop :=
  (∃ q ∈ live, (s.node q).inElection = true ∧ s.Outbids n bound q) ∨
    ∃ x ∈ s.items, x.1 ∈ live ∧ Promises live s n bound x.1 x.2

def Sustained (live : Finset NodeId) (s : BullySystem) : Prop :=
  ∀ n ∈ live, s.Waits n → Hopeful live s n (s.node n).epoch

instance (s : BullySystem) (n : NodeId) : Decidable (s.Waits n) :=
  inferInstanceAs (Decidable (_ ∧ _))

instance (s : BullySystem) (n : NodeId) (bound : Nat) (q : NodeId) :
    Decidable (s.Outbids n bound q) :=
  inferInstanceAs (Decidable (_ ∧ _))

instance (live : Finset NodeId) (s : BullySystem) (n : NodeId) (bound : Nat)
    (q : NodeId) : ∀ item, Decidable (Promises live s n bound q item)
  | .message _ (.election _) => inferInstanceAs (Decidable (_ ∧ _))
  | .message _ .electionOk => inferInstanceAs (Decidable False)
  | .message _ (.coordinator _ _) => inferInstanceAs (Decidable (_ ∧ _))
  | .task (.answer _) => inferInstanceAs (Decidable (s.Outbids n bound q))
  | .task .start => inferInstanceAs (Decidable (s.Outbids n bound q))
  | .task (.elect _ targets) =>
      inferInstanceAs (Decidable (∃ m ∈ targets, _))
  | .task (.onTimeout _) => inferInstanceAs (Decidable False)
  | .task (.declare _) => inferInstanceAs (Decidable (_ ∧ _))
  | .task (.announce _) => inferInstanceAs (Decidable (_ ∧ _))
  | .task (.broadcast _ _) => inferInstanceAs (Decidable (_ ∧ _))
  | .task (.adopt _) => inferInstanceAs (Decidable False)
  | .timer _ => inferInstanceAs (Decidable False)

instance (live : Finset NodeId) (s : BullySystem) (n : NodeId) (bound : Nat) :
    Decidable (Hopeful live s n bound) :=
  inferInstanceAs (Decidable (_ ∨ _))

instance (live : Finset NodeId) (s : BullySystem) :
    Decidable (Sustained live s) :=
  inferInstanceAs (Decidable (∀ n ∈ live, _))

/-- Node `n` is left with a hope when it learns that a higher node has answered
it, and so are the others when it leaves its election for a COORDINATOR message. -/
def SustainsHandling (live : Finset NodeId) (s : BullySystem) :
    BullyPacket → Prop
  | ⟨_, n, .electionOk⟩ =>
      (s.setNode n { s.node n with gotOk := true }).Sustained live
  | ⟨_, n, .coordinator _ epoch⟩ =>
      (s.node n).epoch ≤ epoch →
        (s.setNode n
          { s.node n with epoch := epoch, inElection := false }).Sustained live
  | ⟨_, _, .election _⟩ => True

instance (live : Finset NodeId) (s : BullySystem) :
    ∀ packet, Decidable (SustainsHandling live s packet)
  | ⟨_, n, .electionOk⟩ =>
      inferInstanceAs (Decidable ((s.setNode n _).Sustained live))
  | ⟨_, _, .coordinator _ _⟩ => inferInstanceAs (Decidable (_ → _))
  | ⟨_, _, .election _⟩ => inferInstanceAs (Decidable True)

end BullySystem

namespace CrashBully

variable {nodes : List NodeId}

/-- Nobody loses the last hope for a leader in this step. -/
def Sustains (s : CrashBully nodes) : CrashBullyAction → Prop
  | .crash n => (s.bully.drop n).Sustained (s.live.erase n)
  | .deliver packet =>
      ∀ content ∈ s.bully.network[packet]?,
        s.bully.SustainsHandling s.live content
  | _ => True

instance (s : CrashBully nodes) : ∀ a, Decidable (s.Sustains a)
  | .crash n =>
      inferInstanceAs (Decidable ((s.bully.drop n).Sustained (s.live.erase n)))
  | .deliver packet =>
      inferInstanceAs (Decidable (∀ content ∈ s.bully.network[packet]?, _))
  | .startElection _ | .resume _ | .expire _ | .restart _ =>
      inferInstanceAs (Decidable True)

end CrashBully

end DistributedMemory.Election
