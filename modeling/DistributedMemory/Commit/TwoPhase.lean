import DistributedMemory.Network.Clock
import DistributedMemory.Recovery.Recovery
import DistributedMemory.Storage.Transaction

/-!
# Two-phase commit

One coordinator and its participants.  The coordinator runs one thread for each
transaction in `coordinate_commit`; the appends to its log, the single sends and
the looks at the tables of votes and acknowledgements are the steps, and a crash
loses everything but the log.  The vote timer and the acknowledgement timer may
run out at any moment, so the wait loops may end in any state of the tables and
their events are left out.  A message may be handed over late, more than once or
never.  A participant has a transaction manager of its own, with its own log.

`coordinated` and `handled` are no fields of the source: they record the calls of
`coordinate_commit` and the decisions that a participant has handled.
-/

namespace DistributedMemory.Commit

open DistributedMemory.Library DistributedMemory.Network
open DistributedMemory.Recovery DistributedMemory.Storage

inductive Vote where
  | commit
  | abort
  deriving DecidableEq

inductive Decision where
  | commit
  | abort
  deriving DecidableEq

def Decision.entryType : Decision → EntryType
  | .commit => .globalCommit
  | .abort => .globalAbort

def Decision.record (d : Decision) (t : TxnId) (wal : WriteAheadLog) :
    WriteAheadLog :=
  match d with
  | .commit => wal.logGlobalCommit t
  | .abort => wal.logGlobalAbort t

def Decision.status : Decision → TransactionStatus
  | .commit => .committed
  | .abort => .aborted

def Decision.action (d : Decision) (t : TxnId) (order : List Resource) :
    TxnAction :=
  match d with
  | .commit => .commit t order
  | .abort => .abort t order

/-! ## The participant -/

inductive Pending where
  | votedCommit
  | votedAbort
  | awaitingDecision
  deriving DecidableEq

structure TwoPhaseParticipant where
  manager : TransactionManager
  pendingDecisions : Dict TxnId Pending

namespace TwoPhaseParticipant

def new (manager : TransactionManager) : TwoPhaseParticipant :=
  ⟨manager, .empty⟩

def checkCanCommit (p : TwoPhaseParticipant) (t : TxnId) : Bool :=
  match p.manager.getTransaction t with
  | some txn => if txn.status = .active then true else true
  | none => true

/-- `handle_prepare`, given the answer of `_check_can_commit`. -/
def handlePrepare (p : TwoPhaseParticipant) (t : TxnId) (canCommit : Bool) :
    TwoPhaseParticipant × Vote :=
  if canCommit then
    (⟨p.manager.log (·.logVoteCommit t),
      p.pendingDecisions.set t .votedCommit⟩, .commit)
  else
    (⟨p.manager.log (·.logVoteAbort t),
      p.pendingDecisions.set t .votedAbort⟩, .abort)

def decide (m : TransactionManager) (t : TxnId) (d : Decision)
    (order : List Resource) : TransactionManager :=
  match m.getTransaction t with
  | some txn =>
      if txn.status = .active then
        match d with
        | .commit => (m.commit t order).1
        | .abort => m.abort t order
      else m
  | none => m

/-- `handle_global_commit` and `handle_global_abort`; `order` is the order in
which the locks of `t` are iterated. -/
def handleDecision (p : TwoPhaseParticipant) (t : TxnId) (d : Decision)
    (order : List Resource) : TwoPhaseParticipant :=
  ⟨decide p.manager t d order, p.pendingDecisions.pop t⟩

/-! ### After a crash -/

/-- What `recover_pending` collects from the log. -/
structure Tally where
  voted : Dict TxnId Vote
  decided : Finset TxnId

def Tally.add (a : Tally) (e : LogEntry) : Tally :=
  match e.entryType with
  | .voteCommit => { a with voted := a.voted.set e.txnId .commit }
  | .voteAbort => { a with voted := a.voted.set e.txnId .abort }
  | .globalCommit | .globalAbort | .commit | .abort =>
      { a with decided := insert e.txnId a.decided }
  | _ => a

def tally (entries : List LogEntry) : Tally :=
  entries.foldl Tally.add ⟨.empty, ∅⟩

/-- One round of the last loop of `recover_pending`. -/
def recoverVote (decided : Finset TxnId) (p : TwoPhaseParticipant)
    (item : TxnId × Vote) : TwoPhaseParticipant :=
  if item.1 ∈ decided then p
  else
    match item.2 with
    | .abort => { p with manager := p.manager.log (·.logAbort item.1) }
    | .commit =>
        { p with
          pendingDecisions := p.pendingDecisions.set item.1 .awaitingDecision }

def recoverPending (p : TwoPhaseParticipant) : TwoPhaseParticipant :=
  let found := tally (entriesOf p.manager.wal)
  found.voted.items.foldl (recoverVote found.decided) p

/-- A node that starts on the log `found` and the record files `image`:
`_init_recovery`, `_init_transactions`, `_init_2pc` and `recover_pending`. -/
def restart (nodeId : Nat) (found : List LogEntry) (image : Store)
    (order : List TxnId) : TwoPhaseParticipant :=
  let r := recover (.reopen found) image order
  (new (.new nodeId (some r.wal) r.store)).recoverPending

end TwoPhaseParticipant

/-! ## The coordinator -/

/-- Where a thread in `coordinate_commit` is: before the PREPARE record, sending
PREPARE or waiting for votes, before the record of the decision, sending the
decision or waiting for acknowledgements. -/
inductive CallPhase where
  | started
  | preparing (targets : List NodeId)
  | counted (decision : Decision)
  | announcing (decision : Decision) (attempt : Nat) (targets : List NodeId)
  deriving DecidableEq

structure Coordination where
  participants : List NodeId
  phase : CallPhase
  deriving DecidableEq

inductive TwoPhaseMsg where
  | prepare (t : TxnId)
  | vote (t : TxnId) (v : Vote)
  | decision (t : TxnId) (d : Decision)
  | ack (t : TxnId)
  deriving DecidableEq

abbrev Packet := NodeId × TwoPhaseMsg

/-- `recovering` holds the transactions that a running `recover_pending` still has
to abort. -/
structure TwoPhaseCoordinator where
  wal : Option WriteAheadLog
  ackRetries : Nat
  votes : Dict TxnId (Dict NodeId Vote)
  acks : Dict TxnId (Finset NodeId)
  calls : Dict TxnId Coordination
  recovering : Option (Finset TxnId)

namespace TwoPhaseCoordinator

def new (wal : Option WriteAheadLog) (ackRetries : Nat) :
    TwoPhaseCoordinator :=
  ⟨wal, ackRetries, .empty, .empty, .empty, none⟩

def log (c : TwoPhaseCoordinator) (record : WriteAheadLog → WriteAheadLog) :
    TwoPhaseCoordinator :=
  { c with wal := c.wal.map record }

def coordinateCommit (c : TwoPhaseCoordinator) (t : TxnId)
    (participants : List NodeId) : TwoPhaseCoordinator :=
  { c with
    votes := c.votes.set t .empty
    acks := c.acks.set t ∅
    calls := c.calls.set t ⟨participants, .started⟩ }

def setPhase (c : TwoPhaseCoordinator) (t : TxnId) (call : Coordination)
    (phase : CallPhase) : TwoPhaseCoordinator :=
  { c with calls := c.calls.set t { call with phase := phase } }

def allCommit (votes : Dict NodeId Vote) (participants : List NodeId) : Bool :=
  votes.items.length = participants.length &&
    votes.items.all fun item => item.2 = .commit

/-- The end of `coordinate_commit`. -/
def finish (c : TwoPhaseCoordinator) (t : TxnId) : TwoPhaseCoordinator :=
  { c with
    votes := c.votes.pop t
    acks := c.acks.pop t
    calls := c.calls.pop t }

def missing (c : TwoPhaseCoordinator) (t : TxnId) (call : Coordination) :
    Finset NodeId :=
  call.participants.toFinset \ (c.acks.get? t).getD ∅

/-- `order` lists the participants that have not acknowledged, each once. -/
def Lists (c : TwoPhaseCoordinator) (t : TxnId) (call : Coordination)
    (order : List NodeId) : Prop :=
  order.Nodup ∧ order.toFinset = c.missing t call

instance (c : TwoPhaseCoordinator) (t : TxnId) (call : Coordination)
    (order : List NodeId) : Decidable (c.Lists t call order) :=
  inferInstanceAs (Decidable (_ ∧ _))

theorem Lists.mem {c : TwoPhaseCoordinator} {t : TxnId} {call : Coordination}
    {order : List NodeId} (h : c.Lists t call order) {n : NodeId} (hn : n ∈ order) :
    n ∈ call.participants := by
  have hmissing : n ∈ c.missing t call := h.2 ▸ List.mem_toFinset.mpr hn
  exact List.mem_toFinset.mp (Finset.mem_sdiff.mp hmissing).1

theorem Lists.length_le {c : TwoPhaseCoordinator} {t : TxnId} {call : Coordination}
    {order : List NodeId} (h : c.Lists t call order) :
    order.length ≤ call.participants.length := by
  rw [← List.toFinset_card_of_nodup h.1, h.2]
  exact (Finset.card_le_card Finset.sdiff_subset).trans
    (List.toFinset_card_le call.participants)

theorem lists_toList (c : TwoPhaseCoordinator) (t : TxnId) (call : Coordination) :
    c.Lists t call (c.missing t call).toList :=
  ⟨Finset.nodup_toList _, Finset.toList_toFinset _⟩

theorem Lists.mem_of_missing {c : TwoPhaseCoordinator} {t : TxnId}
    {call : Coordination} {order : List NodeId} (h : c.Lists t call order) {n : NodeId}
    (hn : n ∈ call.participants) (hmissing : n ∉ (c.acks.get? t).getD ∅) :
    n ∈ order := by
  rw [← List.mem_toFinset, h.2]
  exact Finset.mem_sdiff.mpr ⟨List.mem_toFinset.mpr hn, hmissing⟩

/-- The next step of `coordinate_commit(t, …)` and the messages it sends.  Another
attempt goes through the set of missing participants, in `order`. -/
def advance (c : TwoPhaseCoordinator) (t : TxnId) (call : Coordination)
    (order : List NodeId) : TwoPhaseCoordinator × List Packet :=
  match call.phase with
  | .started =>
      ((c.log (·.logPrepare t)).setPhase t call
        (.preparing call.participants), [])
  | .preparing (n :: rest) =>
      (c.setPhase t call (.preparing rest), [(n, .prepare t)])
  | .preparing [] =>
      let votes := (c.votes.get? t).getD .empty
      let d : Decision :=
        if allCommit votes call.participants then .commit else .abort
      (c.setPhase t call (.counted d), [])
  | .counted d =>
      ((c.log (d.record t)).setPhase t call
        (.announcing d 0 call.participants), [])
  | .announcing d attempt (n :: rest) =>
      (c.setPhase t call (.announcing d attempt rest), [(n, .decision t d)])
  | .announcing d attempt [] =>
      let acks := (c.acks.get? t).getD ∅
      if call.participants.length ≤ acks.card ∨ c.ackRetries ≤ attempt then
        (c.finish t, [])
      else
        (c.setPhase t call (.announcing d (attempt + 1) order), [])

/-- `handle_vote_commit` and `handle_vote_abort` -/
def handleVote (c : TwoPhaseCoordinator) (t : TxnId) (sender : NodeId)
    (v : Vote) : TwoPhaseCoordinator :=
  match c.votes.get? t with
  | some votes => { c with votes := c.votes.set t (votes.set sender v) }
  | none => c

def handleAck (c : TwoPhaseCoordinator) (t : TxnId) (sender : NodeId) :
    TwoPhaseCoordinator :=
  match c.acks.get? t with
  | some acks => { c with acks := c.acks.set t (insert sender acks) }
  | none => c

def crash (c : TwoPhaseCoordinator) : TwoPhaseCoordinator :=
  .new c.wal c.ackRetries

def undecided (entries : List LogEntry) : Finset TxnId :=
  ((entries.filter fun e => e.entryType = .prepare).map (·.txnId)).toFinset.filter
    fun t => ¬ Records [.globalCommit, .globalAbort] entries t

/-- `recover_pending` up to its last loop. -/
def recoverPending (c : TwoPhaseCoordinator) : TwoPhaseCoordinator :=
  { c with recovering := some (undecided (entriesOf c.wal)) }

/-- One round of the last loop of `recover_pending`. -/
def recoverNext (c : TwoPhaseCoordinator) (t : TxnId) (todo : Finset TxnId) :
    TwoPhaseCoordinator :=
  { c.log (·.logGlobalAbort t) with recovering := some (todo.erase t) }

end TwoPhaseCoordinator

/-! ## The system -/

structure TwoPhaseSystem where
  coordinator : TwoPhaseCoordinator
  participant : NodeId → TwoPhaseParticipant
  network : List Packet
  coordinated : TxnId → Option (List NodeId)
  handled : List (NodeId × TxnId)

/-- `record` is an append to the coordinator's log by the other users of that
file. -/
inductive TwoPhaseAction where
  | coordinate (t : TxnId) (participants : List NodeId)
  | advance (t : TxnId) (order : List NodeId)
  | vote (n : NodeId) (t : TxnId) (v : Vote)
  | ack (n : NodeId) (t : TxnId)
  | prepare (n : NodeId) (t : TxnId) (canCommit : Bool)
  | decision (n : NodeId) (t : TxnId) (d : Decision) (order : List Resource)
  | manager (n : NodeId) (a : TxnAction)
  | record (t : TxnId) (type : EntryType) (resource before after : String)
  | crash
  | recoverPending
  | recoverNext (t : TxnId)
  | recovered
  deriving DecidableEq

namespace TwoPhaseSystem

def new (wal : Option WriteAheadLog) (ackRetries : Nat)
    (managers : NodeId → TransactionManager) : TwoPhaseSystem :=
  ⟨.new wal ackRetries, fun n => .new (managers n), [], fun _ => none, []⟩

def setParticipant (s : TwoPhaseSystem) (n : NodeId)
    (p : TwoPhaseParticipant) : TwoPhaseSystem :=
  { s with participant := Function.update s.participant n p }

def step (s : TwoPhaseSystem) : TwoPhaseAction → Option TwoPhaseSystem
  | .coordinate t participants =>
      some { s with
        coordinator := s.coordinator.coordinateCommit t participants
        coordinated := Function.update s.coordinated t (some participants) }
  | .advance t order =>
      match s.coordinator.calls.get? t with
      | none => none
      | some call =>
          if s.coordinator.Lists t call order then
            let (c, sent) := s.coordinator.advance t call order
            some { s with coordinator := c, network := s.network ++ sent }
          else none
  | .vote n t v =>
      if (n, .vote t v) ∈ s.network then
        some { s with coordinator := s.coordinator.handleVote t n v }
      else none
  | .ack n t =>
      if (n, .ack t) ∈ s.network then
        some { s with coordinator := s.coordinator.handleAck t n }
      else none
  | .prepare n t canCommit =>
      if (n, .prepare t) ∈ s.network then
        let (p, v) := (s.participant n).handlePrepare t canCommit
        some { s.setParticipant n p with
          network := s.network ++ [(n, .vote t v)] }
      else none
  | .decision n t d order =>
      if (n, .decision t d) ∈ s.network ∧
          (s.participant n).manager.Iterates t order then
        some { s.setParticipant n
            ((s.participant n).handleDecision t d order) with
          network := s.network ++ [(n, .ack t)]
          handled := s.handled ++ [(n, t)] }
      else none
  | .manager n a =>
      ((s.participant n).manager.step a).map fun m =>
        s.setParticipant n { s.participant n with manager := m }
  | .record t type resource before after =>
      if type ∈ [EntryType.prepare, .globalCommit, .globalAbort] then none
      else some { s with
        coordinator := s.coordinator.log
          (·.logEntry t type resource before after) }
  | .crash => some { s with coordinator := s.coordinator.crash }
  | .recoverPending =>
      some { s with coordinator := s.coordinator.recoverPending }
  | .recoverNext t =>
      match s.coordinator.recovering with
      | some todo =>
          if t ∈ todo then
            some { s with coordinator := s.coordinator.recoverNext t todo }
          else none
      | none => none
  | .recovered =>
      if s.coordinator.recovering = some ∅ then
        some { s with coordinator := { s.coordinator with recovering := none } }
      else none

/-- Each transaction is coordinated once, with distinct participants, and not
while `recover_pending` runs; `recover_pending` runs after a crash, before the
coordinator is called again. -/
def WellUsed (s : TwoPhaseSystem) : TwoPhaseAction → Prop
  | .coordinate t participants =>
      s.coordinated t = none ∧ participants.Nodup ∧
        s.coordinator.recovering = none
  | .recoverPending => s.coordinator.calls.items = []
  | _ => True

instance (s : TwoPhaseSystem) : ∀ a, Decidable (s.WellUsed a)
  | .coordinate t participants =>
      inferInstanceAs (Decidable (s.coordinated t = none ∧
        participants.Nodup ∧ s.coordinator.recovering = none))
  | .recoverPending =>
      inferInstanceAs (Decidable (s.coordinator.calls.items = []))
  | .advance _ _ | .vote _ _ _ | .ack _ _ | .prepare _ _ _
  | .decision _ _ _ _ | .manager _ _ | .record _ _ _ _ _ | .crash
  | .recoverNext _ | .recovered => isTrue trivial

theorem step_advance {s s' : TwoPhaseSystem} {t : TxnId} {order : List NodeId}
    (hstep : s.step (.advance t order) = some s') :
    ∃ call, s.coordinator.calls.get? t = some call ∧
      s.coordinator.Lists t call order ∧ s' = { s with
        coordinator := (s.coordinator.advance t call order).1
        network := s.network ++ (s.coordinator.advance t call order).2 } := by
  simp only [step] at hstep
  split at hstep
  · cases hstep
  · next call hcall =>
    obtain ⟨hlists, heq⟩ := Option.ite_none_right_eq_some.mp hstep
    exact ⟨call, hcall, hlists, (Option.some.inj heq).symm⟩

end TwoPhaseSystem

end DistributedMemory.Commit
