import DistributedMemory.Consensus.Consensus

/-!
# When the nodes agree on a round

Round numbers come from a counter of each node, so two nodes that believe to be
leader can open a round under one number for different values, and each can carry
its own; a DECIDE message then replaces what its receiver had decided.  The nodes
agree throughout a run exactly when no count of votes carries a value for a round
number under which another value was carried before.

`Change` says what a step can do to the decided values; every fact about runs is
derived from it.
-/

namespace DistributedMemory.Consensus

open DistributedMemory.Library
open DistributedMemory.Network (NodeId)

universe u

variable {α : Type u}

/-! ## What the sections of one node do -/

namespace ConsensusProtocol

def Closed (p : ConsensusProtocol α) (roundId : Nat) : Prop :=
  ∃ rnd, p.rounds.get? roundId = some rnd ∧ rnd.decided = true

def Bounded (p : ConsensusProtocol α) : Prop :=
  ∀ roundId rnd, p.rounds.get? roundId = some rnd → roundId ≤ p.roundCounter

/-- Nothing was decided. -/
structure Keeps (p p' : ConsensusProtocol α) : Prop where
  values : p'.decidedValues = p.decidedValues
  closed : ∀ roundId, p.Closed roundId → p'.Closed roundId
  bounded : p'.Bounded

/-- `value` was stored as the decision of the round. -/
structure Stores (p p' : ConsensusProtocol α) (roundId : Nat) (value : α) :
    Prop where
  values : p'.decidedValues = p.decidedValues.set roundId value
  closed : ∀ r, p.Closed r → p'.Closed r
  bounded : p'.Bounded

theorem Bounded.keeps {p : ConsensusProtocol α} (h : p.Bounded) : p.Keeps p :=
  ⟨rfl, fun _ => id, h⟩

theorem Bounded.openRound {p : ConsensusProtocol α} (h : p.Bounded)
    (value : α) : p.Keeps (p.openRound value) := by
  refine ⟨rfl, ?_, ?_⟩
  · rintro r ⟨rnd, hget, hdecided⟩
    have hle := h r rnd hget
    have hne : r ≠ p.roundCounter + 1 := by omega
    refine ⟨rnd, ?_, hdecided⟩
    rw [ConsensusProtocol.openRound, Dict.get?_set, if_neg hne]
    exact hget
  · intro r rnd hget
    rw [ConsensusProtocol.openRound, Dict.get?_set] at hget
    change r ≤ p.roundCounter + 1
    split at hget
    · omega
    · exact Nat.le_succ_of_le (h r rnd hget)

theorem bounded_setRound {p : ConsensusProtocol α} (h : p.Bounded)
    {roundId : Nat} {rnd : ConsensusRound α}
    (hget : p.rounds.get? roundId = some rnd) (rnd' : ConsensusRound α)
    (values : Dict Nat α) :
    Bounded ⟨p.roundCounter, p.rounds.set roundId rnd', values⟩ := by
  intro r rnd'' hget'
  change (p.rounds.set roundId rnd').get? r = some rnd'' at hget'
  rw [Dict.get?_set] at hget'
  split at hget'
  · next heq => exact heq ▸ h roundId rnd hget
  · exact h r rnd'' hget'

theorem Bounded.conclude {p : ConsensusProtocol α} (h : p.Bounded)
    {roundId : Nat} {rnd : ConsensusRound α}
    (hget : p.rounds.get? roundId = some rnd) (rnd' : ConsensusRound α)
    (value : α) :
    p.Stores (p.conclude roundId rnd' value) roundId value ∧
      (p.conclude roundId rnd' value).Closed roundId := by
  have hhere : (p.conclude roundId rnd' value).Closed roundId :=
    ⟨_, Dict.get?_set_self _ _ _, rfl⟩
  refine ⟨⟨rfl, fun r hr => ?_, bounded_setRound h hget _ _⟩, hhere⟩
  by_cases heq : r = roundId
  · exact heq ▸ hhere
  · obtain ⟨rnd'', hget', hdecided⟩ := hr
    refine ⟨rnd'', ?_, hdecided⟩
    rw [ConsensusProtocol.conclude, Dict.get?_set, if_neg heq]
    exact hget'

theorem Bounded.handleDecide {p : ConsensusProtocol α} (h : p.Bounded)
    (roundId : Nat) (value : α) :
    p.Stores (p.handleDecide roundId value) roundId value := by
  unfold ConsensusProtocol.handleDecide
  split
  · exact ⟨rfl, fun _ => id, h⟩
  · next rnd hget => exact (h.conclude hget rnd value).1

def voteCarries (p : ConsensusProtocol α) (sender : NodeId) (roundId : Nat)
    (accepted : Bool) (alive : List NodeId) : Option α :=
  (p.rounds.get? roundId).bind fun rnd =>
    if rnd.decided = false ∧ majority (rnd.votes.set sender accepted) alive then
      some rnd.proposedValue
    else none

def closeCarries (p : ConsensusProtocol α) (roundId : Nat) (value : α)
    (alive : List NodeId) : Option α :=
  (p.rounds.get? roundId).bind fun rnd =>
    if rnd.decided = false ∧ majority rnd.votes alive then some value else none

/-- A section that counts the votes of a round, with the value it carries. -/
inductive Counts (p p' : ConsensusProtocol α) (roundId : Nat) :
    Option α → Prop where
  | nothing (keeps : p.Keeps p') : Counts p p' roundId none
  | carries (value : α) (undecided : ¬ p.Closed roundId)
      (stores : p.Stores p' roundId value) (closed : p'.Closed roundId) :
      Counts p p' roundId (some value)

theorem not_closed {p : ConsensusProtocol α} {roundId : Nat}
    {rnd : ConsensusRound α} (hget : p.rounds.get? roundId = some rnd)
    (hundecided : rnd.decided = false) : ¬ p.Closed roundId := by
  rintro ⟨rnd', hget', hdecided⟩
  obtain rfl := Option.some.inj (hget.symm.trans hget')
  rw [hundecided] at hdecided
  cases hdecided

theorem closeRound_spec {p p' : ConsensusProtocol α} (h : p.Bounded)
    {roundId : Nat} {value : α} {alive : List NodeId} {own result : Option α}
    (hclose : p.closeRound roundId value alive = some (p', own, result)) :
    own = p.closeCarries roundId value alive ∧ p.Counts p' roundId own := by
  unfold closeRound at hclose
  unfold closeCarries
  cases hget : p.rounds.get? roundId with
  | none =>
      rw [hget] at hclose
      cases hclose
  | some rnd =>
      rw [hget] at hclose
      cases hdecided : rnd.decided with
      | true =>
          simp only [hdecided, if_true] at hclose
          cases hclose
          exact ⟨by simp [hdecided], .nothing h.keeps⟩
      | false =>
          by_cases hmajority : majority rnd.votes alive = true
          · simp only [hdecided, hmajority, if_true, Bool.false_eq_true,
              if_false] at hclose
            cases hclose
            have hstores := h.conclude hget rnd value
            exact ⟨by simp [hdecided, hmajority],
              .carries value (not_closed hget hdecided) hstores.1 hstores.2⟩
          · simp only [hdecided, hmajority, Bool.false_eq_true, if_false]
              at hclose
            cases hclose
            exact ⟨by simp [hmajority], .nothing h.keeps⟩

theorem handleVote_spec {p : ConsensusProtocol α} (h : p.Bounded)
    (sender : NodeId) (roundId : Nat) (accepted : Bool) (alive : List NodeId) :
    (p.handleVote sender roundId accepted alive).2 =
        p.voteCarries sender roundId accepted alive ∧
      p.Counts (p.handleVote sender roundId accepted alive).1 roundId
        (p.handleVote sender roundId accepted alive).2 := by
  unfold handleVote voteCarries
  cases hget : p.rounds.get? roundId with
  | none => exact ⟨rfl, .nothing h.keeps⟩
  | some rnd =>
      cases hdecided : rnd.decided with
      | true =>
          simp only [hdecided, if_true]
          exact ⟨by simp [hdecided], .nothing h.keeps⟩
      | false =>
          have hopen := not_closed hget hdecided
          by_cases hmajority :
              majority (rnd.votes.set sender accepted) alive = true
          · simp only [hdecided, hmajority, if_true, Bool.false_eq_true,
              if_false]
            have hstores := h.conclude hget
              { rnd with votes := rnd.votes.set sender accepted }
              rnd.proposedValue
            refine ⟨by simp [hdecided, hmajority], ?_⟩
            simp only [hdecided] at hstores
            exact .carries _ hopen hstores.1 hstores.2
          · simp only [hdecided, hmajority, Bool.false_eq_true, if_false]
            refine ⟨by simp [hmajority], .nothing ⟨rfl, ?_, ?_⟩⟩
            · rintro r ⟨rnd', hget', hdecided'⟩
              have hne : r ≠ roundId := by
                rintro rfl
                exact hopen ⟨rnd', hget', hdecided'⟩
              refine ⟨rnd', ?_, hdecided'⟩
              rw [Dict.get?_set, if_neg hne]
              exact hget'
            · exact bounded_setRound h hget _ _

end ConsensusProtocol

/-! ## What a step does -/

namespace ConsensusSystem

/-- The cases of a step: what it needs of the state before, and the state after. -/
inductive StepCase (s : ConsensusSystem α) :
    ConsensusAction α → ConsensusSystem α → Prop where
  | propose (n : NodeId) (value : α) :
      StepCase s (.propose n value)
        { s.setNode n ((s.node n).openRound value) with
          calls := Function.update s.calls n (s.calls n ++
            [⟨(s.node n).roundCounter + 1, value, .opened⟩]) }
  | readAlive {n : NodeId} {call roundId : Nat} {value : α}
      {alive : List NodeId} (nodup : alive.Nodup)
      (opened : (s.calls n)[call]? = some ⟨roundId, value, .opened⟩) :
      StepCase s (.readAlive n call alive)
        (s.setCall n call ⟨roundId, value, .sending alive alive⟩)
  | sendPropose {n : NodeId} {call roundId : Nat} {value : α} {target : NodeId}
      {alive unsent : List NodeId}
      (sending : (s.calls n)[call]? =
        some ⟨roundId, value, .sending alive (target :: unsent)⟩) :
      StepCase s (.sendPropose n call)
        { s.setCall n call ⟨roundId, value, .sending alive unsent⟩ with
          network := s.network ++ [⟨n, target, .propose roundId value⟩] }
  | close {n : NodeId} {call roundId : Nat} {value : α} {alive : List NodeId}
      {p : ConsensusProtocol α} {own result : Option α}
      (sent : (s.calls n)[call]? = some ⟨roundId, value, .sending alive []⟩)
      (closed : (s.node n).closeRound roundId value alive =
        some (p, own, result)) :
      StepCase s (.close n call)
        (((s.setNode n p).setCall n call
          ⟨roundId, value, .done result⟩).announce n roundId alive own)
  | deliver {packet : Nat} {alive : List NodeId} {content : ConsensusPacket α}
      (nodup : alive.Nodup) (sent : s.network[packet]? = some content) :
      StepCase s (.deliver packet alive) (s.handle alive content)
  | undecided {n : NodeId} {roundId : Nat} :
      StepCase s (.getDecision n roundId) s
  | answered {n : NodeId} {roundId : Nat} {value : α}
      (stored : (s.node n).getDecision roundId = some value) :
      StepCase s (.getDecision n roundId)
        { s with answered := s.answered ++ [(n, roundId, value)] }

theorem step_cases {s s' : ConsensusSystem α} {a : ConsensusAction α}
    (hstep : s.step a = some s') : s.StepCase a s' := by
  cases a with
  | propose n value =>
      cases hstep
      exact .propose n value
  | readAlive n call alive =>
      simp only [step] at hstep
      split at hstep
      · next hcall =>
        obtain ⟨hnodup, heq⟩ := Option.ite_none_right_eq_some.mp hstep
        cases heq
        exact .readAlive hnodup hcall
      · cases hstep
  | sendPropose n call =>
      simp only [step] at hstep
      split at hstep
      · next hcall =>
        cases hstep
        exact .sendPropose hcall
      · cases hstep
  | close n call =>
      simp only [step] at hstep
      split at hstep
      · next hcall =>
        obtain ⟨⟨p, own, result⟩, hclose, rfl⟩ :=
          Option.map_eq_some_iff.mp hstep
        exact .close hcall hclose
      · cases hstep
  | deliver packet alive =>
      obtain ⟨hnodup, hstep⟩ := Option.ite_none_right_eq_some.mp hstep
      obtain ⟨content, hpacket, rfl⟩ := Option.map_eq_some_iff.mp hstep
      exact .deliver hnodup hpacket
  | getDecision n roundId =>
      simp only [step] at hstep
      split at hstep
      · cases hstep
        exact .undecided
      · next hvalue =>
        cases hstep
        exact .answered hvalue

end ConsensusSystem

/-! ## What a step does to the decided values -/

namespace ConsensusSystem

def Announced (s : ConsensusSystem α) (roundId : Nat) (value : α) : Prop :=
  ∃ packet ∈ s.network, packet.msg = .decide roundId value

/-- The node whose count of votes carries a value in this step, the number of its
round, and the value. -/
def carried (s : ConsensusSystem α) : ConsensusAction α → Option (Choice α)
  | .close n call =>
      match (s.calls n)[call]? with
      | some ⟨roundId, value, .sending alive []⟩ =>
          ((s.node n).closeCarries roundId value alive).map fun v =>
            (n, roundId, v)
      | _ => none
  | .deliver packet alive =>
      match s.network[packet]? with
      | some ⟨sender, n, .voteAccept roundId⟩ =>
          ((s.node n).voteCarries sender roundId true alive).map fun v =>
            (n, roundId, v)
      | some ⟨sender, n, .voteReject roundId⟩ =>
          ((s.node n).voteCarries sender roundId false alive).map fun v =>
            (n, roundId, v)
      | _ => none
  | _ => none

inductive Change (s s' : ConsensusSystem α) : Option (Choice α) → Prop where
  | quiet (node : ∀ q, (s.node q).Keeps (s'.node q))
      (chosen : s'.chosen = s.chosen) (answered : s'.answered = s.answered)
      (announced : ∀ r v, s'.Announced r v → s.Announced r v) :
      Change s s' none
  | carried (n : NodeId) (roundId : Nat) (value : α)
      (undecided : ¬ (s.node n).Closed roundId)
      (here : (s.node n).Stores (s'.node n) roundId value)
      (closed : (s'.node n).Closed roundId)
      (elsewhere : ∀ q, q ≠ n → s'.node q = s.node q)
      (chosen : s'.chosen = s.chosen ++ [(n, roundId, value)])
      (answered : s'.answered = s.answered)
      (announced : ∀ r v, s'.Announced r v →
        s.Announced r v ∨ r = roundId ∧ v = value) :
      Change s s' (some (n, roundId, value))
  | learned (n : NodeId) (roundId : Nat) (value : α)
      (told : s.Announced roundId value)
      (here : (s.node n).Stores (s'.node n) roundId value)
      (elsewhere : ∀ q, q ≠ n → s'.node q = s.node q)
      (chosen : s'.chosen = s.chosen) (answered : s'.answered = s.answered)
      (announced : ∀ r v, s'.Announced r v → s.Announced r v) :
      Change s s' none
  | asked (n : NodeId) (roundId : Nat) (value : α)
      (stored : (s.node n).decidedValues.get? roundId = some value)
      (node : s'.node = s.node) (chosen : s'.chosen = s.chosen)
      (answered : s'.answered = s.answered ++ [(n, roundId, value)])
      (announced : ∀ r v, s'.Announced r v → s.Announced r v) :
      Change s s' none

section Change

variable {s s' : ConsensusSystem α}

theorem setNode_here (s : ConsensusSystem α) (n : NodeId)
    (p : ConsensusProtocol α) : (s.setNode n p).node n = p :=
  Function.update_self _ _ _

theorem setNode_elsewhere (s : ConsensusSystem α) {n q : NodeId} (hq : q ≠ n)
    (p : ConsensusProtocol α) : (s.setNode n p).node q = s.node q :=
  Function.update_of_ne hq _ _

theorem setNode_keeps (hbounded : ∀ n, (s.node n).Bounded) {n : NodeId}
    {p : ConsensusProtocol α} (hp : (s.node n).Keeps p) (q : NodeId) :
    (s.node q).Keeps ((s.setNode n p).node q) := by
  by_cases hq : q = n
  · subst hq
    rwa [setNode_here]
  · rw [setNode_elsewhere s hq]
    exact (hbounded q).keeps

theorem announced_append {packet : ConsensusPacket α} {r : Nat} {v : α}
    (hnetwork : s'.network = s.network ++ [packet])
    (hpacket : ∀ r v, packet.msg ≠ .decide r v) (h : s'.Announced r v) :
    s.Announced r v := by
  obtain ⟨packet', hmem, hmsg⟩ := h
  rw [hnetwork] at hmem
  rcases List.mem_append.mp hmem with hmem | hmem
  · exact ⟨packet', hmem, hmsg⟩
  · rw [List.mem_singleton.mp hmem] at hmsg
    exact absurd hmsg (hpacket r v)

theorem announced_announce {t : ConsensusSystem α} {n : NodeId} {roundId r : Nat}
    {alive : List NodeId} {value v : α}
    (h : (t.announce n roundId alive (some value)).Announced r v) :
    t.Announced r v ∨ r = roundId ∧ v = value := by
  obtain ⟨packet, hmem, hmsg⟩ := h
  rcases List.mem_append.mp hmem with hmem | hmem
  · exact .inl ⟨packet, hmem, hmsg⟩
  · obtain ⟨target, -, rfl⟩ := List.mem_map.mp hmem
    cases hmsg
    exact .inr ⟨rfl, rfl⟩

theorem change_counts (hbounded : ∀ n, (s.node n).Bounded) {n : NodeId}
    {roundId : Nat} {p : ConsensusProtocol α} {own : Option α}
    (hcounts : (s.node n).Counts p roundId own) (alive : List NodeId)
    (calls : NodeId → List (ProposeCall α)) :
    Change s (ConsensusSystem.announce { s.setNode n p with calls := calls } n
      roundId alive own) (own.map fun v => (n, roundId, v)) := by
  cases hcounts with
  | nothing keeps =>
      exact .quiet (setNode_keeps hbounded keeps) rfl rfl fun _ _ => id
  | carries value undecided stores closed =>
      refine .carried n roundId value undecided ?_ ?_ ?_ rfl rfl ?_
      · exact (setNode_here s n p).symm ▸ stores
      · exact (setNode_here s n p).symm ▸ closed
      · exact fun q hq => setNode_elsewhere s hq p
      · exact fun r v h => announced_announce h

private theorem change_handle (hbounded : ∀ n, (s.node n).Bounded) {packet : Nat}
    {content : ConsensusPacket α} (hpacket : s.network[packet]? = some content)
    (alive : List NodeId) :
    Change s (s.handle alive content) (s.carried (.deliver packet alive)) := by
  obtain ⟨sender, n, msg⟩ := content
  cases msg with
  | propose roundId value =>
      have hnone : s.carried (.deliver packet alive) = none := by
        simp only [carried, hpacket]
      rw [hnone]
      refine .quiet (fun q => (hbounded q).keeps) rfl rfl fun r v => ?_
      exact announced_append rfl (by simp)
  | voteAccept roundId =>
      obtain ⟨hvalue, hcounts⟩ :=
        (s.node n).handleVote_spec (hbounded n) sender roundId true alive
      have hown : s.carried (.deliver packet alive) =
          ((s.node n).handleVote sender roundId true alive).2.map fun v =>
            (n, roundId, v) := by
        simp only [carried, hpacket, hvalue]
      rw [hown]
      exact change_counts hbounded hcounts alive s.calls
  | voteReject roundId =>
      obtain ⟨hvalue, hcounts⟩ :=
        (s.node n).handleVote_spec (hbounded n) sender roundId false alive
      have hown : s.carried (.deliver packet alive) =
          ((s.node n).handleVote sender roundId false alive).2.map fun v =>
            (n, roundId, v) := by
        simp only [carried, hpacket, hvalue]
      rw [hown]
      exact change_counts hbounded hcounts alive s.calls
  | decide roundId value =>
      have hnone : s.carried (.deliver packet alive) = none := by
        simp only [carried, hpacket]
      rw [hnone]
      refine .learned n roundId value
        ⟨_, List.mem_of_getElem? hpacket, rfl⟩ ?_ ?_ rfl rfl fun _ _ => id
      · simp only [handle, setNode_here]
        exact (hbounded n).handleDecide roundId value
      · exact fun q hq => setNode_elsewhere s hq _

theorem change_of_step (hbounded : ∀ n, (s.node n).Bounded)
    {a : ConsensusAction α} (hstep : s.step a = some s') :
    Change s s' (s.carried a) := by
  cases step_cases hstep with
  | propose n value =>
      exact .quiet (setNode_keeps hbounded ((hbounded n).openRound value)) rfl
        rfl fun _ _ => id
  | readAlive =>
      exact .quiet (fun q => (hbounded q).keeps) rfl rfl fun _ _ => id
  | sendPropose =>
      refine .quiet (fun q => (hbounded q).keeps) rfl rfl fun r v => ?_
      exact announced_append rfl (by simp)
  | @close n call roundId value alive p own result hcall hclose =>
      obtain ⟨hvalue, hcounts⟩ :=
        ConsensusProtocol.closeRound_spec (hbounded n) hclose
      have hown : s.carried (.close n call) =
          own.map fun v => (n, roundId, v) := by
        simp only [carried, hcall, hvalue]
      rw [hown]
      exact change_counts hbounded hcounts alive _
  | deliver hnodup hpacket =>
      exact change_handle hbounded hpacket _
  | undecided =>
      exact .quiet (fun q => (hbounded q).keeps) rfl rfl fun _ _ => id
  | @answered n roundId value hvalue =>
      exact .asked n roundId value hvalue rfl rfl rfl fun _ _ => id

end Change

/-! ## Agreement -/

/-- Nodes that have a value for a round have the same one, and what
`get_decision` has answered still stands. -/
structure Agreement (s : ConsensusSystem α) : Prop where
  agree : ∀ roundId n m v w,
    (s.node n).decidedValues.get? roundId = some v →
    (s.node m).decidedValues.get? roundId = some w → v = w
  stable : ∀ n roundId v, (n, roundId, v) ∈ s.answered →
    (s.node n).decidedValues.get? roundId = some v

/-- No count of votes carries a value in this step against a value that another
count has carried under the same round number. -/
def Unopposed (s : ConsensusSystem α) (a : ConsensusAction α) : Prop :=
  ∀ n roundId v, s.carried a = some (n, roundId, v) →
    ∀ m w, (m, roundId, w) ∈ s.chosen → w = v

structure Inv (s : ConsensusSystem α) : Prop where
  bounded : ∀ n, (s.node n).Bounded
  closed : ∀ n roundId v, (n, roundId, v) ∈ s.chosen →
    (s.node n).Closed roundId
  stored : ∀ n roundId v,
    (s.node n).decidedValues.get? roundId = some v →
      ∃ m, (m, roundId, v) ∈ s.chosen
  announced : ∀ roundId v, s.Announced roundId v →
    ∃ m, (m, roundId, v) ∈ s.chosen

def Standing (s : ConsensusSystem α) : Prop :=
  ∀ n roundId v, (n, roundId, v) ∈ s.chosen →
    (s.node n).decidedValues.get? roundId = some v

section Step

variable {s s' : ConsensusSystem α} {a : ConsensusAction α}

theorem inv_new : (new : ConsensusSystem α).Inv where
  bounded n r rnd h := by cases h
  closed n r v h := by cases h
  stored n r v h := by cases h
  announced r v h := by
    obtain ⟨packet, hmem, -⟩ := h
    cases hmem

private theorem agreement_new : (new : ConsensusSystem α).Agreement where
  agree r n m v w h := by cases h
  stable n r v h := by cases h

theorem stored_cases {n : NodeId} {roundId : Nat} {value : α}
    (here : (s.node n).Stores (s'.node n) roundId value)
    (elsewhere : ∀ q, q ≠ n → s'.node q = s.node q) {q : NodeId} {r : Nat}
    {v : α} (hv : (s'.node q).decidedValues.get? r = some v) :
    r = roundId ∧ v = value ∨
      (s.node q).decidedValues.get? r = some v := by
  by_cases hq : q = n
  · subst hq
    rw [here.values, Dict.get?_set] at hv
    split at hv
    · next hr => exact .inl ⟨hr, (Option.some.inj hv).symm⟩
    · exact .inr hv
  · rw [elsewhere q hq] at hv
    exact .inr hv

theorem bounded_after {n : NodeId} {roundId : Nat} {value : α} (h : s.Inv)
    (here : (s.node n).Stores (s'.node n) roundId value)
    (elsewhere : ∀ q, q ≠ n → s'.node q = s.node q) (q : NodeId) :
    (s'.node q).Bounded := by
  by_cases hq : q = n
  · exact hq ▸ here.bounded
  · exact elsewhere q hq ▸ h.bounded q

theorem closed_after {n : NodeId} {roundId : Nat} {value : α}
    (here : (s.node n).Stores (s'.node n) roundId value)
    (elsewhere : ∀ q, q ≠ n → s'.node q = s.node q) {q : NodeId} {r : Nat}
    (hq : (s.node q).Closed r) : (s'.node q).Closed r := by
  by_cases hqn : q = n
  · subst hqn
    exact here.closed r hq
  · exact elsewhere q hqn ▸ hq

theorem stored_after {n : NodeId} {roundId : Nat} {value : α}
    (here : (s.node n).Stores (s'.node n) roundId value)
    (elsewhere : ∀ q, q ≠ n → s'.node q = s.node q)
    (hsame : ∀ q w, (s.node q).decidedValues.get? roundId = some w →
      w = value) {q : NodeId} {r : Nat} {v : α}
    (hv : (s.node q).decidedValues.get? r = some v) :
    (s'.node q).decidedValues.get? r = some v := by
  by_cases hq : q = n
  · subst hq
    rw [here.values, Dict.get?_set]
    split
    · next hr => rw [hsame q v (hr ▸ hv)]
    · exact hv
  · rwa [elsewhere q hq]

theorem agree_after {n : NodeId} {roundId : Nat} {value : α}
    (h : s.Agreement) (here : (s.node n).Stores (s'.node n) roundId value)
    (elsewhere : ∀ q, q ≠ n → s'.node q = s.node q)
    (hsame : ∀ q w, (s.node q).decidedValues.get? roundId = some w →
      w = value) (answered : s'.answered = s.answered) : s'.Agreement := by
  refine ⟨fun r q q' v w hv hw => ?_, fun q r v hmem => ?_⟩
  · rcases stored_cases here elsewhere hv with ⟨rfl, rfl⟩ | hv
    · rcases stored_cases here elsewhere hw with ⟨-, rfl⟩ | hw
      · rfl
      · exact (hsame q' w hw).symm
    · rcases stored_cases here elsewhere hw with ⟨rfl, rfl⟩ | hw
      · exact hsame q v hv
      · exact h.agree r q q' v w hv hw
  · rw [answered] at hmem
    exact stored_after here elsewhere hsame (h.stable q r v hmem)

theorem Inv.change {own : Option (Choice α)} (h : s.Inv)
    (hchange : Change s s' own) : s'.Inv := by
  cases hchange with
  | quiet node chosen answered announced =>
      refine ⟨fun q => (node q).bounded, fun q r v hmem => ?_,
        fun q r v hv => ?_, fun r v hr => ?_⟩
      · rw [chosen] at hmem
        exact (node q).closed r (h.closed q r v hmem)
      · rw [(node q).values] at hv
        exact chosen.symm ▸ h.stored q r v hv
      · exact chosen.symm ▸ h.announced r v (announced r v hr)
  | carried n roundId value undecided here closed elsewhere chosen answered
      announced =>
      refine ⟨bounded_after h here elsewhere, fun q r v hmem => ?_,
        fun q r v hv => ?_, fun r v hr => ?_⟩
      · rw [chosen] at hmem
        rcases List.mem_append.mp hmem with hmem | hmem
        · exact closed_after here elsewhere (h.closed q r v hmem)
        · cases List.mem_singleton.mp hmem
          exact closed
      · rw [chosen]
        rcases stored_cases here elsewhere hv with ⟨rfl, rfl⟩ | hv
        · exact ⟨n, by simp⟩
        · obtain ⟨m, hm⟩ := h.stored q r v hv
          exact ⟨m, List.mem_append_left _ hm⟩
      · rw [chosen]
        rcases announced r v hr with hr | ⟨rfl, rfl⟩
        · obtain ⟨m, hm⟩ := h.announced r v hr
          exact ⟨m, List.mem_append_left _ hm⟩
        · exact ⟨n, by simp⟩
  | learned n roundId value told here elsewhere chosen answered announced =>
      refine ⟨bounded_after h here elsewhere, fun q r v hmem => ?_,
        fun q r v hv => ?_, fun r v hr => ?_⟩
      · rw [chosen] at hmem
        exact closed_after here elsewhere (h.closed q r v hmem)
      · rw [chosen]
        rcases stored_cases here elsewhere hv with ⟨rfl, rfl⟩ | hv
        · exact h.announced r v told
        · exact h.stored q r v hv
      · exact chosen.symm ▸ h.announced r v (announced r v hr)
  | asked n roundId value stored node chosen answered announced =>
      refine ⟨node.symm ▸ h.bounded, ?_, ?_, fun r v hr => ?_⟩
      · rw [chosen, node]
        exact h.closed
      · rw [chosen, node]
        exact h.stored
      · exact chosen.symm ▸ h.announced r v (announced r v hr)

theorem Inv.step (h : s.Inv) (hstep : s.step a = some s') : s'.Inv :=
  h.change (change_of_step h.bounded hstep)

private theorem agreement_step (hinv : s.Inv) (h : s.Agreement ∧ s.Standing)
    (hstep : s.step a = some s') :
    (s'.Agreement ↔ s.Unopposed a) ∧
      (s.Unopposed a → s'.Agreement ∧ s'.Standing) := by
  obtain ⟨hagree, hstanding⟩ := h
  have hchange := change_of_step hinv.bounded hstep
  -- A step that carries nothing meets the condition.
  have hsilent : s.carried a = none → s.Unopposed a := by
    intro hnone n r v hsome
    rw [hnone] at hsome
    cases hsome
  generalize hown : s.carried a = own at hchange
  cases hchange with
  | quiet node chosen answered announced =>
      have hagree' : s'.Agreement := by
        refine ⟨fun r q q' v w hv hw => ?_, fun q r v hmem => ?_⟩
        · rw [(node q).values] at hv
          rw [(node q').values] at hw
          exact hagree.agree r q q' v w hv hw
        · rw [answered] at hmem
          rw [(node q).values]
          exact hagree.stable q r v hmem
      refine ⟨iff_of_true hagree' (hsilent hown), fun _ => ⟨hagree', ?_⟩⟩
      intro q r v hmem
      rw [chosen] at hmem
      rw [(node q).values]
      exact hstanding q r v hmem
  | carried n roundId value undecided here closed elsewhere chosen answered
      announced =>
      have hstored : (s'.node n).decidedValues.get? roundId = some value := by
        rw [here.values, Dict.get?_set_self]
      have hto : s.Unopposed a → s'.Agreement ∧ s'.Standing := by
        intro hok
        have hsame : ∀ q w,
            (s.node q).decidedValues.get? roundId = some w → w = value := by
          intro q w hw
          obtain ⟨m, hm⟩ := hinv.stored q roundId w hw
          exact hok n roundId value hown m w hm
        refine ⟨agree_after hagree here elsewhere hsame answered, ?_⟩
        intro q r v hmem
        rw [chosen] at hmem
        rcases List.mem_append.mp hmem with hmem | hmem
        · exact stored_after here elsewhere hsame (hstanding q r v hmem)
        · cases List.mem_singleton.mp hmem
          exact hstored
      refine ⟨⟨fun hagree' => ?_, fun hok => (hto hok).1⟩, hto⟩
      intro n' r v hsome m w hm
      rw [hown] at hsome
      cases hsome
      -- An earlier choice is that of another node, whose value still stands.
      have hne : m ≠ n := by
        rintro rfl
        exact undecided (hinv.closed m roundId w hm)
      have hw := hstanding m roundId w hm
      rw [← elsewhere m hne] at hw
      exact hagree'.agree roundId m n w value hw hstored
  | learned n roundId value told here elsewhere chosen answered announced =>
      obtain ⟨m, hm⟩ := hinv.announced roundId value told
      have hsame : ∀ q w,
          (s.node q).decidedValues.get? roundId = some w → w = value :=
        fun q w hw => hagree.agree roundId q m w value hw
          (hstanding m roundId value hm)
      have hagree' := agree_after hagree here elsewhere hsame answered
      refine ⟨iff_of_true hagree' (hsilent hown), fun _ => ⟨hagree', ?_⟩⟩
      intro q r v hmem
      rw [chosen] at hmem
      exact stored_after here elsewhere hsame (hstanding q r v hmem)
  | asked n roundId value stored node chosen answered announced =>
      have hagree' : s'.Agreement := by
        refine ⟨node.symm ▸ hagree.agree, fun q r v hmem => ?_⟩
        rw [answered] at hmem
        rw [node]
        rcases List.mem_append.mp hmem with hmem | hmem
        · exact hagree.stable q r v hmem
        · cases List.mem_singleton.mp hmem
          exact stored
      refine ⟨iff_of_true hagree' (hsilent hown), fun _ => ⟨hagree', ?_⟩⟩
      unfold Standing
      rw [chosen, node]
      exact hstanding

end Step

/--
The nodes agree on every round in every state of a run, and no answer of
`get_decision` is ever changed, exactly when no count of votes carries a value for
a round number under which a count has carried another value before.
-/
theorem run_consensusAgreement (actions : List (ConsensusAction α))
    (s : ConsensusSystem α) (hrun : run step new actions = some s) :
    Always step Agreement new actions ↔ Along step Unopposed new actions := by
  refine always_iff_along_of (I := Inv)
    (Q := fun s : ConsensusSystem α => s.Agreement ∧ s.Standing)
    (fun _ h => h.1) (fun _ _ _ h hstep => h.step hstep)
    (fun _ _ _ hinv h hstep => agreement_step hinv h hstep) inv_new
    ⟨agreement_new, ?_⟩ hrun
  intro n r v hmem
  cases hmem

instance [DecidableEq α] (s : ConsensusSystem α) (a : ConsensusAction α) :
    Decidable (s.Unopposed a) :=
  match h : s.carried a with
  | none => isTrue fun n r v hsome => by simp [h] at hsome
  | some (n, roundId, value) =>
      decidable_of_iff
        (∀ c ∈ s.chosen, c.2.1 = roundId → c.2.2 = value) (by
          constructor
          · intro hall n' r v hsome m w hm
            rw [h] at hsome
            cases hsome
            exact hall _ hm rfl
          · rintro hok ⟨m, r, w⟩ hm rfl
            exact hok n r value h m w hm)

/-- Node 0 proposes and decides round 1 with the votes of nodes 1 and 2; node 3
learns the decision and is asked for it. -/
def oneLeader : List (ConsensusAction String) :=
  [.propose 0 "a", .readAlive 0 0 [1, 2, 3], .sendPropose 0 0,
    .sendPropose 0 0, .sendPropose 0 0, .deliver 0 [], .deliver 1 [],
    .deliver 3 [1, 2, 3], .deliver 4 [1, 2, 3], .close 0 0, .deliver 7 [],
    .getDecision 3 1]

theorem oneLeader_agreement :
    ∃ s, run step new oneLeader = some s ∧
      (s.node 3).getDecision 1 = some "a" ∧
      Always step Agreement new oneLeader := by
  have hview : (run step new oneLeader).any
      (fun s => decide ((s.node 3).getDecision 1 = some "a")) = true := by
    decide +kernel
  obtain ⟨s, hs, hvalue⟩ := (Option.any_eq_true _ _).mp hview
  have hok : Along step Unopposed new oneLeader := by
    decide +kernel
  exact ⟨s, hs, of_decide_eq_true hvalue,
    (run_consensusAgreement oneLeader s hs).mpr hok⟩

/-- Then node 3 takes itself for the leader; its first round is number 1 as well,
and nodes 0 and 1 accept its value. -/
def leaderChange : List (ConsensusAction String) :=
  oneLeader ++
    [.propose 3 "b", .readAlive 3 0 [0, 1, 2], .sendPropose 3 0,
      .sendPropose 3 0, .sendPropose 3 0, .deliver 8 [], .deliver 9 [],
      .deliver 11 [0, 1, 2], .deliver 12 [0, 1, 2]]

/-- Nodes 0 and 3 have different values for round 1, and node 3 no longer has the
one that it has answered. -/
theorem leaderChange_disagrees :
    ∃ s, run step new leaderChange = some s ∧
      (s.node 0).getDecision 1 = some "a" ∧
      (s.node 3).getDecision 1 = some "b" ∧
      (3, 1, "a") ∈ s.answered ∧ ¬ s.Agreement := by
  have hview : (run step new leaderChange).any
      (fun s => decide ((s.node 0).getDecision 1 = some "a" ∧
        (s.node 3).getDecision 1 = some "b" ∧
        (3, 1, "a") ∈ s.answered)) = true := by
    decide +kernel
  obtain ⟨s, hs, hvalues⟩ := (Option.any_eq_true _ _).mp hview
  obtain ⟨hzero, hthree, hanswered⟩ := of_decide_eq_true hvalues
  refine ⟨s, hs, hzero, hthree, hanswered, fun hagree => ?_⟩
  have heq := hagree.agree 1 0 3 "a" "b" hzero hthree
  simp at heq

end ConsensusSystem

end DistributedMemory.Consensus
