import DistributedMemory.Consensus.Agreement

/-!
# When a failed proposal stays failed

`propose` gives up when its wait ends before the votes are a majority.  The round
stays open: a vote that arrives later is counted, and can still decide it.

A round belongs to the node that opened it.  The history of a run names, for each
value that a node records as decided, the proposer whose round was decided: the
node itself when it has counted the votes, otherwise the sender of the DECIDE.
-/

namespace DistributedMemory.Consensus

open DistributedMemory.Library
open DistributedMemory.Network (NodeId)

universe u

variable {α : Type u}

/-- `node` stores `value` as decided in a round of `proposer`. -/
structure Recorded (α : Type u) where
  node : NodeId
  proposer : NodeId
  roundId : Nat
  value : α
  deriving DecidableEq

structure RecordedSystem (α : Type u) where
  system : ConsensusSystem α
  recorded : List (Recorded α)

def ProposePhase.failed : ProposePhase α → Bool
  | .done none => true
  | _ => false

namespace ConsensusSystem

/-- A proposal of `n` has failed in this round. -/
def Failed (s : ConsensusSystem α) (n : NodeId) (roundId : Nat) : Prop :=
  ∃ c ∈ s.calls n, c.roundId = roundId ∧ c.phase.failed = true

instance (s : ConsensusSystem α) (n : NodeId) (roundId : Nat) :
    Decidable (s.Failed n roundId) :=
  inferInstanceAs (Decidable (∃ c ∈ s.calls n, _ ∧ _))

def told (s : ConsensusSystem α) : ConsensusAction α → Option (Recorded α)
  | .deliver packet _ =>
      match s.network[packet]? with
      | some ⟨sender, n, .decide roundId value⟩ =>
          some ⟨n, sender, roundId, value⟩
      | _ => none
  | _ => none

/-- What a node stores as decided in this step. -/
def records (s : ConsensusSystem α) (a : ConsensusAction α) :
    Option (Recorded α) :=
  match s.carried a with
  | some (n, roundId, value) => some ⟨n, n, roundId, value⟩
  | none => s.told a

/-- No count of votes carries a value in this step for a round in which `propose`
has given up. -/
def Timely (s : ConsensusSystem α) (a : ConsensusAction α) : Prop :=
  ∀ n roundId v, s.carried a = some (n, roundId, v) → ¬ s.Failed n roundId

instance (s : ConsensusSystem α) (a : ConsensusAction α) :
    Decidable (s.Timely a) :=
  match h : s.carried a with
  | none => isTrue fun n r v hsome => by simp [h] at hsome
  | some (n, roundId, value) =>
      decidable_of_iff (¬ s.Failed n roundId) (by
        constructor
        · intro hok n' r v hsome
          rw [h] at hsome
          cases hsome
          exact hok
        · intro hok
          exact hok n roundId value h)

end ConsensusSystem

namespace RecordedSystem

def new : RecordedSystem α := ⟨.new, []⟩

def step (t : RecordedSystem α) (a : ConsensusAction α) :
    Option (RecordedSystem α) :=
  (t.system.step a).map fun system =>
    ⟨system, t.recorded ++ (t.system.records a).toList⟩

/-- No node has a decided value for a round in which its proposer has failed. -/
def StaysFailed (t : RecordedSystem α) : Prop :=
  ∀ n roundId, t.system.Failed n roundId →
    ∀ r ∈ t.recorded, r.proposer = n → r.roundId ≠ roundId

end RecordedSystem

/-! ## A round that is decided has a decision -/

namespace ConsensusProtocol

def Settled (p : ConsensusProtocol α) : Prop :=
  ∀ roundId rnd, p.rounds.get? roundId = some rnd → rnd.decided = true →
    rnd.decision ≠ none

theorem settled_new : (new : ConsensusProtocol α).Settled := by
  intro r rnd hget
  cases hget

theorem Settled.setRound {p : ConsensusProtocol α} (h : p.Settled)
    (counter roundId : Nat) {rnd : ConsensusRound α} (values : Dict Nat α)
    (hrnd : rnd.decided = true → rnd.decision ≠ none) :
    Settled ⟨counter, p.rounds.set roundId rnd, values⟩ := by
  intro r rnd' hget
  change (p.rounds.set roundId rnd).get? r = some rnd' at hget
  rw [Dict.get?_set] at hget
  split at hget
  · cases hget
    exact hrnd
  · exact h r rnd' hget

theorem Settled.closeRound {p p' : ConsensusProtocol α} (h : p.Settled)
    {roundId : Nat} {value : α} {alive : List NodeId} {own result : Option α}
    (hclose : p.closeRound roundId value alive = some (p', own, result)) :
    p'.Settled ∧ (result = none → ¬ p.Closed roundId ∧ own = none) := by
  unfold ConsensusProtocol.closeRound at hclose
  split at hclose
  · cases hclose
  · next rnd hget =>
    split at hclose
    · next hdecided =>
      cases hclose
      exact ⟨h, fun hnone => absurd hnone (h roundId rnd hget hdecided)⟩
    · next hopen =>
      split at hclose
      · cases hclose
        exact ⟨h.setRound _ _ _ (by simp), nofun⟩
      · cases hclose
        have hopen := not_closed hget (Bool.eq_false_iff.mpr hopen)
        exact ⟨h, fun _ => ⟨hopen, rfl⟩⟩

theorem Settled.handleVote {p : ConsensusProtocol α} (h : p.Settled)
    (sender : NodeId) (roundId : Nat) (accepted : Bool) (alive : List NodeId) :
    (p.handleVote sender roundId accepted alive).1.Settled := by
  unfold ConsensusProtocol.handleVote
  split
  · exact h
  · next rnd hget =>
    split
    · exact h
    · next hopen =>
      dsimp only
      split
      · exact h.setRound _ _ _ (by simp)
      · exact h.setRound _ _ _ (fun hdecided => absurd hdecided hopen)

theorem Settled.handleDecide {p : ConsensusProtocol α} (h : p.Settled)
    (roundId : Nat) (value : α) : (p.handleDecide roundId value).Settled := by
  unfold ConsensusProtocol.handleDecide
  split
  · exact h
  · exact h.setRound _ _ _ (by simp)

end ConsensusProtocol

/-! ## What a step does to the calls and the messages -/

namespace ConsensusSystem

variable {s s' : ConsensusSystem α} {a : ConsensusAction α}

theorem chosen_step (hbounded : ∀ n, (s.node n).Bounded)
    (hstep : s.step a = some s') :
    s'.chosen = s.chosen ++ (s.carried a).toList := by
  have hchange := change_of_step hbounded hstep
  generalize s.carried a = own at hchange
  cases hchange with
  | quiet node chosen answered announced => simp [chosen]
  | carried n roundId value undecided here closed elsewhere chosen answered
      announced => simp [chosen]
  | learned n roundId value told here elsewhere chosen answered announced =>
      simp [chosen]
  | asked n roundId value stored node chosen answered announced =>
      simp [chosen]

theorem failed_setCall {n : NodeId} {call : Nat} {c : ProposeCall α}
    (hcall : (s.calls n)[call]? = some c) (hc : c.phase.failed = false)
    (c' : ProposeCall α) (m : NodeId) (roundId : Nat) :
    (s.setCall n call c').Failed m roundId ↔ s.Failed m roundId ∨
      m = n ∧ c'.roundId = roundId ∧ c'.phase.failed = true := by
  obtain ⟨hlt, -⟩ := List.getElem?_eq_some_iff.mp hcall
  by_cases hm : m = n
  · subst hm
    simp only [Failed, setCall, Function.update_self, true_and]
    constructor
    · rintro ⟨x, hx, hround, hfailed⟩
      rcases List.mem_or_eq_of_mem_set hx with hx | rfl
      · exact .inl ⟨x, hx, hround, hfailed⟩
      · exact .inr ⟨hround, hfailed⟩
    · rintro (⟨x, hx, hround, hfailed⟩ | ⟨hround, hfailed⟩)
      · obtain ⟨j, hj⟩ := List.mem_iff_getElem?.mp hx
        have hne : call ≠ j := by
          rintro rfl
          obtain rfl := Option.some.inj (hcall.symm.trans hj)
          rw [hc] at hfailed
          cases hfailed
        refine ⟨x, List.mem_iff_getElem?.mpr ⟨j, ?_⟩, hround, hfailed⟩
        rw [List.getElem?_set_ne hne]
        exact hj
      · exact ⟨c', List.mem_set hlt c', hround, hfailed⟩
  · simp [Failed, setCall, hm]

/-- How the calls, the messages and the stored values change in a step. -/
structure Outcome (s s' : ConsensusSystem α) (a : ConsensusAction α) : Prop where
  settled : ∀ n, (s'.node n).Settled
  kept : ∀ n roundId, s.Failed n roundId → s'.Failed n roundId
  fresh : ∀ n roundId, s'.Failed n roundId → s.Failed n roundId ∨
    ¬ (s.node n).Closed roundId ∧ s.carried a = none
  announced : ∀ packet ∈ s'.network, ∀ roundId v,
    packet.msg = .decide roundId v → packet ∈ s.network ∨
      s.carried a = some (packet.sender, roundId, v)
  stored : ∀ m roundId v,
    (s'.node m).decidedValues.get? roundId = some v →
      (s.node m).decidedValues.get? roundId = some v ∨
        ∃ proposer, s.records a = some ⟨m, proposer, roundId, v⟩

theorem outcome_quiet (hsettled : ∀ n, (s'.node n).Settled)
    (hvalues : ∀ n, (s'.node n).decidedValues = (s.node n).decidedValues)
    (hcalls : ∀ n roundId, s'.Failed n roundId ↔ s.Failed n roundId)
    (hnetwork : ∀ packet ∈ s'.network, packet ∈ s.network ∨
      ∀ roundId v, packet.msg ≠ .decide roundId v) : Outcome s s' a where
  settled := hsettled
  kept n roundId := (hcalls n roundId).mpr
  fresh n roundId h := .inl ((hcalls n roundId).mp h)
  announced packet hpacket roundId v hmsg := by
    rcases hnetwork packet hpacket with hold | hother
    · exact .inl hold
    · exact absurd hmsg (hother roundId v)
  stored m roundId v hv := by
    rw [hvalues] at hv
    exact .inl hv

theorem settled_setNode (h : ∀ n, (s.node n).Settled) {n : NodeId}
    {p : ConsensusProtocol α} (hp : p.Settled) (m : NodeId) :
    ((s.setNode n p).node m).Settled := by
  by_cases hm : m = n
  · subst hm
    rwa [setNode_here]
  · rw [setNode_elsewhere s hm]
    exact h m

theorem outcome_counts (h : ∀ n, (s.node n).Settled) {n : NodeId}
    {roundId : Nat} {p : ConsensusProtocol α} {own : Option α}
    (hcounts : (s.node n).Counts p roundId own) (hp : p.Settled)
    (hown : s.carried a = own.map fun v => (n, roundId, v))
    (alive : List NodeId) (calls : NodeId → List (ProposeCall α))
    (hkept : ∀ m r, s.Failed m r → ∃ c ∈ calls m, c.roundId = r ∧
      c.phase.failed = true)
    (hfresh : ∀ m r, (∃ c ∈ calls m, c.roundId = r ∧ c.phase.failed = true) →
      s.Failed m r ∨ ¬ (s.node m).Closed r ∧ s.carried a = none) :
    Outcome s (ConsensusSystem.announce { s.setNode n p with calls := calls } n
      roundId alive own) a := by
  have hsettled := settled_setNode h hp (n := n)
  cases hcounts with
  | nothing keeps =>
      refine ⟨hsettled, hkept, hfresh, fun packet hpacket _ _ _ => .inl hpacket,
        fun m r v hv => .inl ?_⟩
      change ((s.setNode n p).node m).decidedValues.get? r = some v at hv
      by_cases hm : m = n
      · subst hm
        rwa [setNode_here, keeps.values] at hv
      · rwa [setNode_elsewhere s hm] at hv
  | carries value undecided stores closed =>
      refine ⟨hsettled, hkept, hfresh, fun packet hpacket r v hmsg => ?_,
        fun m r v hv => ?_⟩
      · rcases List.mem_append.mp hpacket with hpacket | hpacket
        · exact .inl hpacket
        · obtain ⟨target, -, rfl⟩ := List.mem_map.mp hpacket
          cases hmsg
          exact .inr hown
      · change ((s.setNode n p).node m).decidedValues.get? r = some v at hv
        by_cases hm : m = n
        · subst hm
          rw [setNode_here, stores.values, Dict.get?_set] at hv
          split at hv
          · next heq =>
            cases hv
            refine .inr ⟨m, ?_⟩
            rw [records, hown, heq]
            rfl
          · exact .inl hv
        · rw [setNode_elsewhere s hm] at hv
          exact .inl hv

private theorem outcome_decide (h : ∀ n, (s.node n).Settled) {packet : Nat}
    {sender n : NodeId} {roundId : Nat} {value : α}
    (hpacket : s.network[packet]? =
      some ⟨sender, n, .decide roundId value⟩) (alive : List NodeId)
    (hbounded : (s.node n).Bounded) :
    Outcome s (s.setNode n ((s.node n).handleDecide roundId value))
      (.deliver packet alive) := by
  refine ⟨settled_setNode h ((h n).handleDecide roundId value), fun _ _ => id,
    fun _ _ => .inl, fun _ hpacket _ _ _ => .inl hpacket, fun m r v hv => ?_⟩
  have hrecords : s.records (.deliver packet alive) =
      some ⟨n, sender, roundId, value⟩ := by
    simp only [records, carried, told, hpacket]
  by_cases hm : m = n
  · subst hm
    rw [setNode_here, (hbounded.handleDecide roundId value).values,
      Dict.get?_set] at hv
    split at hv
    · next heq =>
      cases hv
      exact .inr ⟨sender, heq ▸ hrecords⟩
    · exact .inl hv
  · rw [setNode_elsewhere s hm] at hv
    exact .inl hv

private theorem outcome_handle (hbounded : ∀ n, (s.node n).Bounded)
    (h : ∀ n, (s.node n).Settled) {packet : Nat} {content : ConsensusPacket α}
    (hpacket : s.network[packet]? = some content) (alive : List NodeId) :
    Outcome s (s.handle alive content) (.deliver packet alive) := by
  obtain ⟨sender, n, msg⟩ := content
  cases msg with
  | propose roundId value =>
      refine outcome_quiet h (fun _ => rfl) (fun _ _ => Iff.rfl) ?_
      intro content hcontent
      rcases List.mem_append.mp hcontent with hold | hnew
      · exact .inl hold
      · rw [List.mem_singleton.mp hnew]
        exact .inr (by simp)
  | voteAccept roundId =>
      obtain ⟨hvalue, hcounts⟩ :=
        (s.node n).handleVote_spec (hbounded n) sender roundId true alive
      refine outcome_counts h hcounts ((h n).handleVote _ _ _ _) ?_ alive s.calls
        (fun _ _ => id) (fun _ _ => .inl)
      simp only [carried, hpacket, hvalue]
  | voteReject roundId =>
      obtain ⟨hvalue, hcounts⟩ :=
        (s.node n).handleVote_spec (hbounded n) sender roundId false alive
      refine outcome_counts h hcounts ((h n).handleVote _ _ _ _) ?_ alive s.calls
        (fun _ _ => id) (fun _ _ => .inl)
      simp only [carried, hpacket, hvalue]
  | decide roundId value =>
      exact outcome_decide h hpacket alive (hbounded n)

theorem outcome_call (h : ∀ n, (s.node n).Settled) {n : NodeId} {call : Nat}
    {c c' : ProposeCall α} (hcall : (s.calls n)[call]? = some c)
    (hc : c.phase.failed = false) (hc' : c'.phase.failed = false)
    (network : List (ConsensusPacket α))
    (hnetwork : ∀ packet ∈ network, packet ∈ s.network ∨
      ∀ roundId v, packet.msg ≠ .decide roundId v) :
    Outcome s { s.setCall n call c' with network := network } a := by
  refine outcome_quiet h (fun _ => rfl) (fun m r => ?_) hnetwork
  refine (failed_setCall hcall hc c' m r).trans ?_
  simp [hc']

private theorem outcome_close (hbounded : ∀ n, (s.node n).Bounded)
    (h : ∀ n, (s.node n).Settled) {n : NodeId} {call : Nat} {roundId : Nat}
    {value : α} {alive : List NodeId} {p : ConsensusProtocol α}
    {own result : Option α}
    (hcall : (s.calls n)[call]? = some ⟨roundId, value, .sending alive []⟩)
    (hclose : (s.node n).closeRound roundId value alive =
      some (p, own, result)) :
    Outcome s (((s.setNode n p).setCall n call
      ⟨roundId, value, .done result⟩).announce n roundId alive own)
      (.close n call) := by
  obtain ⟨hvalue, hcounts⟩ :=
    ConsensusProtocol.closeRound_spec (hbounded n) hclose
  obtain ⟨hsettled, hfailed⟩ := (h n).closeRound hclose
  have hown : s.carried (.close n call) =
      own.map fun v => (n, roundId, v) := by
    simp only [carried, hcall, hvalue]
  have hcalls := failed_setCall hcall rfl ⟨roundId, value, .done result⟩
  refine outcome_counts h hcounts hsettled hown alive _
    (fun m r hold => (hcalls m r).mpr (.inl hold)) (fun m r hnew => ?_)
  rcases (hcalls m r).mp hnew with hold | ⟨rfl, rfl, hnone⟩
  · exact .inl hold
  · cases result with
    | some v => cases hnone
    | none =>
        obtain ⟨hopen, rfl⟩ := hfailed rfl
        exact .inr ⟨hopen, hown⟩

theorem outcome_step (hbounded : ∀ n, (s.node n).Bounded)
    (h : ∀ n, (s.node n).Settled) (hstep : s.step a = some s') :
    Outcome s s' a := by
  cases step_cases hstep with
  | propose n value =>
      have hsettled : ((s.node n).openRound value).Settled :=
        (h n).setRound _ _ _ nofun
      refine outcome_quiet (settled_setNode h hsettled) (fun m => ?_)
        (fun m r => ?_) fun _ => .inl
      · by_cases hm : m = n
        · subst hm
          have hhere := setNode_here s m ((s.node m).openRound value)
          exact (congrArg ConsensusProtocol.decidedValues hhere).trans rfl
        · exact congrArg ConsensusProtocol.decidedValues
            (setNode_elsewhere s hm _)
      · by_cases hm : m = n
        · subst hm
          simp [Failed, ProposePhase.failed]
        · simp [Failed, hm]
  | readAlive hnodup hcall =>
      exact outcome_call h hcall rfl rfl s.network fun _ => .inl
  | sendPropose hcall =>
      refine outcome_call h hcall rfl rfl _ fun packet hpacket => ?_
      rcases List.mem_append.mp hpacket with hold | hnew
      · exact .inl hold
      · rw [List.mem_singleton.mp hnew]
        exact .inr (by simp)
  | close hcall hclose => exact outcome_close hbounded h hcall hclose
  | deliver hnodup hpacket => exact outcome_handle hbounded h hpacket _
  | undecided =>
      exact outcome_quiet h (fun _ => rfl) (fun _ _ => Iff.rfl) fun _ => .inl
  | answered =>
      exact outcome_quiet h (fun _ => rfl) (fun _ _ => Iff.rfl) fun _ => .inl

end ConsensusSystem

/-! ## Runs -/

namespace RecordedSystem

structure Inv (t : RecordedSystem α) : Prop where
  system : t.system.Inv
  settled : ∀ n, (t.system.node n).Settled
  chosen : ∀ r ∈ t.recorded, (r.proposer, r.roundId, r.value) ∈ t.system.chosen
  announced : ∀ packet ∈ t.system.network, ∀ roundId v,
    packet.msg = .decide roundId v →
      (packet.sender, roundId, v) ∈ t.system.chosen
  stored : ∀ n roundId v,
    (t.system.node n).decidedValues.get? roundId = some v →
      ∃ proposer, ⟨n, proposer, roundId, v⟩ ∈ t.recorded

theorem inv_new : (new : RecordedSystem α).Inv where
  system := ConsensusSystem.inv_new
  settled n := ConsensusProtocol.settled_new
  chosen r hr := by cases hr
  announced packet hpacket := by cases hpacket
  stored n r v hv := by cases hv

section Step

variable {t t' : RecordedSystem α} {a : ConsensusAction α}

private theorem Inv.chosen_of_records (h : t.Inv) {r : Recorded α}
    (hr : t.system.records a = some r) :
    t.system.carried a = some (r.proposer, r.roundId, r.value) ∨
      (r.proposer, r.roundId, r.value) ∈ t.system.chosen := by
  unfold ConsensusSystem.records at hr
  split at hr
  · next n roundId value hcarried =>
    cases hr
    exact .inl hcarried
  · right
    unfold ConsensusSystem.told at hr
    split at hr
    · split at hr
      · next packet _ sender n roundId value hpacket =>
        cases hr
        exact h.announced _ (List.mem_of_getElem? hpacket) roundId value rfl
      · cases hr
    · cases hr

theorem Inv.step (h : t.Inv) (hstep : t.step a = some t') : t'.Inv := by
  obtain ⟨system, hsystem, rfl⟩ := Option.map_eq_some_iff.mp hstep
  have houtcome := ConsensusSystem.outcome_step h.system.bounded h.settled hsystem
  have hchosen := ConsensusSystem.chosen_step h.system.bounded hsystem
  have hnow : ∀ c, t.system.carried a = some c → c ∈ system.chosen := by
    intro c hc
    simp [hchosen, hc]
  have hbefore : ∀ c ∈ t.system.chosen, c ∈ system.chosen := by
    intro c hc
    rw [hchosen]
    exact List.mem_append_left _ hc
  refine ⟨h.system.step hsystem, houtcome.settled, fun r hr => ?_,
    fun packet hpacket roundId v hmsg => ?_, fun n roundId v hv => ?_⟩
  · rcases List.mem_append.mp hr with hr | hr
    · exact hbefore _ (h.chosen r hr)
    · rcases h.chosen_of_records (Option.mem_toList.mp hr) with hc | hc
      · exact hnow _ hc
      · exact hbefore _ hc
  · rcases houtcome.announced packet hpacket roundId v hmsg with hold | hc
    · exact hbefore _ (h.announced packet hold roundId v hmsg)
    · exact hnow _ hc
  · rcases houtcome.stored n roundId v hv with hv | ⟨proposer, hr⟩
    · obtain ⟨proposer, hmem⟩ := h.stored n roundId v hv
      exact ⟨proposer, List.mem_append_left _ hmem⟩
    · refine ⟨proposer, List.mem_append_right _ ?_⟩
      simp [hr]

/-- No count of votes has carried a value in a round in which `propose` has
given up. -/
def NoneChosen (t : RecordedSystem α) : Prop :=
  ∀ n roundId, t.system.Failed n roundId → ∀ v,
    (n, roundId, v) ∉ t.system.chosen

theorem Inv.staysFailed (h : t.Inv) (hnone : t.NoneChosen) : t.StaysFailed := by
  rintro n roundId hfailed r hr rfl rfl
  exact hnone _ _ hfailed _ (h.chosen r hr)

private theorem staysFailed_step (h : t.Inv) (hnone : t.NoneChosen)
    (hstep : t.step a = some t') :
    (t'.StaysFailed ↔ t.system.Timely a) ∧
      (t.system.Timely a → t'.NoneChosen) := by
  have hinv' := h.step hstep
  obtain ⟨system, hsystem, rfl⟩ := Option.map_eq_some_iff.mp hstep
  have houtcome := ConsensusSystem.outcome_step h.system.bounded h.settled hsystem
  have hchosen := ConsensusSystem.chosen_step h.system.bounded hsystem
  have hto : t.system.Timely a → NoneChosen
      ⟨system, t.recorded ++ (t.system.records a).toList⟩ := by
    intro htimely n roundId hfailed v hmem
    change (n, roundId, v) ∈ system.chosen at hmem
    rw [hchosen] at hmem
    rcases houtcome.fresh n roundId hfailed with hold | ⟨hopen, hcarried⟩
    · rcases List.mem_append.mp hmem with hmem | hmem
      · exact hnone n roundId hold v hmem
      · exact htimely n roundId v (Option.mem_toList.mp hmem) hold
    · rw [hcarried] at hmem
      simp only [Option.toList_none, List.append_nil] at hmem
      exact hopen (h.system.closed n roundId v hmem)
  refine ⟨⟨fun hstays n roundId v hcarried hfailed => ?_,
    fun htimely => hinv'.staysFailed (hto htimely)⟩, hto⟩
  refine hstays n roundId (houtcome.kept n roundId hfailed)
    ⟨n, n, roundId, v⟩ ?_ rfl rfl
  simp [ConsensusSystem.records, hcarried]

end Step

/-- The history misses no decided value. -/
theorem run_stored {actions : List (ConsensusAction α)} {t : RecordedSystem α}
    (hrun : run step new actions = some t) {n : NodeId} {roundId : Nat} {v : α}
    (hv : (t.system.node n).getDecision roundId = some v) :
    ∃ proposer, ⟨n, proposer, roundId, v⟩ ∈ t.recorded := by
  have h : t.Inv :=
    run_preserves (fun _ _ _ h hstep => h.step hstep) inv_new hrun
  exact h.stored n roundId v hv

/--
Throughout a run no node has a decided value for a round in which its proposer has
failed, exactly when no count of votes carries a value for such a round.
-/
theorem run_staysFailed (actions : List (ConsensusAction α))
    (t : RecordedSystem α) (hrun : run step new actions = some t) :
    Always step StaysFailed new actions ↔
      Along step (fun t a => t.system.Timely a) new actions := by
  refine always_iff_along_of (I := Inv)
    (Q := fun t : RecordedSystem α => t.StaysFailed ∧ t.NoneChosen)
    (fun _ h => h.1) (fun _ _ _ h hstep => h.step hstep)
    (fun t a t' hinv h hstep => ?_) inv_new ⟨?_, ?_⟩ hrun
  · obtain ⟨hiff, hto⟩ := staysFailed_step hinv h.2 hstep
    exact ⟨hiff, fun htimely => ⟨hiff.mpr htimely, hto htimely⟩⟩
  · rintro n roundId - r hr
    cases hr
  · rintro n roundId - v hmem
    cases hmem

/-- Node 0 proposes to nodes 1 and 2 and gives up; then their votes arrive, and
node 1 hears of the decision. -/
def lateVotes : List (ConsensusAction String) :=
  [.propose 0 "a", .readAlive 0 0 [1, 2], .sendPropose 0 0, .sendPropose 0 0,
    .close 0 0, .deliver 0 [], .deliver 1 [], .deliver 2 [1, 2],
    .deliver 4 [1, 2]]

theorem lateVotes_decided :
    ∃ t, run step new lateVotes = some t ∧ t.system.Failed 0 1 ∧
      (t.system.node 0).getDecision 1 = some "a" ∧
      ⟨1, 0, 1, "a"⟩ ∈ t.recorded ∧ ¬ t.StaysFailed := by
  have hview : (run step new lateVotes).map (fun t =>
      decide (t.system.Failed 0 1 ∧
        (t.system.node 0).getDecision 1 = some "a" ∧
        ⟨1, 0, 1, "a"⟩ ∈ t.recorded)) = some true := by
    decide +kernel
  obtain ⟨t, ht, hdec⟩ := Option.map_eq_some_iff.mp hview
  obtain ⟨hfailed, hdecision, hmem⟩ := of_decide_eq_true hdec
  exact ⟨t, ht, hfailed, hdecision, hmem,
    fun hstays => hstays 0 1 hfailed _ hmem rfl rfl⟩

/-- Node 0 proposes to nodes 1, 2 and 3 and gives up; the one vote that arrives
late is no majority. -/
def oneVote : List (ConsensusAction String) :=
  [.propose 0 "a", .readAlive 0 0 [1, 2, 3], .sendPropose 0 0,
    .sendPropose 0 0, .sendPropose 0 0, .close 0 0, .deliver 0 [],
    .deliver 3 [1, 2, 3]]

theorem oneVote_staysFailed :
    ∃ t, run step new oneVote = some t ∧ t.system.Failed 0 1 ∧
      Always step StaysFailed new oneVote := by
  have hview : (run step new oneVote).map (fun t =>
      decide (t.system.Failed 0 1)) = some true := by
    decide +kernel
  have htimely : Along step (fun t a => t.system.Timely a) new oneVote := by
    decide +kernel
  obtain ⟨t, ht, hdec⟩ := Option.map_eq_some_iff.mp hview
  exact ⟨t, ht, of_decide_eq_true hdec,
    (run_staysFailed oneVote t ht).mpr htimely⟩

end RecordedSystem

end DistributedMemory.Consensus
