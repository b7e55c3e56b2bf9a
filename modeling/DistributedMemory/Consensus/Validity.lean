import DistributedMemory.Consensus.Agreement

/-!
# Where decided values come from

Every value that a node stores for a round was passed to `propose` as a round of
that number, at this node or another, and a node announces the decision of a
round of its own once.  Both hold in every run: agreement may fail, because two
nodes can open rounds under one number, but no value is made up.
-/

namespace DistributedMemory.Consensus

open DistributedMemory.Library
open DistributedMemory.Network (NodeId)

universe u

variable {α : Type u}

/-! ## The values of one node -/

namespace ConsensusProtocol

/-- Every value that the node keeps for a round satisfies `P`. -/
structure Within (P : Nat → α → Prop) (p : ConsensusProtocol α) : Prop where
  proposed : ∀ r rnd, p.rounds.get? r = some rnd → P r rnd.proposedValue
  decision : ∀ r rnd v, p.rounds.get? r = some rnd → rnd.decision = some v →
    P r v
  decided : ∀ r v, p.decidedValues.get? r = some v → P r v

section Within

variable {P : Nat → α → Prop} {p : ConsensusProtocol α}

theorem within_new : (new : ConsensusProtocol α).Within P where
  proposed r rnd h := by cases h
  decision r rnd v h := by cases h
  decided r v h := by cases h

theorem Within.mono {Q : Nat → α → Prop} (h : p.Within P)
    (hPQ : ∀ r v, P r v → Q r v) : p.Within Q where
  proposed r rnd hget := hPQ _ _ (h.proposed r rnd hget)
  decision r rnd v hget hv := hPQ _ _ (h.decision r rnd v hget hv)
  decided r v hget := hPQ _ _ (h.decided r v hget)

theorem Within.setRound (h : p.Within P) {roundId : Nat}
    (rnd : ConsensusRound α) (hproposed : P roundId rnd.proposedValue)
    (hdecision : ∀ v, rnd.decision = some v → P roundId v) (counter : Nat) :
    Within P ⟨counter, p.rounds.set roundId rnd, p.decidedValues⟩ where
  proposed r rnd' hget := by
    change (p.rounds.set roundId rnd).get? r = some rnd' at hget
    rw [Dict.get?_set] at hget
    split at hget
    · next heq =>
      cases hget
      exact heq ▸ hproposed
    · exact h.proposed r rnd' hget
  decision r rnd' v hget hv := by
    change (p.rounds.set roundId rnd).get? r = some rnd' at hget
    rw [Dict.get?_set] at hget
    split at hget
    · next heq =>
      cases hget
      exact heq ▸ hdecision v hv
    · exact h.decision r rnd' v hget hv
  decided := h.decided

theorem Within.setValue (h : p.Within P) {roundId : Nat} {value : α}
    (hvalue : P roundId value) :
    Within P ⟨p.roundCounter, p.rounds, p.decidedValues.set roundId value⟩ where
  proposed := h.proposed
  decision := h.decision
  decided r v hget := by
    change (p.decidedValues.set roundId value).get? r = some v at hget
    rw [Dict.get?_set] at hget
    split at hget
    · next heq =>
      cases hget
      exact heq ▸ hvalue
    · exact h.decided r v hget

theorem Within.openRound (h : p.Within P) {value : α}
    (hvalue : P (p.roundCounter + 1) value) : (p.openRound value).Within P :=
  h.setRound ⟨value, .empty, false, none⟩ hvalue (by simp) (p.roundCounter + 1)

theorem Within.conclude (h : p.Within P) {roundId : Nat}
    {rnd : ConsensusRound α} {value : α}
    (hproposed : P roundId rnd.proposedValue) (hvalue : P roundId value) :
    (p.conclude roundId rnd value).Within P := by
  have hround : Within P ⟨p.roundCounter, p.rounds.set roundId
      { rnd with decided := true, decision := some value },
      p.decidedValues⟩ := by
    apply h.setRound { rnd with decided := true, decision := some value }
      hproposed
    rintro v hv
    cases hv
    exact hvalue
  exact hround.setValue hvalue

theorem Within.closeRound (h : p.Within P) {p' : ConsensusProtocol α}
    {roundId : Nat} {value : α} (hvalue : P roundId value)
    {alive : List NodeId} {own result : Option α}
    (hclose : p.closeRound roundId value alive = some (p', own, result)) :
    p'.Within P ∧ (∀ v, own = some v → P roundId v) ∧
      ∀ v, result = some v → P roundId v := by
  unfold ConsensusProtocol.closeRound at hclose
  split at hclose
  · cases hclose
  · next rnd hget =>
    split at hclose
    · cases hclose
      refine ⟨h, by simp, fun v hv => h.decision roundId rnd v hget hv⟩
    · split at hclose
      · cases hclose
        have hsome : ∀ v, some value = some v → P roundId v := by
          rintro v hv
          cases hv
          exact hvalue
        exact ⟨h.conclude (h.proposed roundId rnd hget) hvalue, hsome, hsome⟩
      · cases hclose
        exact ⟨h, by simp, by simp⟩

theorem Within.handleVote (h : p.Within P) (sender : NodeId) (roundId : Nat)
    (accepted : Bool) (alive : List NodeId) :
    (p.handleVote sender roundId accepted alive).1.Within P ∧
      ∀ v, (p.handleVote sender roundId accepted alive).2 = some v →
        P roundId v := by
  unfold ConsensusProtocol.handleVote
  split
  · exact ⟨h, by simp⟩
  · next rnd hget =>
    have hproposed := h.proposed roundId rnd hget
    split
    · exact ⟨h, by simp⟩
    · dsimp only
      split
      · refine ⟨h.conclude hproposed hproposed, ?_⟩
        rintro v hv
        cases hv
        exact hproposed
      · refine ⟨?_, by simp⟩
        exact h.setRound { rnd with votes := rnd.votes.set sender accepted }
          hproposed (fun v hv => h.decision roundId rnd v hget hv)
          p.roundCounter

theorem Within.handleDecide (h : p.Within P) {roundId : Nat} {value : α}
    (hvalue : P roundId value) : (p.handleDecide roundId value).Within P := by
  unfold ConsensusProtocol.handleDecide
  split
  · exact h.setValue hvalue
  · next rnd hget => exact h.conclude (h.proposed roundId rnd hget) hvalue

end Within

end ConsensusProtocol

namespace ConsensusSystem

/-! ## Validity -/

/-- Some node has passed the value to `propose` as its round of this number. -/
def Proposed (s : ConsensusSystem α) (roundId : Nat) (value : α) : Prop :=
  ∃ m, ∃ c ∈ s.calls m, c.roundId = roundId ∧ c.value = value

structure Valid (s : ConsensusSystem α) : Prop where
  node : ∀ n, (s.node n).Within s.Proposed
  announced : ∀ r v, s.Announced r v → s.Proposed r v
  results : ∀ n, ∀ c ∈ s.calls n, ∀ v, c.phase = .done (some v) →
    s.Proposed c.roundId v

section Step

variable {s s' : ConsensusSystem α} {a : ConsensusAction α}

theorem valid_new : (new : ConsensusSystem α).Valid where
  node _ := ConsensusProtocol.within_new
  announced r v h := by
    obtain ⟨packet, hmem, -⟩ := h
    cases hmem
  results n c hc := by cases hc

theorem proposed_setCall {n : NodeId} {call : Nat} {c c' : ProposeCall α}
    (hcall : (s.calls n)[call]? = some c) (hround : c'.roundId = c.roundId)
    (hvalue : c'.value = c.value) {r : Nat} {v : α} (h : s.Proposed r v) :
    (s.setCall n call c').Proposed r v := by
  obtain ⟨m, d, hd, rfl, rfl⟩ := h
  by_cases hm : m = n
  · subst hm
    obtain ⟨i, hi⟩ := List.mem_iff_getElem?.mp hd
    have hcalls : (s.setCall m call c').calls m = (s.calls m).set call c' :=
      Function.update_self _ _ _
    by_cases hindex : call = i
    · subst hindex
      obtain rfl := Option.some.inj (hcall.symm.trans hi)
      refine ⟨m, c', ?_, hround, hvalue⟩
      rw [hcalls]
      exact List.mem_set (List.getElem?_eq_some_iff.mp hcall).1 c'
    · refine ⟨m, d, ?_, rfl, rfl⟩
      rw [hcalls, List.mem_iff_getElem?]
      exact ⟨i, by rw [List.getElem?_set_ne hindex, hi]⟩
  · refine ⟨m, d, ?_, rfl, rfl⟩
    change d ∈ Function.update s.calls n _ m
    rwa [Function.update_of_ne hm]

theorem mem_setCall {n m : NodeId} {call : Nat} {c d : ProposeCall α}
    (h : d ∈ (s.setCall n call c).calls m) : d ∈ s.calls m ∨ d = c := by
  change d ∈ Function.update s.calls n _ m at h
  by_cases hm : m = n
  · subst hm
    rw [Function.update_self] at h
    exact List.mem_or_eq_of_mem_set h
  · rw [Function.update_of_ne hm] at h
    exact .inl h

theorem setNode_within {P : Nat → α → Prop} (h : ∀ q, (s.node q).Within P)
    {n : NodeId} {p : ConsensusProtocol α} (hp : p.Within P) (q : NodeId) :
    ((s.setNode n p).node q).Within P := by
  by_cases hq : q = n
  · subst hq
    rwa [setNode_here]
  · rw [setNode_elsewhere s hq]
    exact h q

theorem Valid.announce (h : s.Valid) {n : NodeId} {roundId : Nat}
    {p : ConsensusProtocol α} (hp : p.Within s.Proposed) {own : Option α}
    (hown : ∀ v, own = some v → s.Proposed roundId v) (alive : List NodeId) :
    ((s.setNode n p).announce n roundId alive own).Valid := by
  cases own with
  | none =>
      exact ⟨setNode_within h.node hp, h.announced, h.results⟩
  | some value =>
      refine ⟨setNode_within h.node hp, fun r v hr => ?_, h.results⟩
      rcases announced_announce hr with hr | ⟨rfl, rfl⟩
      · exact h.announced r v hr
      · exact hown v rfl

theorem Valid.setCall (h : s.Valid) {n : NodeId} {call : Nat}
    {c c' : ProposeCall α} (hcall : (s.calls n)[call]? = some c)
    (hround : c'.roundId = c.roundId) (hvalue : c'.value = c.value)
    (hresult : ∀ v, c'.phase = .done (some v) → s.Proposed c'.roundId v) :
    (s.setCall n call c').Valid := by
  have hmono (r : Nat) (v : α) (hr : s.Proposed r v) :
      (s.setCall n call c').Proposed r v :=
    proposed_setCall hcall hround hvalue hr
  refine ⟨fun q => (h.node q).mono hmono, fun r v hr => ?_,
    fun m d hd v hv => ?_⟩
  · exact hmono r v (h.announced r v hr)
  · rcases mem_setCall hd with hd | rfl
    · exact hmono _ _ (h.results m d hd v hv)
    · exact hmono _ _ (hresult v hv)

theorem Valid.send (h : s.Valid) (packet : ConsensusPacket α)
    (hpacket : ∀ r v, packet.msg ≠ .decide r v) :
    Valid { s with network := s.network ++ [packet] } :=
  ⟨h.node, fun r v hr => h.announced r v (announced_append rfl hpacket hr),
    h.results⟩

theorem Valid.handle (h : s.Valid) (alive : List NodeId)
    {content : ConsensusPacket α} (hmem : content ∈ s.network) :
    (s.handle alive content).Valid := by
  obtain ⟨sender, n, msg⟩ := content
  cases msg with
  | propose roundId value => exact h.send _ (by simp)
  | voteAccept roundId =>
      obtain ⟨hp, hown⟩ := (h.node n).handleVote sender roundId true alive
      exact h.announce hp hown alive
  | voteReject roundId =>
      obtain ⟨hp, hown⟩ := (h.node n).handleVote sender roundId false alive
      exact h.announce hp hown alive
  | decide roundId value =>
      have hproposed := h.announced roundId value ⟨_, hmem, rfl⟩
      exact ⟨setNode_within h.node ((h.node n).handleDecide hproposed),
        h.announced, h.results⟩

theorem Valid.step (h : s.Valid) (hstep : s.step a = some s') : s'.Valid := by
  cases step_cases hstep with
  | propose n value =>
      have hmono (r : Nat) (v : α) (hr : s.Proposed r v) :
          Proposed { s with
            calls := Function.update s.calls n (s.calls n ++
              [⟨(s.node n).roundCounter + 1, value, .opened⟩]) } r v := by
        obtain ⟨m, c, hc, rfl, rfl⟩ := hr
        refine ⟨m, c, ?_, rfl, rfl⟩
        by_cases hm : m = n
        · subst hm
          simp [hc]
        · simpa [hm] using hc
      refine ⟨setNode_within (fun q => (h.node q).mono hmono) ?_, ?_, ?_⟩
      · apply ((h.node n).mono hmono).openRound
        exact ⟨n, ⟨_, value, .opened⟩, by simp, rfl, rfl⟩
      · exact fun r v hr => hmono r v (h.announced r v hr)
      · intro m c hc v hv
        by_cases hm : m = n
        · subst hm
          change c ∈ Function.update s.calls m _ m at hc
          rw [Function.update_self] at hc
          rcases List.mem_append.mp hc with hc | hc
          · exact hmono _ _ (h.results m c hc v hv)
          · rw [List.mem_singleton.mp hc] at hv
            cases hv
        · change c ∈ Function.update s.calls n _ m at hc
          rw [Function.update_of_ne hm] at hc
          exact hmono _ _ (h.results m c hc v hv)
  | readAlive hnodup hcall => exact h.setCall hcall rfl rfl (by simp)
  | @sendPropose n call roundId value target alive unsent hcall =>
      have hset : (s.setCall n call
          ⟨roundId, value, .sending alive unsent⟩).Valid :=
        h.setCall hcall rfl rfl (by simp)
      exact hset.send ⟨n, target, .propose roundId value⟩ (by simp)
  | @close n call roundId value alive p own result hcall hclose =>
      have hproposed : s.Proposed roundId value :=
        ⟨n, _, List.mem_of_getElem? hcall, rfl, rfl⟩
      obtain ⟨hp, hown, hresult⟩ := (h.node n).closeRound hproposed hclose
      have hmono (r : Nat) (v : α) (hr : s.Proposed r v) :
          (s.setCall n call ⟨roundId, value, .done result⟩).Proposed r v := by
        apply proposed_setCall hcall _ _ hr <;> rfl
      have hset : (s.setCall n call ⟨roundId, value, .done result⟩).Valid :=
        h.setCall hcall rfl rfl (by
          rintro v hv
          cases hv
          exact hresult v rfl)
      exact hset.announce (hp.mono hmono)
        (fun v hv => hmono roundId v (hown v hv)) alive
  | deliver hnodup hpacket =>
      exact h.handle _ (List.mem_of_getElem? hpacket)
  | undecided => exact h
  | answered => exact ⟨h.node, h.announced, h.results⟩

end Step

/-! ## Integrity -/

end ConsensusSystem

def ConsensusPacket.decideKey :
    ConsensusPacket α → Option (NodeId × NodeId × Nat)
  | ⟨sender, target, .decide roundId _⟩ => some (sender, target, roundId)
  | _ => none

namespace ConsensusSystem

/-- The DECIDE messages sent so far. -/
def decides (s : ConsensusSystem α) : List (NodeId × NodeId × Nat) :=
  s.network.filterMap ConsensusPacket.decideKey

/-- No node has carried two values in a round or sent a target two DECIDE
messages for it. -/
structure Once (s : ConsensusSystem α) : Prop where
  chosen : (s.chosen.map fun c => (c.1, c.2.1)).Nodup
  decides : s.decides.Nodup
  source : ∀ n q r, (n, q, r) ∈ s.decides → ∃ v, (n, r, v) ∈ s.chosen
  alive : ∀ n, ∀ c ∈ s.calls n, ∀ alive unsent,
    c.phase = .sending alive unsent → alive.Nodup

section Step

variable {s s' : ConsensusSystem α} {a : ConsensusAction α}

private theorem once_new : (new : ConsensusSystem α).Once where
  chosen := List.nodup_nil
  decides := List.nodup_nil
  source n q r h := by cases h
  alive n c hc := by cases hc

theorem Once.setCall (h : s.Once) {n : NodeId} {call : Nat}
    {c : ProposeCall α} (halive : ∀ alive unsent,
      c.phase = .sending alive unsent → alive.Nodup) :
    (s.setCall n call c).Once := by
  refine ⟨h.chosen, h.decides, h.source, fun m d hd alive unsent hphase => ?_⟩
  rcases mem_setCall hd with hd | rfl
  · exact h.alive m d hd alive unsent hphase
  · exact halive alive unsent hphase

theorem Once.send (h : s.Once) (packet : ConsensusPacket α)
    (hpacket : packet.decideKey = none) :
    Once { s with network := s.network ++ [packet] } := by
  have hsame : ConsensusSystem.decides
      { s with network := s.network ++ [packet] } = s.decides := by
    simp [ConsensusSystem.decides, List.filterMap_append, hpacket]
  exact ⟨h.chosen, hsame ▸ h.decides, hsame ▸ h.source, h.alive⟩

theorem Once.announce (hinv : s.Inv) (h : s.Once) {n : NodeId}
    {roundId : Nat} {p : ConsensusProtocol α} {own : Option α}
    (hcounts : (s.node n).Counts p roundId own) {alive : List NodeId}
    (halive : alive.Nodup) :
    ((s.setNode n p).announce n roundId alive own).Once := by
  cases hcounts with
  | nothing keeps => exact ⟨h.chosen, h.decides, h.source, h.alive⟩
  | carries value undecided stores closed =>
      have hfresh (v : α) : (n, roundId, v) ∉ s.chosen :=
        fun hmem => undecided (hinv.closed n roundId v hmem)
      have hsent : ConsensusSystem.decides
          ((s.setNode n p).announce n roundId alive (some value)) =
            s.decides ++ alive.map fun q => (n, q, roundId) := by
        have hnew : (alive.map fun target =>
              (⟨n, target, .decide roundId value⟩ : ConsensusPacket α)).filterMap
                ConsensusPacket.decideKey =
            alive.map fun q => (n, q, roundId) := by
          rw [List.filterMap_map]
          exact congrFun (List.filterMap_eq_map
            (f := fun q : NodeId => (n, q, roundId))) alive
        rw [ConsensusSystem.decides, ConsensusSystem.announce,
          List.filterMap_append, hnew]
        rfl
      refine ⟨?_, ?_, fun m q r hmem => ?_, h.alive⟩
      · change (List.map _ (s.chosen ++ [(n, roundId, value)])).Nodup
        rw [List.map_append, List.nodup_append]
        refine ⟨h.chosen, by simp, ?_⟩
        rintro _ hold _ hnew rfl
        obtain ⟨⟨m, r, v⟩, hmem, heq⟩ := List.mem_map.mp hold
        simp only [List.map_cons, List.map_nil, List.mem_singleton] at hnew
        rw [hnew] at heq
        cases heq
        exact hfresh v hmem
      · rw [hsent, List.nodup_append]
        refine ⟨h.decides, halive.map fun q q' heq => ?_, ?_⟩
        · cases heq
          rfl
        · rintro _ hold _ hnew rfl
          obtain ⟨q, -, rfl⟩ := List.mem_map.mp hnew
          obtain ⟨v, hv⟩ := h.source n q roundId hold
          exact hfresh v hv
      · rw [hsent] at hmem
        rcases List.mem_append.mp hmem with hmem | hmem
        · obtain ⟨v, hv⟩ := h.source m q r hmem
          exact ⟨v, List.mem_append_left _ hv⟩
        · obtain ⟨q', -, heq⟩ := List.mem_map.mp hmem
          cases heq
          exact ⟨value, List.mem_append_right _ (by simp)⟩

theorem Once.handle (hinv : s.Inv) (h : s.Once) {alive : List NodeId}
    (halive : alive.Nodup) (content : ConsensusPacket α) :
    (s.handle alive content).Once := by
  obtain ⟨sender, n, msg⟩ := content
  cases msg with
  | propose roundId value => exact h.send ⟨n, sender, .voteAccept roundId⟩ rfl
  | voteAccept roundId =>
      have hcounts := ((s.node n).handleVote_spec (hinv.bounded n) sender
        roundId true alive).2
      exact h.announce hinv hcounts halive
  | voteReject roundId =>
      have hcounts := ((s.node n).handleVote_spec (hinv.bounded n) sender
        roundId false alive).2
      exact h.announce hinv hcounts halive
  | decide roundId value => exact ⟨h.chosen, h.decides, h.source, h.alive⟩

theorem Once.step (hinv : s.Inv) (h : s.Once) (hstep : s.step a = some s') :
    s'.Once := by
  cases step_cases hstep with
  | propose n value =>
      refine ⟨h.chosen, h.decides, h.source, fun m c hc alive unsent hphase => ?_⟩
      change c ∈ Function.update s.calls n _ m at hc
      by_cases hm : m = n
      · subst hm
        rw [Function.update_self] at hc
        rcases List.mem_append.mp hc with hc | hc
        · exact h.alive m c hc alive unsent hphase
        · rw [List.mem_singleton.mp hc] at hphase
          cases hphase
      · rw [Function.update_of_ne hm] at hc
        exact h.alive m c hc alive unsent hphase
  | readAlive hnodup hcall =>
      apply h.setCall
      rintro alive' unsent hphase
      cases hphase
      exact hnodup
  | @sendPropose n call roundId value target alive unsent hcall =>
      have hset : (s.setCall n call
          ⟨roundId, value, .sending alive unsent⟩).Once := by
        apply h.setCall
        rintro alive' unsent' hphase
        cases hphase
        exact h.alive n _ (List.mem_of_getElem? hcall) alive _ rfl
      exact hset.send ⟨n, target, .propose roundId value⟩ rfl
  | @close n call roundId value alive p own result hcall hclose =>
      have hnodup := h.alive n _ (List.mem_of_getElem? hcall) alive [] rfl
      have hcounts :=
        (ConsensusProtocol.closeRound_spec (hinv.bounded n) hclose).2
      have hset : (s.setCall n call ⟨roundId, value, .done result⟩).Once :=
        h.setCall (by simp)
      have hinv' : (s.setCall n call ⟨roundId, value, .done result⟩).Inv :=
        ⟨hinv.bounded, hinv.closed, hinv.stored, hinv.announced⟩
      exact hset.announce hinv' hcounts hnodup
  | deliver hnodup hpacket => exact h.handle hinv hnodup _
  | undecided => exact h
  | answered => exact ⟨h.chosen, h.decides, h.source, h.alive⟩

end Step

/--
In every run a value that a node has stored for a round, in its decided values or
in the round itself, was passed to `propose` by some node as its round of that
number, and so was every value that `propose` has returned for a round.  No node
decides a round of its own by counting votes twice, and none sends a target two
DECIDE messages for one round.
-/
theorem run_consensusValidity {actions : List (ConsensusAction α)}
    {s : ConsensusSystem α} (hrun : run step new actions = some s) :
    (∀ n r v, (s.node n).decidedValues.get? r = some v → s.Proposed r v) ∧
      (∀ n r rnd v, (s.node n).rounds.get? r = some rnd →
        rnd.decision = some v → s.Proposed r v) ∧
      (∀ n, ∀ c ∈ s.calls n, ∀ v, c.phase = .done (some v) →
        s.Proposed c.roundId v) ∧
      (s.chosen.map fun c => (c.1, c.2.1)).Nodup ∧ s.decides.Nodup := by
  have hvalid : s.Valid := run_preserves (fun _ _ _ h hs => h.step hs)
    valid_new hrun
  have honce : s.Inv ∧ s.Once :=
    run_preserves (I := fun s : ConsensusSystem α => s.Inv ∧ s.Once)
      (fun _ _ _ h hs => ⟨h.1.step hs, h.2.step h.1 hs⟩)
      ⟨inv_new, once_new⟩ hrun
  exact ⟨fun n => (hvalid.node n).decided, fun n => (hvalid.node n).decision,
    hvalid.results, honce.2.chosen, honce.2.decides⟩

/-- Two leaders open their round 1 one after the other; the first one counts its
majority when its wait ends, and its DECIDE closes the round of the second. -/
def twoLeaders : List (ConsensusAction String) :=
  [.propose 0 "a", .propose 3 "b", .readAlive 0 0 [1, 3], .readAlive 3 0 [0],
    .sendPropose 0 0, .sendPropose 0 0, .sendPropose 3 0, .deliver 0 [],
    .deliver 3 [1], .close 0 0, .deliver 3 [1, 3], .deliver 4 [], .close 3 0]

theorem twoLeaders_validity :
    ∃ s, run step new twoLeaders = some s ∧
      (∀ n r v, (s.node n).decidedValues.get? r = some v → s.Proposed r v) ∧
      (∀ n r rnd v, (s.node n).rounds.get? r = some rnd →
        rnd.decision = some v → s.Proposed r v) ∧
      (∀ n, ∀ c ∈ s.calls n, ∀ v, c.phase = .done (some v) →
        s.Proposed c.roundId v) ∧
      (s.chosen.map fun c => (c.1, c.2.1)).Nodup ∧ s.decides.Nodup := by
  have hruns : (run step new twoLeaders).isSome = true := by
    decide +kernel
  obtain ⟨s, hrun⟩ := Option.isSome_iff_exists.mp hruns
  exact ⟨s, hrun, run_consensusValidity hrun⟩

end ConsensusSystem

end DistributedMemory.Consensus
