import DistributedMemory.Commit.InDoubt
import DistributedMemory.Library.Budget

/-!
# What `coordinate_commit` returns, and what it costs

A call ends when every participant has acknowledged the decision, or when the attempts
are used up.  Then its transaction is taken out of all tables, and the caller learns
whether the decision was to commit.

`returned` is not a field of the source.  It lists the calls that have returned, each
with its decision and the acknowledgements it saw last.
-/

namespace DistributedMemory.Commit

open DistributedMemory.Library DistributedMemory.Network
open DistributedMemory.Recovery DistributedMemory.Storage

/-- The call returns `True` when `decision` is to commit. -/
structure ReturnedCall where
  txnId : TxnId
  decision : Decision
  acks : Finset NodeId
  deriving DecidableEq

def TwoPhaseCoordinator.returning (c : TwoPhaseCoordinator) :
    TwoPhaseAction → Option ReturnedCall
  | .advance t _ =>
      match c.calls.get? t with
      | some ⟨participants, .announcing d attempt []⟩ =>
          let acks := (c.acks.get? t).getD ∅
          if participants.length ≤ acks.card ∨ c.ackRetries ≤ attempt then
            some ⟨t, d, acks⟩
          else none
      | _ => none
  | _ => none

/-- Steps of the call for `t`. -/
def TwoPhaseAction.worksOn (t : TxnId) : TwoPhaseAction → Bool
  | .advance u _ => u = t
  | _ => false

theorem TwoPhaseAction.worksOn_iff {t : TxnId} {a : TwoPhaseAction} :
    a.worksOn t = true ↔ ∃ order, a = .advance t order := by
  cases a <;> simp [TwoPhaseAction.worksOn]

/-- The tables of votes and acknowledgements are those of the running calls. -/
def TwoPhaseCoordinator.Cleared (c : TwoPhaseCoordinator) : Prop :=
  ∀ t, c.calls.get? t = none → c.votes.get? t = none ∧ c.acks.get? t = none

structure ReturnSystem where
  system : TwoPhaseSystem
  returned : List ReturnedCall

namespace ReturnSystem

def new (ackRetries : Nat) (managers : NodeId → TransactionManager) :
    ReturnSystem :=
  ⟨.new (some .new) ackRetries managers, []⟩

def step (r : ReturnSystem) (a : TwoPhaseAction) : Option ReturnSystem :=
  (r.system.step a).map fun system =>
    ⟨system, r.returned ++ (r.system.coordinator.returning a).toList⟩

def WellUsed (r : ReturnSystem) (a : TwoPhaseAction) : Prop :=
  r.system.WellUsed a

instance (r : ReturnSystem) (a : TwoPhaseAction) : Decidable (r.WellUsed a) :=
  inferInstanceAs (Decidable (r.system.WellUsed a))

end ReturnSystem

namespace TwoPhaseSystem

def announced (s : TwoPhaseSystem) (n : NodeId) (t : TxnId) (d : Decision) : Nat :=
  s.network.count (n, .decision t d)

/-- What the calls of `coordinate_commit` have left behind at each attempt: whoever has
not acknowledged was sent the decision in every attempt so far. -/
def Insists (s : TwoPhaseSystem) (t : TxnId) (call : Coordination) : Prop :=
  match call.phase with
  | .announcing d attempt targets =>
      attempt ≤ s.coordinator.ackRetries ∧ targets.Nodup ∧
        ∀ n ∈ call.participants, n ∉ (s.coordinator.acks.get? t).getD ∅ →
          s.announced n t d + (if n ∈ targets then 1 else 0) = attempt + 1
  | _ => True

end TwoPhaseSystem

namespace ReturnSystem

/-- What holds of the calls that have returned, and of those that run. -/
structure Returns (r : ReturnSystem) : Prop where
  once : (r.returned.map ReturnedCall.txnId).Nodup
  ended : ∀ c ∈ r.returned, r.system.coordinator.calls.get? c.txnId = none
  cleared : r.system.coordinator.Cleared
  decided : ∀ c ∈ r.returned, r.system.Decided c.txnId c.decision ∧
    (c.decision = .commit → r.system.Agreed c.txnId)
  acknowledged : ∀ c ∈ r.returned, ∀ n ∈ c.acks,
    n ∈ r.system.participantsOf c.txnId ∧ (n, c.txnId) ∈ r.system.handled
  insisted : ∀ c ∈ r.returned, ∀ n ∈ r.system.participantsOf c.txnId, n ∉ c.acks →
    r.system.announced n c.txnId c.decision = r.system.coordinator.ackRetries + 1

structure Inv (r : ReturnSystem) : Prop where
  system : r.system.Inv
  sent : ∀ n t, (n, .ack t) ∈ r.system.network →
    n ∈ r.system.participantsOf t ∧ (n, t) ∈ r.system.handled
  acks : ∀ t, ∀ n ∈ (r.system.coordinator.acks.get? t).getD ∅,
    n ∈ r.system.participantsOf t ∧ (n, t) ∈ r.system.handled
  insists : ∀ t call, r.system.coordinator.calls.get? t = some call →
    r.system.Insists t call
  known : ∀ c ∈ r.returned, r.system.coordinated c.txnId ≠ none
  returns : r.Returns

end ReturnSystem

/-! ## The tables -/

namespace TwoPhaseCoordinator

variable {c c' : TwoPhaseCoordinator} {t : TxnId}

theorem Cleared.frame (h : c.Cleared) (hcalls : c'.calls = c.calls)
    (hvotes : c'.votes = c.votes) (hacks : c'.acks = c.acks) : c'.Cleared := by
  rw [Cleared, hcalls, hvotes, hacks]
  exact h

theorem Cleared.setPhase (h : c.Cleared) (call : Coordination) (phase : CallPhase) :
    (c.setPhase t call phase).Cleared := by
  intro u hu
  rw [TwoPhaseCoordinator.setPhase, Dict.get?_set] at hu
  split at hu
  · cases hu
  · exact h u hu

theorem Cleared.coordinateCommit (h : c.Cleared) (t : TxnId)
    (participants : List NodeId) : (c.coordinateCommit t participants).Cleared := by
  intro u hu
  simp only [TwoPhaseCoordinator.coordinateCommit, Dict.get?_set] at hu ⊢
  split at hu
  · cases hu
  · next hne =>
    rw [if_neg hne, if_neg hne]
    exact h u hu

theorem Cleared.finish (h : c.Cleared) (t : TxnId) : (c.finish t).Cleared := by
  intro u hu
  simp only [TwoPhaseCoordinator.finish, Dict.get?_pop] at hu ⊢
  split
  · exact ⟨rfl, rfl⟩
  · next hne => exact h u (by simpa [hne] using hu)

theorem Cleared.advance (h : c.Cleared) (call : Coordination)
    (order : List NodeId) : (c.advance t call order).1.Cleared := by
  unfold TwoPhaseCoordinator.advance
  split
  · exact Cleared.setPhase (c := c.log (·.logPrepare t)) h call _
  · exact h.setPhase call _
  · exact h.setPhase call _
  · next d hphase =>
    exact Cleared.setPhase (c := c.log (d.record t)) h call _
  · exact h.setPhase call _
  · dsimp only
    split
    · exact h.finish t
    · exact h.setPhase call _

theorem Cleared.handleVote (h : c.Cleared) (t : TxnId) (n : NodeId) (v : Vote) :
    (c.handleVote t n v).Cleared := by
  unfold TwoPhaseCoordinator.handleVote
  split
  · next votes hvotes =>
    intro u hu
    obtain ⟨hnone, hacks⟩ := h u hu
    refine ⟨?_, hacks⟩
    rw [Dict.get?_set_ne _ _ (by rintro rfl; simp [hvotes] at hnone)]
    exact hnone
  · exact h

theorem Cleared.handleAck (h : c.Cleared) (t : TxnId) (n : NodeId) :
    (c.handleAck t n).Cleared := by
  unfold TwoPhaseCoordinator.handleAck
  split
  · next acks hacks =>
    intro u hu
    obtain ⟨hvotes, hnone⟩ := h u hu
    refine ⟨hvotes, ?_⟩
    rw [Dict.get?_set_ne _ _ (by rintro rfl; simp [hacks] at hnone)]
    exact hnone
  · exact h

end TwoPhaseCoordinator

namespace TwoPhaseSystem

variable {s s' : TwoPhaseSystem} {a : TwoPhaseAction} {t : TxnId} {n : NodeId}

private theorem cleared_step (h : s.coordinator.Cleared) (hstep : s.step a = some s') :
    s'.coordinator.Cleared := by
  cases a with
  | coordinate u participants =>
      cases hstep
      exact h.coordinateCommit u participants
  | advance u order =>
      obtain ⟨call, -, -, rfl⟩ := step_advance hstep
      exact h.advance call order
  | vote m u v =>
      simp only [step] at hstep
      split at hstep <;> cases hstep
      exact h.handleVote u m v
  | ack m u =>
      simp only [step] at hstep
      split at hstep <;> cases hstep
      exact h.handleAck u m
  | prepare | decision | record | recovered =>
      simp only [step] at hstep
      split at hstep <;> cases hstep
      exact h.frame rfl rfl rfl
  | manager m b =>
      obtain ⟨manager, hmanager, rfl⟩ := Option.map_eq_some_iff.mp hstep
      exact h.frame rfl rfl rfl
  | recoverNext u =>
      simp only [step] at hstep
      split at hstep
      · split at hstep <;> cases hstep
        exact h.frame rfl rfl rfl
      · cases hstep
  | crash =>
      cases hstep
      exact fun u _ => ⟨rfl, rfl⟩
  | recoverPending =>
      cases hstep
      exact h.frame rfl rfl rfl

/-! ## What a step leaves -/

private theorem handled_step (hstep : s.step a = some s') {x : NodeId × TxnId}
    (hx : x ∈ s.handled) : x ∈ s'.handled := by
  cases step_participates hstep with
  | silent _ _ handled => rwa [handled]
  | voted _ _ _ _ handled => rwa [handled]
  | decided _ _ _ _ _ _ _ handled =>
      rw [handled]
      exact List.mem_append_left _ hx
  | moved _ _ _ _ _ handled => rwa [handled]

theorem mem_participants_step (hused : s.WellUsed a) (hstep : s.step a = some s')
    (hn : n ∈ s.participantsOf t) : n ∈ s'.participantsOf t := by
  rcases participants_step hused hstep with ⟨_, -, hnone⟩ | hsame
  · rw [hnone] at hn
    cases hn
  · rwa [hsame]

theorem ackRetries_step (hstep : s.step a = some s') :
    s'.coordinator.ackRetries = s.coordinator.ackRetries := by
  cases step_coordinates hstep with
  | kept _ _ _ ackRetries => exact ackRetries
  | called _ _ coordinator =>
      rw [coordinator]
      rfl
  | advanced u order call _ _ coordinator =>
      rw [coordinator]
      unfold TwoPhaseCoordinator.advance
      split
      · rfl
      · rfl
      · rfl
      · rfl
      · rfl
      · dsimp only
        split <;> rfl
  | counted m u coordinator =>
      rw [coordinator]
      unfold TwoPhaseCoordinator.handleAck
      split <;> rfl
  | voted _ _ _ _ coordinator => rw [coordinator]
  | acknowledged _ _ _ _ _ coordinator => rw [coordinator]
  | crashed coordinator =>
      rw [coordinator]
      rfl

theorem network_step (hstep : s.step a = some s') (hother : a.worksOn t = false) :
    ∃ sent, s'.network = s.network ++ sent ∧
      ∀ p ∈ sent, p.2 ≠ .prepare t ∧ ∀ d, p.2 ≠ .decision t d := by
  cases step_coordinates hstep with
  | advanced u order call running lists coordinator coordinated network =>
      have hu : u ≠ t := of_decide_eq_false hother
      refine ⟨_, network, fun p hp => ?_⟩
      rcases s.coordinator.advance_sent hp with hmsg | ⟨d, hmsg⟩
      · simp [hmsg, hu]
      · simp [hmsg, hu]
  | voted m u canCommit v coordinator coordinated network =>
      exact ⟨_, network, by simp⟩
  | acknowledged m u d' order sent coordinator coordinated network =>
      exact ⟨_, network, by simp⟩
  | kept _ _ _ _ _ network => exact ⟨[], by simp [network], by simp⟩
  | called _ _ _ _ network => exact ⟨[], by simp [network], by simp⟩
  | counted _ _ _ _ network => exact ⟨[], by simp [network], by simp⟩
  | crashed _ _ network => exact ⟨[], by simp [network], by simp⟩

theorem announced_step (hstep : s.step a = some s') (hother : a.worksOn t = false)
    (n : NodeId) (d : Decision) : s'.announced n t d = s.announced n t d := by
  obtain ⟨sent, hnetwork, hsent⟩ := network_step hstep hother
  have hunsent : (n, TwoPhaseMsg.decision t d) ∉ sent :=
    fun hmem => (hsent _ hmem).2 d rfl
  rw [announced, hnetwork, List.count_append, List.count_eq_zero.mpr hunsent]
  rfl

theorem call_kept (hstep : s.step a = some s') (hother : a.worksOn t = false)
    {call : Coordination} (hcall : s'.coordinator.calls.get? t = some call) :
    (∃ participants, a = .coordinate t participants ∧
        call = ⟨participants, .started⟩) ∨
      (s.coordinator.calls.get? t = some call ∧
        (s.coordinator.acks.get? t).getD ∅ ⊆
          (s'.coordinator.acks.get? t).getD ∅) := by
  cases step_coordinates hstep with
  | kept _ calls acks =>
      rw [calls] at hcall
      rw [acks]
      exact .inr ⟨hcall, subset_rfl⟩
  | called u participants coordinator =>
      rw [coordinator] at hcall ⊢
      by_cases hu : t = u
      · subst hu
        have heq := (Dict.get?_set_self _ _ _).symm.trans hcall
        exact .inl ⟨participants, rfl, (Option.some.inj heq).symm⟩
      · right
        refine ⟨(Dict.get?_set_ne _ _ hu).symm.trans hcall, ?_⟩
        rw [TwoPhaseCoordinator.coordinateCommit, Dict.get?_set_ne _ _ hu]
  | advanced u order call' running lists coordinator =>
      have hu : t ≠ u := Ne.symm (of_decide_eq_false hother)
      obtain ⟨hcalls, hacks, -⟩ := s.coordinator.advance_frame hu call' order
      rw [coordinator, hcalls] at hcall
      rw [coordinator, hacks]
      exact .inr ⟨hcall, subset_rfl⟩
  | counted m u coordinator =>
      right
      rw [coordinator, TwoPhaseCoordinator.handleAck] at hcall ⊢
      split at hcall
      · next acks hacks =>
        refine ⟨hcall, fun n hn => ?_⟩
        change n ∈ ((s.coordinator.acks.set u (insert m acks)).get? t).getD ∅
        rw [Dict.get?_set]
        split
        · next hu =>
          rw [hu, hacks] at hn
          exact Finset.mem_insert_of_mem hn
        · exact hn
      · exact ⟨hcall, subset_rfl⟩
  | voted _ _ _ _ coordinator =>
      rw [coordinator] at hcall ⊢
      exact .inr ⟨hcall, subset_rfl⟩
  | acknowledged _ _ _ _ _ coordinator =>
      rw [coordinator] at hcall ⊢
      exact .inr ⟨hcall, subset_rfl⟩
  | crashed coordinator =>
      rw [coordinator] at hcall
      cases hcall

private theorem calls_none_step (hstep : s.step a = some s')
    (hnone : s.coordinator.calls.get? t = none)
    (hother : ∀ participants, a ≠ .coordinate t participants) :
    s'.coordinator.calls.get? t = none := by
  have hadvance : a.worksOn t = false := by
    refine Bool.eq_false_iff.mpr fun hworks => ?_
    obtain ⟨order, rfl⟩ := TwoPhaseAction.worksOn_iff.mp hworks
    obtain ⟨call, hcall, -⟩ := step_advance hstep
    rw [hnone] at hcall
    cases hcall
  cases hcall : s'.coordinator.calls.get? t with
  | none => rfl
  | some call =>
      rcases call_kept hstep hadvance hcall with ⟨participants, rfl, -⟩ | ⟨hold, -⟩
      · exact absurd rfl (hother participants)
      · rw [hnone] at hold
        cases hold

/-! ## Every attempt reaches everybody who has not acknowledged -/

private theorem insists_other (hstep : s.step a = some s') (hother : a.worksOn t = false)
    (h : ∀ call, s.coordinator.calls.get? t = some call → s.Insists t call)
    {call : Coordination} (hcall : s'.coordinator.calls.get? t = some call) :
    s'.Insists t call := by
  rcases call_kept hstep hother hcall with ⟨participants, -, rfl⟩ | ⟨hold, hacks⟩
  · trivial
  · have hbefore := h call hold
    unfold Insists at hbefore ⊢
    split
    · next d attempt targets hphase =>
      rw [hphase] at hbefore
      obtain ⟨hattempt, hnodup, hcount⟩ := hbefore
      refine ⟨?_, hnodup, fun n hn hmissing => ?_⟩
      · rw [ackRetries_step hstep]
        exact hattempt
      · rw [announced_step hstep hother]
        exact hcount n hn fun hacked => hmissing (hacks hacked)
    · trivial

private theorem insists_advance {order : List NodeId} (hinv : s.Inv)
    (hstep : s.step (.advance t order) = some s')
    (h : ∀ call, s.coordinator.calls.get? t = some call → s.Insists t call)
    {call' : Coordination} (hcall' : s'.coordinator.calls.get? t = some call') :
    s'.Insists t call' := by
  obtain ⟨call, hcall, hlists, rfl⟩ := step_advance hstep
  have hbefore := h call hcall
  obtain ⟨hparticipants, -, hok⟩ := hinv.calls t call hcall
  have hset {c : TwoPhaseCoordinator} {phase : CallPhase}
      (heq : (c.setPhase t call phase).calls.get? t = some call') :
      call' = { call with phase := phase } :=
    (Option.some.inj ((Dict.get?_set_self _ _ _).symm.trans heq)).symm
  unfold Insists at hbefore
  unfold TwoPhaseCoordinator.advance at hcall' ⊢
  split at hcall'
  · rw [hset hcall']
    trivial
  · rw [hset hcall']
    trivial
  · rw [hset hcall']
    trivial
  · next d hphase =>
    rw [hphase] at hok
    rw [hset hcall']
    refine ⟨Nat.zero_le _, hinv.distinct t _ hparticipants, fun n hn _ => ?_⟩
    have hunsent : (n, TwoPhaseMsg.decision t d) ∉ s.network :=
      fun hmem => hok.1 d (hinv.network _ hmem).2
    rw [if_pos hn]
    simpa [announced, List.count_eq_zero] using hunsent
  · next d attempt m rest hphase =>
    rw [hphase] at hbefore
    obtain ⟨hattempt, hnodup, hcount⟩ := hbefore
    obtain ⟨hfresh, hrest⟩ := List.nodup_cons.mp hnodup
    rw [hset hcall']
    refine ⟨hattempt, hrest, fun n hn hmissing => ?_⟩
    have hbefore := hcount n hn hmissing
    change List.count _ (s.network ++ [(m, .decision t d)]) + _ = _
    rw [announced] at hbefore
    rw [List.count_append]
    by_cases hm : n = m
    · subst hm
      simp only [List.mem_cons, true_or, if_true, hfresh, if_false,
        List.count_singleton_self] at hbefore ⊢
      omega
    · simp only [List.mem_cons, hm, false_or] at hbefore
      have hnew : List.count (n, TwoPhaseMsg.decision t d)
          [(m, TwoPhaseMsg.decision t d)] = 0 := by
        rw [List.count_eq_zero]
        simp [hm]
      omega
  · next d attempt hphase =>
    rw [hphase] at hbefore
    obtain ⟨-, -, hcount⟩ := hbefore
    dsimp only at hcall' ⊢
    split at hcall'
    · rw [TwoPhaseCoordinator.finish, Dict.get?_pop, if_pos rfl] at hcall'
      cases hcall'
    · next hgoes =>
      rw [if_neg hgoes, hset hcall']
      have hleft : attempt + 1 ≤ s.coordinator.ackRetries := by omega
      refine ⟨hleft, hlists.1, fun n hn hmissing => ?_⟩
      change n ∉ (s.coordinator.acks.get? t).getD ∅ at hmissing
      have hbefore := hcount n hn hmissing
      rw [if_pos (hlists.mem_of_missing hn hmissing)]
      simpa [announced] using hbefore

theorem coordinated_step (hused : s.WellUsed a) (hstep : s.step a = some s')
    {participants : List NodeId} (h : s.coordinated t = some participants) :
    s'.coordinated t = some participants := by
  cases step_coordinates hstep with
  | called u participants' coordinator coordinated =>
      have hu : t ≠ u := by
        rintro rfl
        obtain ⟨hnone, -⟩ := hused
        rw [hnone] at h
        cases h
      rw [coordinated, Function.update_of_ne hu]
      exact h
  | kept _ _ _ _ coordinated => rwa [coordinated]
  | advanced _ _ _ _ _ _ coordinated => rwa [coordinated]
  | counted _ _ _ coordinated => rwa [coordinated]
  | voted _ _ _ _ _ coordinated => rwa [coordinated]
  | acknowledged _ _ _ _ _ _ coordinated => rwa [coordinated]
  | crashed _ coordinated => rwa [coordinated]

private theorem ack_step (hstep : s.step a = some s')
    (hack : (n, TwoPhaseMsg.ack t) ∈ s'.network) :
    (n, TwoPhaseMsg.ack t) ∈ s.network ∨ (n, t) ∈ s'.handled := by
  cases step_coordinates hstep with
  | advanced u order call running lists coordinator coordinated network =>
      rw [network] at hack
      refine (List.mem_append.mp hack).imp_right fun hmem => ?_
      rcases s.coordinator.advance_sent hmem with hmsg | ⟨d, hmsg⟩
      · cases hmsg
      · cases hmsg
  | voted m u canCommit v coordinator coordinated network =>
      rw [network] at hack
      left
      simpa using hack
  | acknowledged m u d order sent coordinator coordinated network =>
      rw [network] at hack
      refine (List.mem_append.mp hack).imp_right fun hmem => ?_
      cases List.mem_singleton.mp hmem
      cases step_participates hstep with
      | silent _ same handled =>
          simp only [step] at hstep
          split at hstep <;> cases hstep
          simp
      | decided _ _ _ _ _ _ _ handled =>
          rw [handled]
          simp
  | kept _ _ _ _ _ network => exact .inl (network ▸ hack)
  | called _ _ _ _ network => exact .inl (network ▸ hack)
  | counted _ _ _ _ network => exact .inl (network ▸ hack)
  | crashed _ _ network => exact .inl (network ▸ hack)

private theorem ack_enabled (hstep : s.step (.ack n t) = some s') :
    (n, TwoPhaseMsg.ack t) ∈ s.network := by
  simp only [step] at hstep
  split at hstep
  · assumption
  · cases hstep

end TwoPhaseSystem

/-! ## Runs -/

theorem TwoPhaseCoordinator.returning_spec {c : TwoPhaseCoordinator}
    {a : TwoPhaseAction} {x : ReturnedCall} (h : c.returning a = some x) :
    ∃ participants attempt order, a = .advance x.txnId order ∧
      c.calls.get? x.txnId =
        some ⟨participants, .announcing x.decision attempt []⟩ ∧
      x.acks = (c.acks.get? x.txnId).getD ∅ ∧
      (participants.length ≤ x.acks.card ∨ c.ackRetries ≤ attempt) := by
  unfold TwoPhaseCoordinator.returning at h
  split at h
  · next t order =>
    split at h
    · next participants d attempt hcall =>
      dsimp only at h
      split at h
      · next hends =>
        cases h
        exact ⟨participants, attempt, order, rfl, hcall, rfl, hends⟩
      · cases h
    · cases h
  · cases h

namespace ReturnSystem

variable {r r' : ReturnSystem} {a : TwoPhaseAction}

theorem inv_new (ackRetries : Nat) {managers : NodeId → TransactionManager}
    (hlogs : ∀ n, (managers n).wal ≠ none) : (new ackRetries managers).Inv where
  system := TwoPhaseSystem.inv_new ackRetries hlogs
  sent n t h := by cases h
  acks t n h := by
    simp [new, TwoPhaseSystem.new, TwoPhaseCoordinator.new] at h
  insists t call h := by cases h
  known c h := by cases h
  returns :=
    { once := List.nodup_nil
      ended := fun c h => by cases h
      cleared := fun _ _ => ⟨rfl, rfl⟩
      decided := fun c h => by cases h
      acknowledged := fun c h => by cases h
      insisted := fun c h => by cases h }

theorem Inv.returning (h : r.Inv) {s : TwoPhaseSystem} {x : ReturnedCall}
    (hx : r.system.coordinator.returning a = some x)
    (hstep : r.system.step a = some s) :
    s.coordinator.calls.get? x.txnId = none ∧
      r.system.Decided x.txnId x.decision ∧
      (∀ n ∈ x.acks, n ∈ r.system.participantsOf x.txnId ∧
        (n, x.txnId) ∈ r.system.handled) ∧
      ∀ n ∈ r.system.participantsOf x.txnId, n ∉ x.acks →
        s.announced n x.txnId x.decision = s.coordinator.ackRetries + 1 := by
  obtain ⟨participants, attempt, order, rfl, hcall, hacks, hends⟩ :=
    TwoPhaseCoordinator.returning_spec hx
  have hretries := TwoPhaseSystem.ackRetries_step hstep
  obtain ⟨hcoordinated, -, hdecided, -⟩ := h.system.calls _ _ hcall
  obtain ⟨hattempt, -, hcount⟩ := h.insists _ _ hcall
  have hparticipants : r.system.participantsOf x.txnId = participants := by
    rw [TwoPhaseSystem.participantsOf, hcoordinated]
    rfl
  have hall := h.acks x.txnId
  rw [← hacks] at hall hcount
  have hadvance : r.system.coordinator.advance x.txnId
      ⟨participants, .announcing x.decision attempt []⟩ order =
        (r.system.coordinator.finish x.txnId, []) := by
    simp only [TwoPhaseCoordinator.advance, ← hacks, if_pos hends]
  obtain ⟨call, hsame, -, rfl⟩ := TwoPhaseSystem.step_advance hstep
  obtain rfl := Option.some.inj (hcall.symm.trans hsame)
  rw [hadvance] at hretries ⊢
  refine ⟨(Dict.get?_pop _ _ _).trans (if_pos rfl), hdecided, hall,
    fun n hn hmissing => ?_⟩
  rw [hparticipants] at hn
  have hbefore := hcount n hn hmissing
  have hcard := TwoPhaseCoordinator.card_acks_lt
    (fun m hm => hparticipants ▸ (hall m hm).1) hn hmissing
  have hlast : r.system.coordinator.ackRetries ≤ attempt :=
    hends.resolve_left (by omega)
  have hunsent : TwoPhaseSystem.announced { r.system with
      coordinator := r.system.coordinator.finish x.txnId
      network := r.system.network ++ [] } n x.txnId x.decision =
        r.system.announced n x.txnId x.decision := by
    simp [TwoPhaseSystem.announced]
  rw [hunsent, hretries]
  simp only [List.not_mem_nil, if_false] at hbefore
  omega

theorem Inv.step (h : r.Inv) (hused : r.WellUsed a) (hstep : r.step a = some r') :
    r'.Inv := by
  obtain ⟨s, hs, rfl⟩ := Option.map_eq_some_iff.mp hstep
  have hsystem := h.system.step hused hs
  have hgrow {n : NodeId} {t : TxnId}
      (hn : n ∈ r.system.participantsOf t ∧ (n, t) ∈ r.system.handled) :
      n ∈ s.participantsOf t ∧ (n, t) ∈ s.handled :=
    ⟨TwoPhaseSystem.mem_participants_step hused hs hn.1,
      TwoPhaseSystem.handled_step hs hn.2⟩
  -- A transaction whose call has returned takes no step any more.
  have hidle {c : ReturnedCall} (hc : c ∈ r.returned) :
      a.worksOn c.txnId = false ∧
        ∀ participants, a ≠ .coordinate c.txnId participants := by
    constructor
    · refine Bool.eq_false_iff.mpr fun hworks => ?_
      obtain ⟨order, rfl⟩ := TwoPhaseAction.worksOn_iff.mp hworks
      obtain ⟨call, hcall, -⟩ := TwoPhaseSystem.step_advance hs
      rw [h.returns.ended c hc] at hcall
      cases hcall
    · rintro participants rfl
      exact h.known c hc hused.1
  have hnew {x : ReturnedCall}
      (hx : x ∈ (r.system.coordinator.returning a).toList) :=
    h.returning (Option.mem_toList.mp hx) hs
  have hrunning {x : ReturnedCall}
      (hx : x ∈ (r.system.coordinator.returning a).toList) :
      r.system.coordinator.calls.get? x.txnId ≠ none ∧
        r.system.coordinated x.txnId ≠ none := by
    obtain ⟨participants, attempt, order, -, hcall, -⟩ :=
      TwoPhaseCoordinator.returning_spec (Option.mem_toList.mp hx)
    rw [hcall, (h.system.calls _ _ hcall).1]
    simp
  have hparticipants {t : TxnId} (hknown : r.system.coordinated t ≠ none) :
      s.participantsOf t = r.system.participantsOf t := by
    obtain ⟨participants, hsome⟩ := Option.ne_none_iff_exists'.mp hknown
    rw [TwoPhaseSystem.participantsOf, TwoPhaseSystem.participantsOf, hsome,
      TwoPhaseSystem.coordinated_step hused hs hsome]
  refine ⟨hsystem, fun n t hack => ?_, fun t n hn => ?_, fun t call hcall => ?_,
    fun c hc => ?_, ?_⟩
  · by_cases hold : (n, TwoPhaseMsg.ack t) ∈ r.system.network
    · exact hgrow (h.sent n t hold)
    · refine ⟨?_, (TwoPhaseSystem.ack_step hs hack).resolve_left hold⟩
      refine TwoPhaseSystem.mem_participants_step hused hs
        (TwoPhaseSystem.mem_of_sent_ack h.system hs ?_)
      obtain ⟨sent, hsent⟩ : ∃ sent, s.network = r.system.network ++ sent := by
        cases TwoPhaseSystem.step_coordinates hs with
        | advanced _ _ _ _ _ _ _ network => exact ⟨_, network⟩
        | voted _ _ _ _ _ _ network => exact ⟨_, network⟩
        | acknowledged _ _ _ _ _ _ _ network => exact ⟨_, network⟩
        | kept _ _ _ _ _ network => exact ⟨[], by simp [network]⟩
        | called _ _ _ _ network => exact ⟨[], by simp [network]⟩
        | counted _ _ _ _ network => exact ⟨[], by simp [network]⟩
        | crashed _ _ network => exact ⟨[], by simp [network]⟩
      rw [hsent] at hack ⊢
      rw [List.drop_left]
      exact (List.mem_append.mp hack).resolve_left hold
  · rcases TwoPhaseSystem.mem_acks_step hs hn with hold | rfl
    · exact hgrow (h.acks t n hold)
    · exact hgrow (h.sent n t (TwoPhaseSystem.ack_enabled hs))
  · cases hown : a.worksOn t with
    | true =>
        obtain ⟨order, rfl⟩ := TwoPhaseAction.worksOn_iff.mp hown
        exact TwoPhaseSystem.insists_advance h.system hs (h.insists t) hcall
    | false => exact TwoPhaseSystem.insists_other hs hown (h.insists t) hcall
  · rcases List.mem_append.mp hc with hc | hc
    · obtain ⟨participants, hsome⟩ := Option.ne_none_iff_exists'.mp (h.known c hc)
      rw [TwoPhaseSystem.coordinated_step hused hs hsome]
      simp
    · obtain ⟨participants, hsome⟩ :=
        Option.ne_none_iff_exists'.mp (hrunning hc).2
      rw [TwoPhaseSystem.coordinated_step hused hs hsome]
      simp
  · have hdecided : ∀ c ∈ r.returned ++
        (r.system.coordinator.returning a).toList,
        s.Decided c.txnId c.decision := by
      intro c hc
      rcases List.mem_append.mp hc with hc | hc
      · exact TwoPhaseSystem.step_decided h.system.opened hs
          (h.returns.decided c hc).1
      · exact TwoPhaseSystem.step_decided h.system.opened hs (hnew hc).2.1
    refine ⟨?_, fun c hc => ?_, TwoPhaseSystem.cleared_step h.returns.cleared hs,
      fun c hc => ⟨hdecided c hc, fun hcommit => ?_⟩, fun c hc n hn => ?_,
      fun c hc n hn hmissing => ?_⟩
    · rw [List.map_append, List.nodup_append]
      refine ⟨h.returns.once, ?_, ?_⟩
      · cases r.system.coordinator.returning a <;> simp
      · rintro t ht u hu rfl
        obtain ⟨c, hc, rfl⟩ := List.mem_map.mp ht
        obtain ⟨x, hx, hsame⟩ := List.mem_map.mp hu
        have hcall := (hrunning hx).1
        rw [hsame] at hcall
        exact hcall (h.returns.ended c hc)
    · rcases List.mem_append.mp hc with hc | hc
      · exact TwoPhaseSystem.calls_none_step hs (h.returns.ended c hc) (hidle hc).2
      · exact (hnew hc).1
    · exact hsystem.agreed c.txnId (hcommit ▸ hdecided c hc)
    · rcases List.mem_append.mp hc with hc | hc
      · exact hgrow (h.returns.acknowledged c hc n hn)
      · exact hgrow ((hnew hc).2.2.1 n hn)
    · rcases List.mem_append.mp hc with hc | hc
      · rw [hparticipants (h.known c hc)] at hn
        rw [TwoPhaseSystem.announced_step hs (hidle hc).1,
          TwoPhaseSystem.ackRetries_step hs]
        exact h.returns.insisted c hc n hn hmissing
      · rw [hparticipants (hrunning hc).2] at hn
        exact (hnew hc).2.2.2 n hn hmissing

/-- Every call of `coordinate_commit` returns at most once and then is in no table any
more; it returns the decision in the log, which is to commit only when every
participant has voted so; and whoever has not acknowledged the decision to it was sent
it in each of its attempts. -/
theorem run_returns (ackRetries : Nat) {managers : NodeId → TransactionManager}
    (hlogs : ∀ n, (managers n).wal ≠ none) {actions : List TwoPhaseAction}
    (hused : Along step WellUsed (new ackRetries managers) actions)
    (hrun : run step (new ackRetries managers) actions = some r) : r.Returns := by
  have hinv : r.Inv := run_invariant (I := Inv)
    (fun _ _ _ h hok hstep => h.step hok hstep) (inv_new ackRetries hlogs) hused hrun
  exact hinv.returns

end ReturnSystem

/-! ## What a call costs -/

/-- A request for the vote on `t`, or the decision. -/
def TwoPhaseMsg.orders (t : TxnId) : TwoPhaseMsg → Bool
  | .prepare u => u = t
  | .decision u _ => u = t
  | _ => false

/-- The prices of a step of `coordinate_commit` and of a message it sends. -/
structure CallPrices where
  step : Nat
  message : Nat

namespace CallPrices

variable (P : CallPrices)

def round (targets : Nat) : Nat := targets * (P.step + P.message) + P.step

/-- The steps that write a record go between the rounds. -/
def call (ackRetries participants : Nat) : Nat :=
  P.step + P.round participants + P.step +
    (ackRetries + 1) * P.round participants

def rest (ackRetries : Nat) (call : Coordination) : Nat :=
  match call.phase with
  | .started => P.call ackRetries call.participants.length
  | .preparing targets => P.round targets.length + P.step +
      (ackRetries + 1) * P.round call.participants.length
  | .counted _ => P.step + (ackRetries + 1) * P.round call.participants.length
  | .announcing _ attempt targets => P.round targets.length +
      (ackRetries - attempt) * P.round call.participants.length

def balance (t : TxnId) (s : TwoPhaseSystem) : Nat :=
  (s.coordinator.calls.get? t).elim 0 (P.rest s.coordinator.ackRetries) +
    P.message * s.network.countP fun p => p.2.orders t

def budget (t : TxnId) (s : TwoPhaseSystem) : Nat :=
  (s.coordinated t).elim 0 fun participants =>
    P.call s.coordinator.ackRetries participants.length

theorem round_cons (targets : Nat) :
    P.round (targets + 1) = P.round targets + P.step + P.message := by
  simp only [round, Nat.add_mul, Nat.one_mul]
  omega

private theorem round_mono {targets targets' : Nat} (h : targets ≤ targets') :
    P.round targets ≤ P.round targets' :=
  Nat.add_le_add_right (Nat.mul_le_mul_right _ h) _

private theorem rest_advance {c : TwoPhaseCoordinator} {t : TxnId} {call : Coordination}
    {order : List NodeId} (hlists : c.Lists t call order) :
    ((c.advance t call order).1.calls.get? t).elim 0 (P.rest c.ackRetries) + P.step +
        P.message * (c.advance t call order).2.length ≤
      P.rest c.ackRetries call := by
  have hset (c : TwoPhaseCoordinator) (phase : CallPhase) :
      (c.setPhase t call phase).calls.get? t =
        some { call with phase := phase } := Dict.get?_set_self _ _ _
  unfold TwoPhaseCoordinator.advance
  split
  · next hphase =>
    simp only [hset, Option.elim_some, rest, hphase, CallPrices.call,
      List.length_nil, Nat.mul_zero]
    omega
  · next n targets hphase =>
    simp only [hset, Option.elim_some, rest, hphase, List.length_cons,
      round_cons, List.length_nil]
    omega
  · next hphase =>
    simp only [hset, Option.elim_some, rest, hphase, List.length_nil, round,
      Nat.zero_mul, Nat.mul_zero]
    omega
  · next d hphase =>
    simp only [hset, Option.elim_some, rest, hphase, List.length_nil,
      Nat.mul_zero, Nat.sub_zero, Nat.add_mul, Nat.one_mul]
    omega
  · next d attempt n targets hphase =>
    simp only [hset, Option.elim_some, rest, hphase, List.length_cons,
      round_cons, List.length_nil]
    omega
  · next d attempt hphase =>
    dsimp only
    split
    · simp [TwoPhaseCoordinator.finish, Dict.get?_pop, rest, hphase, round]
    · next hgoes =>
      have hleft : c.ackRetries - attempt = c.ackRetries - (attempt + 1) + 1 := by
        omega
      have hround := P.round_mono hlists.length_le
      simp only [hset, Option.elim_some, rest, hphase, List.length_nil,
        Nat.mul_zero, hleft, Nat.add_mul, Nat.one_mul]
      have hwait : P.round 0 = P.step := by simp [round]
      omega

variable {s s' : TwoPhaseSystem} {a : TwoPhaseAction} {t : TxnId}

theorem balance_step (hinv : s.Inv) (hused : s.WellUsed a)
    (hstep : s.step a = some s') :
    P.balance t s' + (if a.worksOn t then P.step else 0) + P.budget t s ≤
      P.balance t s + P.budget t s' := by
  have hretries := TwoPhaseSystem.ackRetries_step hstep
  have hbudget : s.coordinated t ≠ none → P.budget t s' = P.budget t s := by
    intro hknown
    obtain ⟨participants, hsome⟩ := Option.ne_none_iff_exists'.mp hknown
    rw [budget, budget, hretries, hsome,
      TwoPhaseSystem.coordinated_step hused hstep hsome]
  by_cases hown : a.worksOn t = true
  · obtain ⟨order, rfl⟩ := TwoPhaseAction.worksOn_iff.mp hown
    obtain ⟨call, hcall, hlists, rfl⟩ := TwoPhaseSystem.step_advance hstep
    have hpays := P.rest_advance hlists
    have hsent :
        (s.coordinator.advance t call order).2.countP (fun p => p.2.orders t) ≤
          (s.coordinator.advance t call order).2.length := List.countP_le_length
    have hmessages := Nat.mul_le_mul_left P.message hsent
    rw [hbudget (by simp [(hinv.calls t call hcall).1]), if_pos hown]
    simp only [balance] at hretries ⊢
    rw [hretries, hcall, List.countP_append, Nat.mul_add, Option.elim_some]
    omega
  · have hother : a.worksOn t = false := by simpa using hown
    obtain ⟨sent, hnetwork, hsent⟩ := TwoPhaseSystem.network_step hstep hother
    have hnone : sent.countP (fun p => p.2.orders t) = 0 := by
      rw [List.countP_eq_zero]
      rintro ⟨n, msg⟩ hp
      obtain ⟨hprepare, hdecision⟩ := hsent _ hp
      cases msg with
      | prepare u =>
          have hu : u ≠ t := fun hu => hprepare (by rw [hu])
          simpa [TwoPhaseMsg.orders] using hu
      | decision u d =>
          have hu : u ≠ t := fun hu => hdecision d (by rw [hu])
          simpa [TwoPhaseMsg.orders] using hu
      | vote u v => simp [TwoPhaseMsg.orders]
      | ack u => simp [TwoPhaseMsg.orders]
    rw [if_neg hown, balance, balance, hretries, hnetwork, List.countP_append,
      hnone, Nat.add_zero, Nat.add_zero]
    cases hcall : s'.coordinator.calls.get? t with
    | none =>
        have hgrows : P.budget t s ≤ P.budget t s' := by
          by_cases hknown : s.coordinated t = none
          · simp [budget, hknown]
          · rw [hbudget hknown]
        simp only [Option.elim_none]
        omega
    | some call =>
        rcases TwoPhaseSystem.call_kept hstep hother hcall with
          ⟨participants, rfl, rfl⟩ | ⟨hold, -⟩
        · have hidle : s.coordinator.calls.get? t = none := by
            cases hold : s.coordinator.calls.get? t with
            | none => rfl
            | some call =>
                have := (hinv.calls t call hold).1
                rw [hused.1] at this
                cases this
          have hnew : s'.coordinated t = some participants := by
            cases hstep
            exact Function.update_self _ _ _
          simp only [budget, hnew, hused.1, hidle, hretries, rest,
            Option.elim_some, Option.elim_none]
          omega
        · rw [hold, hbudget (by simp [(hinv.calls t call hold).1])]

end CallPrices

namespace TwoPhaseSystem

theorem run_callPrices (P : CallPrices) (t : TxnId) (ackRetries : Nat)
    {managers : NodeId → TransactionManager}
    (hlogs : ∀ n, (managers n).wal ≠ none) {actions : List TwoPhaseAction}
    {s : TwoPhaseSystem}
    (hused : Along step WellUsed (new (some .new) ackRetries managers) actions)
    (hrun : run step (new (some .new) ackRetries managers) actions = some s) :
    P.balance t s + P.step * actions.countP (TwoPhaseAction.worksOn t) ≤
      P.budget t s := by
  have hbudget := run_budget (I := Inv) (P.balance t) (P.budget t)
    (fun a => if a.worksOn t then P.step else 0)
    (fun s a s' h hok hstep => ⟨h.step hok hstep, P.balance_step h hok hstep⟩)
    (inv_new ackRetries hlogs) hused hrun
  have hsum := sum_map_ite actions (TwoPhaseAction.worksOn t) P.step
  rw [hsum] at hbudget
  simpa [CallPrices.balance, CallPrices.budget, new, TwoPhaseCoordinator.new]
    using hbudget

/-- Where every transaction is coordinated once (`WellUsed`) and all managers write logs,
a call of `coordinate_commit` is never stuck: it returns, unless the coordinator crashes,
after at most as many steps of its own as the bound says, and the messages it sends are
bounded too. -/
theorem run_callCost (ackRetries : Nat) {managers : NodeId → TransactionManager}
    (hlogs : ∀ n, (managers n).wal ≠ none) {actions : List TwoPhaseAction}
    {s : TwoPhaseSystem}
    (hused : Along step WellUsed (new (some .new) ackRetries managers) actions)
    (hrun : run step (new (some .new) ackRetries managers) actions = some s)
    {t : TxnId} {participants : List NodeId}
    (hcoordinated : s.coordinated t = some participants) :
    actions.countP (TwoPhaseAction.worksOn t) ≤
        (participants.length + 1) * (ackRetries + 2) + 2 ∧
      (s.network.countP fun p => p.2.orders t) ≤
        participants.length * (ackRetries + 2) ∧
      ∀ call, s.coordinator.calls.get? t = some call →
        ∃ order s', s.step (.advance t order) = some s' := by
  have hretries : s.coordinator.ackRetries = ackRetries :=
    run_preserves (I := fun s : TwoPhaseSystem =>
        s.coordinator.ackRetries = ackRetries)
      (fun _ _ _ h hstep => (ackRetries_step hstep).trans h) rfl hrun
  have hbudget (P : CallPrices) :
      P.budget t s = P.call ackRetries participants.length := by
    rw [CallPrices.budget, hcoordinated, hretries, Option.elim_some]
  refine ⟨?_, ?_, fun call hcall => ?_⟩
  · have hsteps := run_callPrices ⟨1, 0⟩ t ackRetries hlogs hused hrun
    rw [hbudget] at hsteps
    simp only [CallPrices.call, CallPrices.round, Nat.add_zero, Nat.mul_one,
      Nat.add_mul, Nat.one_mul] at hsteps
    rw [Nat.mul_add, Nat.mul_comm _ ackRetries]
    omega
  · have hmessages := run_callPrices ⟨0, 1⟩ t ackRetries hlogs hused hrun
    rw [hbudget] at hmessages
    simp only [CallPrices.call, CallPrices.round, CallPrices.balance, Nat.add_zero,
      Nat.zero_add, Nat.mul_one, Nat.add_mul, Nat.one_mul, Nat.zero_mul]
      at hmessages
    rw [Nat.mul_add, Nat.mul_comm _ ackRetries]
    omega
  · refine ⟨(s.coordinator.missing t call).toList, ?_⟩
    have hlists := TwoPhaseCoordinator.lists_toList s.coordinator t call
    simp only [TwoPhaseSystem.step, hcall, if_pos hlists]
    exact ⟨_, rfl⟩

/-! ## A participant that never acknowledges -/

/-- With one retry, participant 2 is sent the decision twice. -/
def silentParticipant : List TwoPhaseAction :=
  [.coordinate "t" [1, 2], .advance "t" [1, 2], .advance "t" [1, 2],
    .advance "t" [1, 2], .prepare 1 "t" true, .prepare 2 "t" true,
    .vote 1 "t" .commit, .vote 2 "t" .commit, .advance "t" [1, 2],
    .advance "t" [1, 2], .advance "t" [1, 2], .advance "t" [1, 2],
    .decision 1 "t" .commit [], .ack 1 "t", .advance "t" [2], .advance "t" [2],
    .advance "t" [2]]

theorem freshManager_wal (n : NodeId) : (freshManager n).wal ≠ none := by
  simp [freshManager, TransactionManager.new]

theorem silentParticipant_callCost :
    ∃ s, run step (new (some .new) 1 freshManager) silentParticipant = some s ∧
      silentParticipant.countP (TwoPhaseAction.worksOn "t") ≤ (2 + 1) * (1 + 2) + 2 ∧
      (s.network.countP fun p => p.2.orders "t") ≤ 2 * (1 + 2) ∧
      ∀ call, s.coordinator.calls.get? "t" = some call →
        ∃ order s', s.step (.advance "t" order) = some s' := by
  have hview : (run step (new (some .new) 1 freshManager) silentParticipant).map
      (fun s => s.coordinated "t") = some (some [1, 2]) := by
    decide +kernel
  obtain ⟨s, hrun, hcoordinated⟩ := Option.map_eq_some_iff.mp hview
  have hused : Along step WellUsed (new (some .new) 1 freshManager)
      silentParticipant := by
    decide +kernel
  exact ⟨s, hrun, run_callCost 1 freshManager_wal hused hrun hcoordinated⟩

end TwoPhaseSystem

namespace ReturnSystem

theorem silentParticipant_returns :
    ∃ r, run step (new 1 TwoPhaseSystem.freshManager)
        TwoPhaseSystem.silentParticipant = some r ∧
      r.returned = [⟨"t", .commit, {1}⟩] ∧ r.Returns := by
  have hview : (run step (new 1 TwoPhaseSystem.freshManager)
      TwoPhaseSystem.silentParticipant).map ReturnSystem.returned =
        some [⟨"t", .commit, {1}⟩] := by
    decide +kernel
  obtain ⟨r, hrun, hreturned⟩ := Option.map_eq_some_iff.mp hview
  have hused : Along step WellUsed (new 1 TwoPhaseSystem.freshManager)
      TwoPhaseSystem.silentParticipant := by
    decide +kernel
  exact ⟨r, hrun, hreturned,
    run_returns 1 TwoPhaseSystem.freshManager_wal hused hrun⟩

end ReturnSystem

end DistributedMemory.Commit
