import DistributedMemory.Mutex.MaekawaInquiries
import Mathlib.Data.Finset.Max
import Mathlib.Data.Prod.Lex

/-!
# Every request of Maekawa's algorithm is served

Where no step is possible the first of the waiting requests would lack a vote, so it
would be in the queue of a voter whose vote is given to a later one.  That voter has
sent an INQUIRE, and the vote has come back.
-/

namespace DistributedMemory.Mutex

open DistributedMemory.Library DistributedMemory.Network

namespace MaekawaSystem

/-! ## Where nothing can go on -/

structure Live (c : QuorumSystem) (s : MaekawaSystem) : Prop where
  inv : s.Inv c Ballot.Balanced
  voter : ∀ i, (s.node i).mutex.Voter
  waits : ∀ i, (s.node i).Waits (c.quorum i)
  current : s.Current c
  chased : s.Chased c

section Live

variable {c : QuorumSystem} {s s' : MaekawaSystem}

theorem live_new (c : QuorumSystem) : new.Live c := by
  refine ⟨inv_new c, fun _ => MaekawaExclusion.voter_new, fun i => ⟨?_, ?_, ?_⟩,
    current_new c, chased_new c⟩
  · exact fun hcall => (by cases hcall)
  · exact fun hwanting => False.elim hwanting
  · exact fun hin => (by cases hin)

theorem Live.step {a : MaekawaAction} (h : s.Live c) (hok : s.unhurried a = true)
    (hstep : s.step c a = some s') : s'.Live c := by
  have hheld : ∀ i, ∀ v ∈ (s.node i).mutex.votesHeld, v ∈ c.quorum i :=
    fun i v hv => (h.inv.wants_of_granted (granted_of_held hv)).2
  exact ⟨h.inv.step hok hstep, voter_step h.voter hstep,
    waits_step h.waits hheld hstep, h.current.step h.inv hstep,
    h.chased.step h.inv h.waits hstep⟩

/-- No step is possible but a new call and those of the clock. -/
def Finished (c : QuorumSystem) (s : MaekawaSystem) : Prop :=
  ∀ a, a.calls = false → a.ticks = false → s.unhurried a = true →
    s.step c a = none

/-- Nothing is left to send or to handle, and every caller is idle or waits. -/
structure Still (s : MaekawaSystem) : Prop where
  call : ∀ i, (s.node i).call = .idle ∨ (s.node i).call = .waiting
  releasing : ∀ i, (s.node i).releasing = []
  link : ∀ i j, s.link i j = ⟨[], none⟩

theorem still_of_finished (h : s.Finished c) : s.Still := by
  have hcall : ∀ i, (s.node i).call = .idle ∨ (s.node i).call = .waiting := by
    intro i
    cases hcall : (s.node i).call with
    | idle => exact .inl rfl
    | waiting => exact .inr rfl
    | asking resource targets =>
        cases targets with
        | nil =>
            have hnone := h (.wait i) rfl rfl rfl
            simp [step, hcall] at hnone
        | cons target rest =>
            have hnone := h (.sendRequest i target) rfl rfl rfl
            simp [step, hcall] at hnone
    | woken =>
        have hnone := h (.enter i) rfl rfl rfl
        simp [step, hcall] at hnone
    | inside =>
        have hnone := h (.releaseCs i) rfl rfl rfl
        simp [step, hcall] at hnone
  have hhandler : ∀ i j, (s.link i j).handler = none := by
    intro i j
    cases htask : (s.link i j).handler with
    | none => rfl
    | some task =>
        cases task with
        | received msg =>
            have hcalm : s.unhurried (.handle i j) = true := by
              simp only [unhurried, htask]
              split
              · rcases hcall j with hj | hj <;> simp [hj]
              · rfl
            have hnone := h (.handle i j) rfl rfl hcalm
            simp [step, htask] at hnone
        | relinquish voter resource =>
            have hnone := h (.sendRelinquish i j) rfl rfl rfl
            simp [step, htask] at hnone
  refine ⟨hcall, fun i => ?_, fun i j => ?_⟩
  · apply List.eq_nil_iff_forall_not_mem.mpr
    rintro ⟨target, resource⟩ hmem
    have hnone := h (.sendRelease i target resource) rfl rfl rfl
    simp [step, hmem] at hnone
  · have hqueue : (s.link i j).queue = [] := by
      cases hqueue : (s.link i j).queue with
      | nil => rfl
      | cons packet rest =>
          have hnone := h (.deliver i j) rfl rfl rfl
          simp [step, hqueue, hhandler] at hnone
    have heta : s.link i j = ⟨(s.link i j).queue, (s.link i j).handler⟩ := rfl
    rw [heta, hqueue, hhandler]

private theorem Live.exists_before (h : s.Live c) (hstill : s.Still) {i : NodeId}
    (hi : (s.node i).call = .waiting) :
    ∃ j, j ≠ i ∧ (s.node j).call = .waiting ∧
      ((s.node j).mutex.requestTs < (s.node i).mutex.requestTs ∨
        (s.node j).mutex.requestTs = (s.node i).mutex.requestTs ∧ j ≤ i) := by
  have htotal : ∀ p q weight, (s.link p q).total weight = 0 := by
    intro p q weight
    rw [hstill.link]
    rfl
  have hreleased : ∀ k v, (s.ballot c).released k v = 0 := by
    intro k v
    simp [ballot, hstill.releasing, htotal]
  have hgranted : ∀ k v, (s.ballot c).granted k v =
      if v ∈ (s.node k).mutex.votesHeld then 1 else 0 := by
    intro k v
    simp [ballot, htotal]
  -- A vote that the caller lacks is asked for at the voter's queue.
  obtain ⟨v, hv, hlacks⟩ := (h.waits i).lacks (by rw [hi]; trivial)
    ((h.waits i).blocked hi)
  have hwants : (s.ballot c).wants i v := ⟨by rw [hi]; simp, hv⟩
  have hone := h.inv.votes.wanted i v hwants
  rw [hgranted, if_neg hlacks] at hone
  obtain ⟨r, hr, hri⟩ : ∃ r ∈ (s.node v).mutex.requestQueue, r.requester = i := by
    have hpos : 0 < (s.node v).mutex.requestQueue.countP fun r => r.requester = i := by
      simp only [ballot, hi, MaekawaCall.targets, List.count_nil, htotal] at hone
      omega
    obtain ⟨r, hr, heq⟩ := List.countP_pos_iff.mp hpos
    exact ⟨r, hr, of_decide_eq_true heq⟩
  -- The voter has voted for another one, who waits as well.
  cases hvoted : (s.node v).mutex.voted with
  | none =>
      rw [((h.voter v).free hvoted).1] at hr
      cases hr
  | some x =>
      have hfor : (s.ballot c).votedFor v = some x.requester :=
        Option.map_eq_some_iff.mpr ⟨x, hvoted, rfl⟩
      have hvote := h.inv.votes.voted x.requester v hfor
      rw [hreleased, Nat.add_zero] at hvote
      have hpos : 0 < (s.ballot c).granted x.requester v := by omega
      have hwaiting : (s.node x.requester).call = .waiting :=
        (hstill.call x.requester).resolve_left (h.inv.wants_of_granted hpos).1
      have hne : x.requester ≠ i := by
        intro heq
        rw [heq, hgranted, if_neg hlacks] at hvote
        cases hvote
      have hxts := (h.current.voted v x hvoted).resolve_left
        (by rw [hreleased]; exact Nat.lt_irrefl 0)
      have hrts := h.current.queued v r hr
      rw [hri] at hrts
      refine ⟨x.requester, hne, hwaiting, ?_⟩
      cases hsent : (s.node v).mutex.inquireSent with
      | false =>
          have hle := (h.voter v).best hsent x hvoted r hr
          rw [MaekawaRequest.KeyLe, hxts, hrts, hri] at hle
          exact hle
      | true =>
          exfalso
          rcases h.chased v hsent x hvoted with hlink | hpos | hpos | hin | hpos
          · rw [hstill.link] at hlink
            cases hlink
          · rw [htotal] at hpos
            exact Nat.lt_irrefl 0 hpos
          · rw [htotal] at hpos
            exact Nat.lt_irrefl 0 hpos
          · rw [hwaiting] at hin
            cases hin
          · rw [hreleased] at hpos
            exact Nat.lt_irrefl 0 hpos

private theorem Live.idle_of_finished (h : s.Live c) (hfinished : s.Finished c)
    (i : NodeId) : (s.node i).call = .idle := by
  have hstill := still_of_finished hfinished
  by_contra hne
  set waiting := c.nodes.toFinset.filter fun i => (s.node i).call = .waiting
  have hmem : ∀ k, (s.node k).call = .waiting → k ∈ waiting := by
    intro k hk
    refine Finset.mem_filter.mpr ⟨List.mem_toFinset.mpr ?_, hk⟩
    exact (h.inv.node k).caller (by simp [hk])
  obtain ⟨first, hfirst, hmin⟩ := Finset.exists_min_image waiting
    (fun k => toLex ((s.node k).mutex.requestTs, k))
    ⟨i, hmem i ((hstill.call i).resolve_left hne)⟩
  obtain ⟨j, hj, hwaits, hbefore⟩ :=
    h.exists_before hstill (Finset.mem_filter.mp hfirst).2
  rcases Prod.Lex.le_iff.mp (hmin j (hmem j hwaits)) with hlt | ⟨heq, hle⟩
  · rcases hbefore with hlater | ⟨hsame, -⟩
    · exact Nat.lt_asymm hlt hlater
    · exact Nat.ne_of_lt hlt hsame.symm
  · rcases hbefore with hlater | ⟨-, hle'⟩
    · exact Nat.ne_of_gt hlater heq
    · exact hj (Nat.le_antisymm hle' hle)

private theorem finished_of_settled (hidle : ∀ i, (s.node i).call = .idle)
    (hreleasing : ∀ i, (s.node i).releasing = [])
    (hlink : ∀ i j, s.link i j = ⟨[], none⟩) : s.Finished c := by
  intro a hcalls hticks _
  cases a with
  | requestCs n resource => cases hcalls
  | sendRequest n target => simp [MaekawaSystem.step, hidle]
  | wait n => simp [MaekawaSystem.step, hidle]
  | enter n => simp [MaekawaSystem.step, hidle]
  | releaseCs n => simp [MaekawaSystem.step, hidle]
  | sendRelease n target resource => simp [MaekawaSystem.step, hreleasing]
  | deliver i j => simp [MaekawaSystem.step, hlink]
  | handle i j => simp [MaekawaSystem.step, hlink]
  | sendRelinquish i j => simp [MaekawaSystem.step, hlink]
  | tick n receivedTime => cases hticks

end Live

/-! ## Every run -/

end MaekawaSystem

namespace MaekawaAction

def callsAt (i : NodeId) : MaekawaAction → Bool
  | requestCs n _ => i = n
  | _ => false

def entersAt (i : NodeId) : MaekawaAction → Bool
  | enter n => i = n
  | _ => false

end MaekawaAction

/-- A call that has not led to an entry yet. -/
def MaekawaCall.opened : MaekawaCall → Nat
  | .asking _ _ | .waiting | .woken => 1
  | .idle | .inside => 0

private theorem MaekawaCall.opened_wake (call : MaekawaCall) :
    call.wake.opened = call.opened := by
  cases call <;> rfl

namespace MaekawaSystem

section Run

variable {c : QuorumSystem} {s s' : MaekawaSystem}

private theorem opened_handle (s : MaekawaSystem) (sender n : NodeId) (msg : MaekawaMsg)
    (i : NodeId) :
    ((s.handle c sender n msg).node i).call.opened = (s.node i).call.opened := by
  have hgrant : ∀ (s : MaekawaSystem), ((s.grantNext n).node i).call =
      (s.node i).call := by
    intro s
    unfold grantNext
    split
    · rfl
    · simp [grantVote]
  cases msg with
  | request resource reqTs =>
      simp only [handle, handleRequest]
      split
      · simp [grantVote]
      · split <;> simp
  | locked resource voter =>
      refine field_setNode s (·.call.opened) ?_ i
      dsimp only
      split
      · exact MaekawaCall.opened_wake _
      · rfl
  | failed resource => rfl
  | inquire resource voter =>
      simp only [handle, handleInquire]
      split
      · simp
      · rfl
  | relinquish resource =>
      simp only [handle, handleRelinquish_grants]
      rw [hgrant, call_setMutex]
  | release resource =>
      simp only [handle, handleRelease_eq]
      rw [hgrant, call_setMutex]

private theorem opened_step {a : MaekawaAction} (hstep : s.step c a = some s')
    (i : NodeId) :
    (s'.node i).call.opened + (if a.entersAt i then 1 else 0) =
      (s.node i).call.opened + if a.callsAt i then 1 else 0 := by
  cases step_cases hstep with
  | @requestCs n resource hn hidle =>
      rw [call_setNode]
      by_cases hi : i = n
      · simp [hi, hidle, MaekawaCall.opened, MaekawaAction.entersAt,
          MaekawaAction.callsAt]
      · simp [hi, MaekawaAction.entersAt, MaekawaAction.callsAt]
  | @sendRequest n target resource targets hcall hmem =>
      rw [call_send, field_setNode s (·.call.opened) (by rw [hcall]; rfl) i]
      rfl
  | @wait n resource hcall =>
      rw [field_setNode s (·.call.opened) (by rw [hcall]; dsimp only; split <;> rfl) i]
      rfl
  | @enter n hcall =>
      rw [call_setNode]
      by_cases hi : i = n
      · simp [hi, hcall, MaekawaCall.opened, MaekawaAction.entersAt,
          MaekawaAction.callsAt]
      · simp [hi, MaekawaAction.entersAt, MaekawaAction.callsAt]
  | @releaseCs n hcall =>
      rw [field_setNode s (·.call.opened) (by rw [hcall]; rfl) i]
      rfl
  | @sendRelease n target resource hmem =>
      rw [call_send, field_setNode s (·.call) (by rfl) i]
      rfl
  | @deliver p q packet rest hqueue hhandler =>
      rw [node_setLink, field_setNode s (·.call) (by rfl) i]
      rfl
  | @handle p q msg htask =>
      rw [opened_handle]
      rfl
  | @sendRelinquish p q voter resource htask =>
      rw [call_send]
      rfl
  | tick n receivedTime =>
      rw [field_setNode s (·.call) (by rfl) i]
      rfl

end Run

/--
In a run in which no vote is given back in the window before `_in_cs` is set, where
no further step is possible every caller is idle, nothing is left to send or to
handle, and every node has entered as often as it called.
-/
theorem run_maekawaServed (c : QuorumSystem) (actions : List MaekawaAction)
    (s : MaekawaSystem) (hrun : run (step c) new actions = some s)
    (hok : Along (step c) (fun s a => s.unhurried a = true) new actions)
    (hfinished : s.Finished c) :
    (∀ i, (s.node i).call = .idle ∧ (s.node i).releasing = []) ∧
    (∀ i j, s.link i j = ⟨[], none⟩) ∧
    ∀ i, actions.countP (MaekawaAction.entersAt i) =
      actions.countP (MaekawaAction.callsAt i) := by
  have hlive : s.Live c :=
    run_invariant (fun _ _ _ h hok hstep => h.step hok hstep) (live_new c) hok hrun
  have hidle := hlive.idle_of_finished hfinished
  have hstill := still_of_finished hfinished
  refine ⟨fun i => ⟨hidle i, hstill.releasing i⟩, hstill.link, fun i => ?_⟩
  have hpays := run_balance (I := fun _ => True)
    (fun s : MaekawaSystem => (s.node i).call.opened)
    (fun a => if MaekawaAction.entersAt i a then 1 else 0)
    (fun a => if MaekawaAction.callsAt i a then 1 else 0)
    (fun s a s' _ _ hstep => ⟨trivial, opened_step hstep i⟩) trivial hok hrun
  rw [sum_map_ite, sum_map_ite, Nat.one_mul, Nat.one_mul, hidle i] at hpays
  simpa [MaekawaCall.opened, new] using hpays

def leaves (n : NodeId) : List MaekawaAction :=
  .releaseCs n ::
    ((getQuorum n).map fun v => .sendRelease n v (some "x")) ++
    (getQuorum n).flatMap fun v => [.deliver n v, .handle n v]

/-- Node 1, which gave two votes back, enters after node 0. -/
def bothEnter : List MaekawaAction :=
  inTime ++ leaves 0 ++
    [.deliver 0 1, .handle 0 1, .deliver 1 1, .handle 1 1, .enter 1] ++ leaves 1

theorem bothEnter_maekawaServed :
    ∃ s, run (step quorums) new bothEnter = some s ∧ s.Finished quorums ∧
      bothEnter.countP (MaekawaAction.entersAt 1) =
        bothEnter.countP (MaekawaAction.callsAt 1) := by
  have hok : Along (step quorums) (fun s a => s.unhurried a = true) new
      bothEnter := by
    decide +kernel
  have hend : (run (step quorums) new bothEnter).any (fun s =>
      quorums.nodes.all fun i =>
        decide ((s.node i).call = .idle) && (s.node i).releasing.isEmpty &&
        quorums.nodes.all fun j =>
          (s.link i j).queue.isEmpty && (s.link i j).handler.isNone) = true := by
    decide +kernel
  obtain ⟨s, hs, hview⟩ := (Option.any_eq_true _ _).mp hend
  have hall : ∀ i ∈ quorums.nodes, (s.node i).call = .idle ∧
      (s.node i).releasing = [] ∧ ∀ j ∈ quorums.nodes,
        (s.link i j).queue = [] ∧ (s.link i j).handler = none := by
    simpa [and_assoc] using hview
  have hwithin : s.Within quorums.nodes :=
    run_preserves (fun _ _ _ h hstep => h.step (by decide) hstep)
      (within_new quorums.nodes) hs
  have hidle : ∀ i, (s.node i).call = .idle := by
    intro i
    by_contra hne
    exact hne (hall i (hwithin.caller i hne)).1
  have hreleasing : ∀ i, (s.node i).releasing = [] := by
    intro i
    apply List.eq_nil_iff_forall_not_mem.mpr
    intro p hp
    rw [(hall i (hwithin.releasing i p hp).1).2.1] at hp
    cases hp
  have hlink : ∀ i j, s.link i j = ⟨[], none⟩ := by
    intro i j
    cases hl : s.link i j with
    | mk queue handler =>
        cases handler with
        | some task =>
            obtain ⟨hi, hj, -⟩ := hwithin.handler i j task (by simp [hl])
            have hnone := ((hall i hi).2.2 j hj).2
            simp [hl] at hnone
        | none =>
            cases queue with
            | nil => rfl
            | cons packet rest =>
                obtain ⟨hi, hj, -⟩ := hwithin.queue i j packet (by simp [hl])
                have hnil := ((hall i hi).2.2 j hj).1
                simp [hl] at hnil
  have hfinished := finished_of_settled (c := quorums) hidle hreleasing hlink
  exact ⟨s, hs, hfinished,
    (run_maekawaServed quorums bothEnter s hs hok hfinished).2.2 1⟩

end MaekawaSystem

end DistributedMemory.Mutex
