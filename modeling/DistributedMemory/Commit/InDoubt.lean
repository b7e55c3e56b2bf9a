import DistributedMemory.Commit.Atomicity

/-!
# When no participant is left in doubt

A participant waits for the decision from its vote on, and nobody but the
coordinator tells it.  The coordinator sends the decision while
`coordinate_commit` runs, and again while attempts are left and the
acknowledgement is missing; `recover_pending` logs a decision and sends nothing.

The messages in flight are kept apart here: each is handled once, or lost.
-/

namespace DistributedMemory.Commit

open DistributedMemory.Library DistributedMemory.Network
open DistributedMemory.Recovery DistributedMemory.Storage

/-- The message is a decision for `t`. -/
def TwoPhaseMsg.decides (t : TxnId) : TwoPhaseMsg → Bool
  | .decision u _ => u = t
  | _ => false

def TwoPhaseAction.consumes : TwoPhaseAction → Option Packet
  | .vote n t v => some (n, .vote t v)
  | .ack n t => some (n, .ack t)
  | .prepare n t _ => some (n, .prepare t)
  | .decision n t d _ => some (n, .decision t d)
  | _ => none

structure FlightSystem where
  system : TwoPhaseSystem
  inFlight : List Packet

inductive FlightAction where
  | act (a : TwoPhaseAction)
  | lose (p : Packet)
  deriving DecidableEq

/-- The round of sends that runs will reach `n`. -/
def Coordination.sends (call : Coordination) (n : NodeId) : Bool :=
  match call.phase with
  | .announcing _ _ targets => n ∈ targets
  | _ => n ∈ call.participants

def Coordination.retries (call : Coordination) (ackRetries : Nat)
    (acks : Finset NodeId) (n : NodeId) : Bool :=
  match call.phase with
  | .announcing _ attempt _ => attempt < ackRetries && n ∉ acks
  | _ => false

namespace TwoPhaseCoordinator

/-- `coordinate_commit` will send `n` the decision in this round. -/
def Sends (c : TwoPhaseCoordinator) (t : TxnId) (n : NodeId) : Prop :=
  ∃ call ∈ c.calls.get? t, call.sends n = true

/-- As it stands, `coordinate_commit` will send `n` the decision in the next
round. -/
def Retries (c : TwoPhaseCoordinator) (t : TxnId) (n : NodeId) : Prop :=
  ∃ call ∈ c.calls.get? t,
    call.retries c.ackRetries ((c.acks.get? t).getD ∅) n = true

instance (c : TwoPhaseCoordinator) (t : TxnId) (n : NodeId) :
    Decidable (c.Sends t n) :=
  inferInstanceAs (Decidable (∃ call ∈ c.calls.get? t, _))

instance (c : TwoPhaseCoordinator) (t : TxnId) (n : NodeId) :
    Decidable (c.Retries t n) :=
  inferInstanceAs (Decidable (∃ call ∈ c.calls.get? t, _))

end TwoPhaseCoordinator

namespace TwoPhaseSystem

/-- The coordinator has a decision for `t` in its log. -/
def Logged (s : TwoPhaseSystem) (t : TxnId) : Prop :=
  Records [.globalCommit, .globalAbort] (entriesOf s.coordinator.wal) t

/-- `n` has `t` in `_pending_decisions`, or as an ACTIVE transaction. -/
def InDoubt (s : TwoPhaseSystem) (t : TxnId) (n : NodeId) : Prop :=
  (s.participant n).pendingDecisions.get? t ≠ none ∨
    s.statusAt n t = some .active

def participantsOf (s : TwoPhaseSystem) (t : TxnId) : List NodeId :=
  (s.coordinated t).getD []

instance (s : TwoPhaseSystem) (t : TxnId) : Decidable (s.Logged t) :=
  inferInstanceAs (Decidable (Records _ _ _))

instance (s : TwoPhaseSystem) (t : TxnId) (n : NodeId) :
    Decidable (s.InDoubt t n) :=
  inferInstanceAs (Decidable (_ ∨ _))

end TwoPhaseSystem

namespace FlightSystem

def new (ackRetries : Nat) (managers : NodeId → TransactionManager) :
    FlightSystem :=
  ⟨.new (some .new) ackRetries managers, []⟩

instance : LawfulBEq Packet := inferInstance

/-- `network` keeps what was sent, so that a step has sent what is new there. -/
def step (f : FlightSystem) : FlightAction → Option FlightSystem
  | .act a =>
      if ∀ p ∈ a.consumes, p ∈ f.inFlight then
        (f.system.step a).map fun system =>
          ⟨system, a.consumes.elim f.inFlight f.inFlight.erase ++
            system.network.drop f.system.network.length⟩
      else none
  | .lose p =>
      if p ∈ f.inFlight then some { f with inFlight := f.inFlight.erase p }
      else none

/-- A decision for `t` is on its way to `n`. -/
def Informs (t : TxnId) (n : NodeId) (inFlight : List Packet) : Prop :=
  ∃ p ∈ inFlight, p.1 = n ∧ p.2.decides t = true

instance (t : TxnId) (n : NodeId) (inFlight : List Packet) :
    Decidable (Informs t n inFlight) :=
  inferInstanceAs (Decidable (∃ p ∈ inFlight, _ ∧ _))

/-- `n` will still be told the decision for `t`, unless a message is lost. -/
def Awaits (f : FlightSystem) (t : TxnId) (n : NodeId) : Prop :=
  Informs t n f.inFlight ∨ f.system.coordinator.Sends t n ∨
    f.system.coordinator.Retries t n

instance (f : FlightSystem) (t : TxnId) (n : NodeId) :
    Decidable (f.Awaits t n) :=
  inferInstanceAs (Decidable (_ ∨ _ ∨ _))

/-- The participants that the step leaves in doubt about a decision in the log are
still told it:
* a decision that is lost has another copy in flight, or is sent again,
* the coordinator crashes when the decision is on its way,
* `recover_pending` decides when nobody is in doubt,
* PREPARE comes before the decision, or a decision follows it,
* an acknowledgement of a participant in doubt does not stop the sends to it. -/
def Keeps (t : TxnId) (f : FlightSystem) (a : FlightAction) : Prop :=
  ∀ n ∈ f.system.participantsOf t,
    match a with
    | .lose p => f.system.Logged t → f.system.InDoubt t n →
        Informs t n (f.inFlight.erase p) ∨ f.system.coordinator.Sends t n ∨
          f.system.coordinator.Retries t n
    | .act .crash => f.system.Logged t → f.system.InDoubt t n →
        Informs t n f.inFlight
    | .act (.recoverNext u) => u = t → ¬ f.system.InDoubt t n
    | .act (.prepare m u _) => m = n → u = t → f.system.Logged t →
        f.Awaits t n
    | .act (.ack m u) => m = n → u = t → f.system.Logged t →
        f.system.InDoubt t n →
          Informs t n f.inFlight ∨ f.system.coordinator.Sends t n
    | _ => True

instance (t : TxnId) (f : FlightSystem) : ∀ a, Decidable (Keeps t f a)
  | .lose p => inferInstanceAs (Decidable (∀ n ∈ f.system.participantsOf t,
      f.system.Logged t → f.system.InDoubt t n →
        Informs t n (f.inFlight.erase p) ∨ f.system.coordinator.Sends t n ∨
          f.system.coordinator.Retries t n))
  | .act .crash => inferInstanceAs (Decidable
      (∀ n ∈ f.system.participantsOf t, f.system.Logged t →
        f.system.InDoubt t n → Informs t n f.inFlight))
  | .act (.recoverNext u) => inferInstanceAs (Decidable
      (∀ n ∈ f.system.participantsOf t, u = t → ¬ f.system.InDoubt t n))
  | .act (.prepare m u _) => inferInstanceAs (Decidable
      (∀ n ∈ f.system.participantsOf t, m = n → u = t → f.system.Logged t →
        f.Awaits t n))
  | .act (.ack m u) => inferInstanceAs (Decidable
      (∀ n ∈ f.system.participantsOf t, m = n → u = t → f.system.Logged t →
        f.system.InDoubt t n →
          Informs t n f.inFlight ∨ f.system.coordinator.Sends t n))
  | .act (.coordinate _ _) | .act (.advance _ _) | .act (.vote _ _ _)
  | .act (.decision _ _ _ _) | .act (.manager _ _) | .act (.record _ _ _ _ _)
  | .act .recoverPending | .act .recovered => isTrue fun _ _ => trivial

def WellUsed (f : FlightSystem) : FlightAction → Prop
  | .act a => f.system.WellUsed a
  | .lose _ => True

instance (f : FlightSystem) : ∀ a, Decidable (f.WellUsed a)
  | .act a => inferInstanceAs (Decidable (f.system.WellUsed a))
  | .lose _ => isTrue trivial

/-- No participant is in doubt about a decision in the log. -/
def Informed (f : FlightSystem) (t : TxnId) : Prop :=
  f.system.Logged t → ∀ n ∈ f.system.participantsOf t,
    ¬ f.system.InDoubt t n

/-- No message is in flight, and no `coordinate_commit` is running. -/
def Quiet (f : FlightSystem) : Prop :=
  f.inFlight = [] ∧ f.system.coordinator.calls.items = []

end FlightSystem

/-! ## What a step changes -/

namespace TwoPhaseSystem

variable {s s' : TwoPhaseSystem} {a : TwoPhaseAction} {t : TxnId} {n : NodeId}

private theorem asked_iff : s.Asked n t ↔ n ∈ s.participantsOf t := by
  unfold Asked participantsOf
  cases s.coordinated t <;> simp

private theorem logged_step (hopened : s.coordinator.wal ≠ none)
    (hstep : s.step a = some s') (h : s'.Logged t) : s.Logged t ∨
      (∃ order call d, a = .advance t order ∧
        s.coordinator.calls.get? t = some call ∧ call.phase = .counted d) ∨ a = .recoverNext t := by
  rcases step_wal hstep with hsame |
    ⟨u, type, resource, before, after, hwal, hdecides⟩
  · rw [Logged, hsame] at h
    exact .inl h
  · rw [Logged, hwal, records_logEntry hopened] at h
    rcases h with hold | ⟨hmem, rfl⟩
    · exact .inl hold
    · exact .inr (hdecides hmem)

private theorem pending_step (hstep : s.step a = some s') :
    (s'.participant n).pendingDecisions.get? t =
        (s.participant n).pendingDecisions.get? t ∨
      (∃ canCommit, a = .prepare n t canCommit) ∨
        ∃ d order, a = .decision n t d order := by
  have hother : ∀ {m p}, s'.participant = Function.update s.participant m p →
      n ≠ m → (s'.participant n).pendingDecisions.get? t =
        (s.participant n).pendingDecisions.get? t := by
    intro m p hparticipant hm
    rw [hparticipant, Function.update_of_ne hm]
  cases step_participates hstep with
  | silent _ same handled => exact .inl (by rw [same])
  | voted m u canCommit participant handled =>
      by_cases hm : n = m
      · subst hm
        by_cases hu : t = u
        · subst hu
          exact .inr (.inl ⟨canCommit, rfl⟩)
        · left
          rw [participant, Function.update_self]
          cases canCommit <;> exact Dict.get?_set_ne _ _ hu
      · exact .inl (hother participant hm)
  | decided m u d order sent iterates participant handled =>
      by_cases hm : n = m
      · subst hm
        by_cases hu : t = u
        · subst hu
          exact .inr (.inr ⟨d, order, rfl⟩)
        · left
          rw [participant, Function.update_self]
          exact (Dict.get?_pop _ _ _).trans (if_neg hu)
      · exact .inl (hother participant hm)
  | moved m b manager hmanager participant handled =>
      by_cases hm : n = m
      · subst hm
        left
        rw [participant, Function.update_self]
      · exact .inl (hother participant hm)

private theorem inDoubt_step (hlogs : ∀ n, (s.participant n).manager.wal ≠ none)
    (hreserved : Reserved (s.participant n).manager t)
    (hstep : s.step a = some s') (h : s'.InDoubt t n) :
    s.InDoubt t n ∨ (∃ canCommit, a = .prepare n t canCommit) ∨
      ∃ d order, a = .decision n t d order := by
  rcases h with hpending | hactive
  · rcases pending_step hstep with hsame | hcases
    · exact .inl (.inl (hsame ▸ hpending))
    · exact .inr hcases
  · obtain ⟨hat, -⟩ := step_at hlogs hreserved hstep
    cases hat with
    | other _ status voted handled => exact .inl (.inr (status ▸ hactive))
    | prepared canCommit status handled => exact .inr (.inl ⟨canCommit, rfl⟩)
    | decided d order sent status voted => exact .inr (.inr ⟨d, order, rfl⟩)
    | ended b active action voted handled => exact .inl (.inr active)

private theorem not_inDoubt_of_decision {d : Decision} {order : List Resource}
    (hstep : s.step (.decision n t d order) = some s') : ¬ s'.InDoubt t n := by
  obtain ⟨-, heq⟩ := Option.ite_none_right_eq_some.mp hstep
  obtain rfl := Option.some.inj heq
  have hhere : ∀ p, (s.setParticipant n p).participant n = p :=
    fun p => Function.update_self _ _ _
  rintro (hpending | hactive)
  · apply hpending
    dsimp only
    rw [hhere]
    exact (Dict.get?_pop _ _ _).trans (if_pos rfl)
  · have hstatus := decide_statusOf (s.participant n).manager t d order t
    simp only [statusAt, hhere, TwoPhaseParticipant.handleDecision] at hactive
    rw [hstatus] at hactive
    split at hactive
    · cases d <;> cases hactive
    · next hother => exact hother ⟨rfl, hactive⟩

end TwoPhaseSystem

/-! ## What the coordinator still sends -/

namespace TwoPhaseCoordinator

variable {c c' : TwoPhaseCoordinator} {t : TxnId} {n : NodeId}

theorem Sends.frame (h : c.Sends t n)
    (hcalls : c'.calls.get? t = c.calls.get? t) : c'.Sends t n := by
  rwa [Sends, hcalls]

theorem Retries.frame (h : c.Retries t n)
    (hcalls : c'.calls.get? t = c.calls.get? t)
    (hacks : c'.acks.get? t = c.acks.get? t)
    (hretries : c'.ackRetries = c.ackRetries) : c'.Retries t n := by
  rwa [Retries, hcalls, hacks, hretries]

theorem sends_setPhase (c : TwoPhaseCoordinator) (call : Coordination)
    (phase : CallPhase) (n : NodeId) : (c.setPhase t call phase).Sends t n ↔
      ({ call with phase := phase } : Coordination).sends n = true := by
  simp [Sends, setPhase, Dict.get?_set_self]

private theorem retries_setPhase (c : TwoPhaseCoordinator) (call : Coordination)
    (phase : CallPhase) (n : NodeId) : (c.setPhase t call phase).Retries t n ↔
      ({ call with phase := phase } : Coordination).retries c.ackRetries
        ((c.acks.get? t).getD ∅) n = true := by
  simp [Retries, setPhase, Dict.get?_set_self]

theorem card_acks_lt {acks : Finset NodeId} {participants : List NodeId}
    (hacks : ∀ m ∈ acks, m ∈ participants) (hn : n ∈ participants)
    (hmissing : n ∉ acks) : acks.card < participants.length := by
  have hsub : acks ⊆ participants.toFinset.erase n := by
    intro m hm
    refine Finset.mem_erase.mpr ⟨?_, List.mem_toFinset.mpr (hacks m hm)⟩
    rintro rfl
    exact hmissing hm
  have hle := Finset.card_le_card hsub
  have hlt := Finset.card_erase_lt_of_mem (List.mem_toFinset.mpr hn)
  exact Nat.lt_of_le_of_lt hle
    (Nat.lt_of_lt_of_le hlt (List.toFinset_card_le participants))

private theorem advance_owes {call : Coordination} {order : List NodeId}
    (hlists : c.Lists t call order)
    (hacks : ∀ m ∈ (c.acks.get? t).getD ∅, m ∈ call.participants)
    (hn : n ∈ call.participants) (h : call.sends n = true ∨
      call.retries c.ackRetries ((c.acks.get? t).getD ∅) n = true) :
    (c.advance t call order).1.Sends t n ∨ (c.advance t call order).1.Retries t n ∨
      ∃ d, (n, TwoPhaseMsg.decision t d) ∈ (c.advance t call order).2 := by
  unfold advance
  split
  · left
    rw [sends_setPhase]
    simpa [Coordination.sends] using hn
  · left
    rw [sends_setPhase]
    simpa [Coordination.sends] using hn
  · left
    rw [sends_setPhase]
    simpa [Coordination.sends] using hn
  · left
    rw [sends_setPhase]
    simpa [Coordination.sends] using hn
  · next d attempt m rest hphase =>
    rw [sends_setPhase, retries_setPhase]
    simp only [Coordination.sends, Coordination.retries, hphase,
      decide_eq_true_eq, List.mem_cons] at h ⊢
    rcases h with (rfl | hrest) | hretry
    · exact .inr (.inr ⟨d, .inl rfl⟩)
    · exact .inl hrest
    · exact .inr (.inl hretry)
  · next d attempt hphase =>
    simp only [Coordination.sends, Coordination.retries, hphase,
      List.not_mem_nil, decide_false, Bool.false_eq_true, false_or,
      Bool.and_eq_true, decide_eq_true_eq] at h
    obtain ⟨hattempt, hmissing⟩ := h
    have hcard := card_acks_lt hacks hn hmissing
    dsimp only
    rw [if_neg (by omega), sends_setPhase]
    left
    simpa [Coordination.sends] using hlists.mem_of_missing hn hmissing

theorem advance_frame {u : TxnId} (hu : t ≠ u) (call : Coordination)
    (order : List NodeId) :
    (c.advance u call order).1.calls.get? t = c.calls.get? t ∧
      (c.advance u call order).1.acks.get? t = c.acks.get? t ∧
      (c.advance u call order).1.ackRetries = c.ackRetries := by
  unfold advance
  split
  · exact ⟨Dict.get?_set_ne _ _ hu, rfl, rfl⟩
  · exact ⟨Dict.get?_set_ne _ _ hu, rfl, rfl⟩
  · exact ⟨Dict.get?_set_ne _ _ hu, rfl, rfl⟩
  · exact ⟨Dict.get?_set_ne _ _ hu, rfl, rfl⟩
  · exact ⟨Dict.get?_set_ne _ _ hu, rfl, rfl⟩
  · dsimp only
    split
    · exact ⟨(Dict.get?_pop _ _ _).trans (if_neg hu),
        (Dict.get?_pop _ _ _).trans (if_neg hu), rfl⟩
    · exact ⟨Dict.get?_set_ne _ _ hu, rfl, rfl⟩

theorem advance_sent {u : TxnId} {call : Coordination} {order : List NodeId}
    {p : Packet} (hp : p ∈ (c.advance u call order).2) :
    p.2 = .prepare u ∨ ∃ d, p.2 = .decision u d := by
  unfold advance at hp
  split at hp
  · cases hp
  · exact .inl (congrArg Prod.snd (List.mem_singleton.mp hp))
  · cases hp
  · cases hp
  · exact .inr ⟨_, congrArg Prod.snd (List.mem_singleton.mp hp)⟩
  · dsimp only at hp
    split at hp <;> cases hp

private theorem advance_acks (c : TwoPhaseCoordinator) (t : TxnId)
    (call : Coordination) (order : List NodeId) :
    (c.advance t call order).1.acks = c.acks ∨
      (c.advance t call order).1.acks.get? t = none := by
  unfold advance
  split
  · exact .inl rfl
  · exact .inl rfl
  · exact .inl rfl
  · exact .inl rfl
  · exact .inl rfl
  · dsimp only
    split
    · exact .inr ((Dict.get?_pop _ _ _).trans (if_pos rfl))
    · exact .inl rfl

private theorem handleAck_owes {u : TxnId} {m : NodeId}
    (hack : m = n → u = t → c.Sends t n) (h : c.Sends t n ∨ c.Retries t n) :
    (c.handleAck u m).Sends t n ∨ (c.handleAck u m).Retries t n := by
  unfold handleAck
  split
  · next acks hacks =>
    rcases h with hsends | hretries
    · exact .inl (hsends.frame rfl)
    · by_cases hu : t = u
      · subst hu
        by_cases hm : m = n
        · exact .inl ((hack hm rfl).frame rfl)
        · right
          obtain ⟨call, hcall, hretries⟩ := hretries
          refine ⟨call, hcall, ?_⟩
          rw [hacks, Option.getD_some] at hretries
          simp only [Dict.get?_set_self, Option.getD_some]
          unfold Coordination.retries at hretries ⊢
          split at hretries
          · simpa [Ne.symm hm] using hretries
          · cases hretries
      · exact .inr (hretries.frame rfl (Dict.get?_set_ne _ _ hu) rfl)
  · exact h

end TwoPhaseCoordinator

namespace TwoPhaseSystem

variable {s s' : TwoPhaseSystem} {a : TwoPhaseAction} {t : TxnId} {n : NodeId}

/-- What a step does to the calls of `coordinate_commit`, to their tables and to
the network. -/
inductive Coordinates (s s' : TwoPhaseSystem) : TwoPhaseAction → Prop where
  | kept (a : TwoPhaseAction)
      (calls : s'.coordinator.calls = s.coordinator.calls)
      (acks : s'.coordinator.acks = s.coordinator.acks)
      (ackRetries : s'.coordinator.ackRetries = s.coordinator.ackRetries)
      (coordinated : s'.coordinated = s.coordinated)
      (network : s'.network = s.network) : Coordinates s s' a
  | called (u : TxnId) (participants : List NodeId)
      (coordinator :
        s'.coordinator = s.coordinator.coordinateCommit u participants)
      (coordinated :
        s'.coordinated = Function.update s.coordinated u (some participants))
      (network : s'.network = s.network) :
      Coordinates s s' (.coordinate u participants)
  | advanced (u : TxnId) (order : List NodeId) (call : Coordination)
      (running : s.coordinator.calls.get? u = some call)
      (lists : s.coordinator.Lists u call order)
      (coordinator : s'.coordinator = (s.coordinator.advance u call order).1)
      (coordinated : s'.coordinated = s.coordinated)
      (network :
        s'.network = s.network ++ (s.coordinator.advance u call order).2) :
      Coordinates s s' (.advance u order)
  | counted (m : NodeId) (u : TxnId)
      (coordinator : s'.coordinator = s.coordinator.handleAck u m)
      (coordinated : s'.coordinated = s.coordinated)
      (network : s'.network = s.network) : Coordinates s s' (.ack m u)
  | voted (m : NodeId) (u : TxnId) (canCommit : Bool) (v : Vote)
      (coordinator : s'.coordinator = s.coordinator)
      (coordinated : s'.coordinated = s.coordinated)
      (network : s'.network = s.network ++ [(m, .vote u v)]) :
      Coordinates s s' (.prepare m u canCommit)
  | acknowledged (m : NodeId) (u : TxnId) (d : Decision) (order : List Resource)
      (sent : (m, .decision u d) ∈ s.network)
      (coordinator : s'.coordinator = s.coordinator)
      (coordinated : s'.coordinated = s.coordinated)
      (network : s'.network = s.network ++ [(m, .ack u)]) :
      Coordinates s s' (.decision m u d order)
  | crashed (coordinator : s'.coordinator = s.coordinator.crash)
      (coordinated : s'.coordinated = s.coordinated)
      (network : s'.network = s.network) : Coordinates s s' .crash

theorem step_coordinates (hstep : s.step a = some s') : Coordinates s s' a := by
  cases a with
  | coordinate u participants =>
      cases hstep
      exact .called u participants rfl rfl rfl
  | advance u order =>
      obtain ⟨call, hcall, hlists, rfl⟩ := step_advance hstep
      exact .advanced u order call hcall hlists rfl rfl rfl
  | vote m u v =>
      simp only [step] at hstep
      split at hstep <;> cases hstep
      have hsame : (s.coordinator.handleVote u m v).calls =
          s.coordinator.calls ∧ (s.coordinator.handleVote u m v).acks =
          s.coordinator.acks ∧ (s.coordinator.handleVote u m v).ackRetries =
          s.coordinator.ackRetries := by
        unfold TwoPhaseCoordinator.handleVote
        split <;> exact ⟨rfl, rfl, rfl⟩
      exact .kept _ hsame.1 hsame.2.1 hsame.2.2 rfl rfl
  | ack m u =>
      simp only [step] at hstep
      split at hstep <;> cases hstep
      exact .counted m u rfl rfl rfl
  | prepare m u canCommit =>
      simp only [step] at hstep
      split at hstep <;> cases hstep
      exact .voted m u canCommit _ rfl rfl rfl
  | decision m u d order =>
      simp only [step] at hstep
      split at hstep
      · next hcan =>
        cases hstep
        exact .acknowledged m u d order hcan.1 rfl rfl rfl
      · cases hstep
  | recoverNext u =>
      simp only [step] at hstep
      split at hstep
      · split at hstep <;> cases hstep
        exact .kept _ rfl rfl rfl rfl rfl
      · cases hstep
  | record | recovered =>
      simp only [step] at hstep
      split at hstep <;> cases hstep
      exact .kept _ rfl rfl rfl rfl rfl
  | manager m b =>
      obtain ⟨manager, hmanager, rfl⟩ := Option.map_eq_some_iff.mp hstep
      exact .kept _ rfl rfl rfl rfl rfl
  | crash =>
      cases hstep
      exact .crashed rfl rfl rfl
  | recoverPending =>
      cases hstep
      exact .kept _ rfl rfl rfl rfl rfl

private theorem owes_step (hinv : s.Inv) (hused : s.WellUsed a)
    (hacks : ∀ m ∈ (s.coordinator.acks.get? t).getD ∅, m ∈ s.participantsOf t)
    (hn : n ∈ s.participantsOf t) (hcrash : a ≠ .crash)
    (hack : a = .ack n t → s.coordinator.Sends t n)
    (h : s.coordinator.Sends t n ∨ s.coordinator.Retries t n)
    (hstep : s.step a = some s') :
    s'.coordinator.Sends t n ∨ s'.coordinator.Retries t n ∨
      ∃ d, (n, TwoPhaseMsg.decision t d) ∈
        s'.network.drop s.network.length := by
  have hframe : s'.coordinator.calls.get? t = s.coordinator.calls.get? t →
      s'.coordinator.acks.get? t = s.coordinator.acks.get? t →
      s'.coordinator.ackRetries = s.coordinator.ackRetries →
      s'.coordinator.Sends t n ∨ s'.coordinator.Retries t n ∨
        ∃ d, (n, TwoPhaseMsg.decision t d) ∈
          s'.network.drop s.network.length := by
    intro hcalls hacks hretries
    rcases h with h | h
    · exact .inl (h.frame hcalls)
    · exact .inr (.inl (h.frame hcalls hacks hretries))
  cases step_coordinates hstep with
  | kept _ calls acks ackRetries coordinated network =>
      exact hframe (by rw [calls]) (by rw [acks]) ackRetries
  | called u participants coordinator coordinated network =>
      have hu : t ≠ u := by
        rintro rfl
        obtain ⟨hnone, -⟩ := hused
        simp [participantsOf, hnone] at hn
      rw [coordinator] at hframe ⊢
      exact hframe (Dict.get?_set_ne _ _ hu) (Dict.get?_set_ne _ _ hu) rfl
  | advanced u order call running lists coordinator coordinated network =>
      by_cases hu : t = u
      · subst hu
        have hparticipants : s.participantsOf t = call.participants := by
          rw [participantsOf, (hinv.calls t call running).1]
          rfl
        rw [hparticipants] at hacks hn
        rw [coordinator, network, List.drop_left]
        apply TwoPhaseCoordinator.advance_owes lists hacks hn
        rcases h with ⟨call', hcall', h⟩ | ⟨call', hcall', h⟩
        · cases running.symm.trans hcall'
          exact .inl h
        · cases running.symm.trans hcall'
          exact .inr h
      · obtain ⟨hcalls, hacks, hretries⟩ :=
          s.coordinator.advance_frame hu call order
        rw [coordinator] at hframe ⊢
        exact hframe hcalls hacks hretries
  | counted m u coordinator coordinated network =>
      have howes := s.coordinator.handleAck_owes (u := u) (m := m)
        (fun hm hu => hack (by rw [hm, hu])) h
      rw [coordinator]
      rcases howes with h | h
      · exact .inl h
      · exact .inr (.inl h)
  | voted m u canCommit v coordinator coordinated network =>
      rw [coordinator] at hframe ⊢
      exact hframe rfl rfl rfl
  | acknowledged m u d order sent coordinator coordinated network =>
      rw [coordinator] at hframe ⊢
      exact hframe rfl rfl rfl
  | crashed => exact absurd rfl hcrash

theorem participants_step (hused : s.WellUsed a) (hstep : s.step a = some s') :
    (∃ participants, a = .coordinate t participants ∧ s.participantsOf t = []) ∨
      s'.participantsOf t = s.participantsOf t := by
  have hsame : s'.coordinated = s.coordinated →
      s'.participantsOf t = s.participantsOf t := by
    intro heq
    rw [participantsOf, participantsOf, heq]
  cases step_coordinates hstep with
  | called u participants coordinator coordinated network =>
      by_cases hu : t = u
      · subst hu
        obtain ⟨hnone, -⟩ := hused
        refine .inl ⟨participants, rfl, ?_⟩
        simp [participantsOf, hnone]
      · right
        simp [participantsOf, coordinated, hu]
  | _ => exact .inr (hsame ‹_›)

theorem mem_of_sent_ack (hinv : s.Inv) (hstep : s.step a = some s')
    (hsent : (n, TwoPhaseMsg.ack t) ∈ s'.network.drop s.network.length) :
    n ∈ s.participantsOf t := by
  have hnone : s'.network = s.network → n ∈ s.participantsOf t := by
    intro hsame
    rw [hsame, List.drop_length] at hsent
    cases hsent
  cases step_coordinates hstep with
  | advanced u order call running lists coordinator coordinated network =>
      rw [network, List.drop_left] at hsent
      rcases s.coordinator.advance_sent hsent with hmsg | ⟨d, hmsg⟩
      · cases hmsg
      · cases hmsg
  | voted m u canCommit v coordinator coordinated network =>
      simp [network] at hsent
  | acknowledged m u d order sent coordinator coordinated network =>
      simp only [network, List.drop_left, List.mem_singleton, Prod.mk.injEq,
        TwoPhaseMsg.ack.injEq] at hsent
      obtain ⟨rfl, rfl⟩ := hsent
      exact asked_iff.mp (hinv.network _ sent).1
  | _ => exact hnone ‹_›

theorem mem_acks_step (hstep : s.step a = some s')
    (hn : n ∈ (s'.coordinator.acks.get? t).getD ∅) :
    n ∈ (s.coordinator.acks.get? t).getD ∅ ∨ a = .ack n t := by
  cases step_coordinates hstep with
  | kept _ calls acks ackRetries coordinated network =>
      rw [acks] at hn
      exact .inl hn
  | called u participants coordinator coordinated network =>
      rw [coordinator, TwoPhaseCoordinator.coordinateCommit] at hn
      dsimp only at hn
      rw [Dict.get?_set] at hn
      split at hn
      · simp at hn
      · exact .inl hn
  | advanced u order call running lists coordinator coordinated network =>
      left
      rw [coordinator] at hn
      by_cases hu : t = u
      · subst hu
        rcases s.coordinator.advance_acks t call order with hsame | hnone
        · rwa [hsame] at hn
        · simp [hnone] at hn
      · rwa [(s.coordinator.advance_frame hu call order).2.1] at hn
  | counted m u coordinator coordinated network =>
      rw [coordinator, TwoPhaseCoordinator.handleAck] at hn
      split at hn
      · next acks hacks =>
        dsimp only at hn
        rw [Dict.get?_set] at hn
        split at hn
        · next hu =>
          subst hu
          rcases Finset.mem_insert.mp hn with rfl | hn
          · exact .inr rfl
          · left
            rwa [hacks]
        · exact .inl hn
      · exact .inl hn
  | voted m u canCommit v coordinator coordinated network =>
      rw [coordinator] at hn
      exact .inl hn
  | acknowledged m u d order sent coordinator coordinated network =>
      rw [coordinator] at hn
      exact .inl hn
  | crashed coordinator coordinated network =>
      rw [coordinator] at hn
      simp [TwoPhaseCoordinator.crash, TwoPhaseCoordinator.new] at hn

end TwoPhaseSystem

/-! ## Runs -/

namespace FlightSystem

variable {f f' : FlightSystem} {t : TxnId} {n : NodeId}

structure Inv (t : TxnId) (f : FlightSystem) : Prop where
  system : f.system.Inv
  reserved : ∀ n, TwoPhaseSystem.Reserved (f.system.participant n).manager t
  acked : ∀ n, (n, TwoPhaseMsg.ack t) ∈ f.inFlight →
    n ∈ f.system.participantsOf t
  acks : ∀ n ∈ (f.system.coordinator.acks.get? t).getD ∅,
    n ∈ f.system.participantsOf t
  awaits : f.system.Logged t → ∀ n ∈ f.system.participantsOf t,
    f.system.InDoubt t n → f.Awaits t n

theorem inv_new (ackRetries : Nat) {managers : NodeId → TransactionManager}
    (hlogs : ∀ n, (managers n).wal ≠ none)
    (hreserved : ∀ n, TwoPhaseSystem.Reserved (managers n) t) :
    (new ackRetries managers).Inv t where
  system := TwoPhaseSystem.inv_new ackRetries hlogs
  reserved := hreserved
  acked n hn := by cases hn
  acks n hn := by
    simp [new, TwoPhaseSystem.new, TwoPhaseCoordinator.new] at hn
  awaits _ n hn := by cases hn

theorem Informs.act {inFlight sent : List Packet} {a : TwoPhaseAction}
    (h : Informs t n inFlight) (hother : ∀ d order, a ≠ .decision n t d order) :
    Informs t n (a.consumes.elim inFlight inFlight.erase ++ sent) := by
  obtain ⟨⟨m, msg⟩, hmem, rfl, hdecides⟩ := h
  refine ⟨(m, msg), List.mem_append_left _ ?_, rfl, hdecides⟩
  have hkeep : ∀ q : Packet, (m, msg) ≠ q → (m, msg) ∈ inFlight.erase q :=
    fun q hne => (List.mem_erase_of_ne hne).mpr hmem
  cases a with
  | decision m' u d order =>
      apply hkeep
      rintro heq
      cases heq
      obtain rfl : u = t := of_decide_eq_true hdecides
      exact hother d order rfl
  | vote m' u v =>
      apply hkeep
      rintro heq
      cases heq
      cases hdecides
  | ack m' u =>
      apply hkeep
      rintro heq
      cases heq
      cases hdecides
  | prepare m' u canCommit =>
      apply hkeep
      rintro heq
      cases heq
      cases hdecides
  | _ => exact hmem

private theorem informs_of_sent {inFlight sent : List Packet} {d : Decision}
    (h : (n, TwoPhaseMsg.decision t d) ∈ sent) :
    Informs t n (inFlight ++ sent) := by
  refine ⟨_, List.mem_append_right _ h, rfl, ?_⟩
  simp [TwoPhaseMsg.decides]

theorem Inv.lose (h : f.Inv t) {p : Packet} (hkeeps : Keeps t f (.lose p)) :
    Inv t { f with inFlight := f.inFlight.erase p } where
  system := h.system
  reserved := h.reserved
  acked n hn := h.acked n (List.mem_of_mem_erase hn)
  acks := h.acks
  awaits hlogged n hn hdoubt := hkeeps n hn hlogged hdoubt

theorem Inv.awaits_act (h : f.Inv t) {a : TwoPhaseAction} {s' : TwoPhaseSystem}
    (hused : f.system.WellUsed a) (hkeeps : Keeps t f (.act a))
    (hstep : f.system.step a = some s') (hn : n ∈ f.system.participantsOf t)
    (hdoubt : a = .crash ∨ a = .ack n t →
      f.system.Logged t ∧ f.system.InDoubt t n)
    (hother : ∀ d order, a ≠ .decision n t d order)
    (hawaits : f.Awaits t n) :
    Awaits ⟨s', a.consumes.elim f.inFlight f.inFlight.erase ++
      s'.network.drop f.system.network.length⟩ t n := by
  have hkept := hkeeps n hn
  rcases hawaits with hinforms | howes
  · exact .inl (hinforms.act hother)
  · by_cases hcrash : a = .crash
    · subst hcrash
      obtain ⟨hlogged, hdoubt⟩ := hdoubt (.inl rfl)
      exact .inl ((hkept hlogged hdoubt).act hother)
    · by_cases hack : a = .ack n t → f.system.coordinator.Sends t n
      · rcases TwoPhaseSystem.owes_step h.system hused h.acks hn hcrash hack howes
          hstep with hsends | hretries | ⟨d, hsent⟩
        · exact .inr (.inl hsends)
        · exact .inr (.inr hretries)
        · exact .inl (informs_of_sent hsent)
      · push Not at hack
        obtain ⟨rfl, hnot⟩ := hack
        obtain ⟨hlogged, hdoubt⟩ := hdoubt (.inr rfl)
        have hinforms := (hkept rfl rfl hlogged hdoubt).resolve_right hnot
        exact .inl (hinforms.act hother)

private theorem awaits_coordinate {s s' : TwoPhaseSystem} {participants : List NodeId}
    {inFlight : List Packet}
    (hstep : s.step (.coordinate t participants) = some s')
    (hn : n ∈ s'.participantsOf t) : Awaits ⟨s', inFlight⟩ t n := by
  cases hstep
  right
  left
  refine ⟨⟨participants, .started⟩, Dict.get?_set_self _ _ _, ?_⟩
  simpa [TwoPhaseSystem.participantsOf, Coordination.sends] using hn

theorem Inv.act (h : f.Inv t) {a : TwoPhaseAction} {s' : TwoPhaseSystem}
    (hused : f.system.WellUsed a) (hkeeps : Keeps t f (.act a))
    (hconsumes : ∀ p ∈ a.consumes, p ∈ f.inFlight)
    (hstep : f.system.step a = some s') :
    Inv t ⟨s', a.consumes.elim f.inFlight f.inFlight.erase ++
      s'.network.drop f.system.network.length⟩ := by
  have hgrows : ∀ m ∈ f.system.participantsOf t, m ∈ s'.participantsOf t := by
    intro m hm
    rcases TwoPhaseSystem.participants_step hused hstep (t := t) with
      ⟨participants, -, hnone⟩ | hsame
    · rw [hnone] at hm
      cases hm
    · rwa [hsame]
  refine ⟨h.system.step hused hstep, fun n => ?_, fun n hn => ?_,
    fun n hn => ?_, fun hlogged n hn hdoubt => ?_⟩
  · exact (TwoPhaseSystem.step_at h.system.logs (h.reserved n) hstep).2
  · apply hgrows
    rcases List.mem_append.mp hn with hn | hn
    · apply h.acked
      cases hc : a.consumes with
      | none => rwa [hc] at hn
      | some q =>
          rw [hc] at hn
          exact List.mem_of_mem_erase hn
    · exact TwoPhaseSystem.mem_of_sent_ack h.system hstep hn
  · apply hgrows
    rcases TwoPhaseSystem.mem_acks_step hstep hn with hold | rfl
    · exact h.acks n hold
    · exact h.acked n (hconsumes _ rfl)
  · rcases TwoPhaseSystem.participants_step hused hstep (t := t) with
      ⟨participants, rfl, -⟩ | hsame
    · exact awaits_coordinate hstep hn
    · rw [hsame] at hn
      have hother : ∀ d order, a ≠ .decision n t d order := by
        rintro d order rfl
        exact TwoPhaseSystem.not_inDoubt_of_decision hstep hdoubt
      have hbefore := TwoPhaseSystem.inDoubt_step h.system.logs (h.reserved n)
        hstep hdoubt
      rcases TwoPhaseSystem.logged_step h.system.opened hstep hlogged with
        hold | ⟨order, call, d, rfl, hcall, hphase⟩ | rfl
      · rcases hbefore with hdoubt | ⟨canCommit, rfl⟩ | ⟨d, order, rfl⟩
        · exact h.awaits_act hused hkeeps hstep hn (fun _ => ⟨hold, hdoubt⟩)
            hother (h.awaits hold n hn hdoubt)
        · exact h.awaits_act hused hkeeps hstep hn nofun hother
            (hkeeps n hn rfl rfl hold)
        · exact absurd rfl (hother d order)
      · -- The decision is logged just now; everybody is going to be sent it.
        refine h.awaits_act hused hkeeps hstep hn nofun hother (.inr (.inl ?_))
        refine ⟨call, hcall, ?_⟩
        have hparticipants : f.system.participantsOf t = call.participants := by
          rw [TwoPhaseSystem.participantsOf, (h.system.calls t call hcall).1]
          rfl
        rw [hparticipants] at hn
        simpa [Coordination.sends, hphase] using hn
      · rcases hbefore with hdoubt | ⟨canCommit, heq⟩ | ⟨d, order, heq⟩
        · exact absurd hdoubt (hkeeps n hn rfl)
        · cases heq
        · cases heq

theorem Inv.step (h : f.Inv t) {a : FlightAction} (hused : f.WellUsed a)
    (hkeeps : Keeps t f a) (hstep : f.step a = some f') : f'.Inv t := by
  cases a with
  | lose p =>
      obtain ⟨-, heq⟩ := Option.ite_none_right_eq_some.mp hstep
      obtain rfl := Option.some.inj heq
      exact h.lose hkeeps
  | act a =>
      obtain ⟨hconsumes, hmap⟩ := Option.ite_none_right_eq_some.mp hstep
      obtain ⟨s', hs', rfl⟩ := Option.map_eq_some_iff.mp hmap
      exact h.act hused hkeeps hconsumes hs'

theorem Inv.informed (h : f.Inv t) (hquiet : f.Quiet) : f.Informed t := by
  obtain ⟨hflight, hcalls⟩ := hquiet
  have hnone : f.system.coordinator.calls.get? t = none := by
    rw [Dict.get?_eq_none_iff, hcalls]
    simp
  intro hlogged n hn hdoubt
  rcases h.awaits hlogged n hn hdoubt with ⟨p, hp, -⟩ | ⟨call, hcall, -⟩ |
    ⟨call, hcall, -⟩
  · rw [hflight] at hp
    cases hp
  · rw [hnone] at hcall
    cases hcall
  · rw [hnone] at hcall
    cases hcall

/-- The coordinator crashes before the vote comes in; after the restart
`recover_pending` logs GLOBAL_ABORT and tells nobody. -/
def abortUntold : List FlightAction :=
  [.act (.coordinate "t" [1]), .act (.advance "t" [1]), .act (.advance "t" [1]),
    .act (.prepare 1 "t" true), .act .crash, .act (.vote 1 "t" .commit),
    .act .recoverPending, .act (.recoverNext "t"), .act .recovered]

/-- The first GLOBAL_COMMIT to participant 2 is lost, and the coordinator sends it
another. -/
def oneRetry : List FlightAction :=
  [.act (.coordinate "t" [1, 2]), .act (.advance "t" [1, 2]),
    .act (.advance "t" [1, 2]), .act (.advance "t" [1, 2]),
    .act (.prepare 1 "t" true), .act (.prepare 2 "t" true),
    .act (.vote 2 "t" .commit), .act (.vote 1 "t" .commit),
    .act (.advance "t" [1, 2]), .act (.advance "t" [1, 2]),
    .act (.advance "t" [1, 2]), .act (.advance "t" [1, 2]),
    .lose (2, .decision "t" .commit), .act (.decision 1 "t" .commit []),
    .act (.ack 1 "t"), .act (.advance "t" [2]), .act (.advance "t" [2]),
    .act (.decision 2 "t" .commit []), .act (.ack 2 "t"),
    .act (.advance "t" [])]

end FlightSystem

end DistributedMemory.Commit
