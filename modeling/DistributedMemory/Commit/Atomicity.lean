import DistributedMemory.Commit.Decision

/-!
# All or nothing

The vote does not look at the status of the transaction, and nothing keeps a
participant from aborting it on its own before the decision comes.  A
participant that has done so acknowledges GLOBAL_COMMIT and leaves the
transaction aborted.  In a run where this does not happen, each participant that
has handled the decision has done what the coordinator decided.
-/

namespace DistributedMemory.Commit

open DistributedMemory.Library DistributedMemory.Network
open DistributedMemory.Recovery DistributedMemory.Storage

namespace TwoPhaseSystem

def statusAt (s : TwoPhaseSystem) (n : NodeId) (t : TxnId) :
    Option TransactionStatus :=
  (s.participant n).manager.statusOf t

/-- No two participants that have handled the decision of `t` have ended it in
different ways. -/
def Atomic (s : TwoPhaseSystem) (t : TxnId) : Prop :=
  ∀ m n, (m, t) ∈ s.handled → (n, t) ∈ s.handled →
    ¬ (s.statusAt m t = some .committed ∧ s.statusAt n t = some .aborted)

/-- The participants answer with `_check_can_commit`, and leave the commit of `t`
to the coordinator. -/
def Coordinated (t : TxnId) (s : TwoPhaseSystem) (a : TwoPhaseAction) : Prop :=
  s.WellUsed a ∧
    match a with
    | .prepare n u canCommit => canCommit = (s.participant n).checkCanCommit u
    | .manager _ (.commit u _) => u ≠ t
    | _ => True

/-- GLOBAL_COMMIT finds `t` not aborted. -/
def Applicable (t : TxnId) (s : TwoPhaseSystem) : TwoPhaseAction → Prop
  | .decision n u .commit _ => u = t → s.statusAt n t ≠ some .aborted
  | _ => True

instance (t : TxnId) (s : TwoPhaseSystem) (a : TwoPhaseAction) :
    Decidable (Coordinated t s a) := by
  unfold Coordinated
  split <;> infer_instance

instance (t : TxnId) (s : TwoPhaseSystem) (a : TwoPhaseAction) :
    Decidable (Applicable t s a) := by
  unfold Applicable
  split <;> infer_instance

/-! ## What the steps leave -/

section Steps

variable {s s' : TwoPhaseSystem} {a : TwoPhaseAction}

private theorem advance_wal (c : TwoPhaseCoordinator) (t : TxnId)
    (call : Coordination) (order : List NodeId) :
    (c.advance t call order).1.wal = c.wal ∨
      ∃ type, (c.advance t call order).1.wal =
        c.wal.map (·.logEntry t type "" "" "") ∧
          (type = .prepare ∨ ∃ d, call.phase = .counted d) := by
  unfold TwoPhaseCoordinator.advance
  split
  · exact .inr ⟨.prepare, rfl, .inl rfl⟩
  · exact .inl rfl
  · exact .inl rfl
  · next d hphase =>
    cases d with
    | commit => exact .inr ⟨.globalCommit, rfl, .inr ⟨_, hphase⟩⟩
    | abort => exact .inr ⟨.globalAbort, rfl, .inr ⟨_, hphase⟩⟩
  · exact .inl rfl
  · dsimp only
    split <;> exact .inl rfl

theorem step_wal (hstep : s.step a = some s') :
    s'.coordinator.wal = s.coordinator.wal ∨
      ∃ t type resource before after, s'.coordinator.wal =
        s.coordinator.wal.map (·.logEntry t type resource before after) ∧
        (type ∈ [EntryType.globalCommit, .globalAbort] →
          (∃ order call d, a = .advance t order ∧
            s.coordinator.calls.get? t = some call ∧ call.phase = .counted d) ∨
          a = .recoverNext t) := by
  cases a with
  | advance u order =>
      obtain ⟨call, hcall, -, rfl⟩ := step_advance hstep
      rcases advance_wal s.coordinator u call order with
        hsame | ⟨type, hwal, htype⟩
      · exact .inl hsame
      · refine .inr ⟨u, type, "", "", "", hwal, fun hmem => ?_⟩
        rcases htype with rfl | ⟨d, hphase⟩
        · simp at hmem
        · exact .inl ⟨order, call, d, rfl, hcall, hphase⟩
  | vote n u v =>
      simp only [step] at hstep
      split at hstep <;> cases hstep
      left
      dsimp only [TwoPhaseCoordinator.handleVote]
      split <;> rfl
  | ack n u =>
      simp only [step] at hstep
      split at hstep <;> cases hstep
      left
      dsimp only [TwoPhaseCoordinator.handleAck]
      split <;> rfl
  | record u type resource before after =>
      simp only [step] at hstep
      split at hstep <;> cases hstep
      next htype =>
      refine .inr ⟨u, type, resource, before, after, rfl, fun hmem => ?_⟩
      exact absurd (List.mem_cons_of_mem _ hmem) htype
  | recoverNext u =>
      simp only [step] at hstep
      split at hstep
      · split at hstep <;> cases hstep
        exact .inr ⟨u, .globalAbort, "", "", "", rfl, fun _ => .inr rfl⟩
      · cases hstep
  | prepare | decision | recovered =>
      simp only [step] at hstep
      split at hstep <;> cases hstep
      exact .inl rfl
  | manager n b =>
      obtain ⟨m, hm, rfl⟩ := Option.map_eq_some_iff.mp hstep
      exact .inl rfl
  | coordinate | crash | recoverPending =>
      cases hstep
      exact .inl rfl

theorem step_decided (hopened : s.coordinator.wal ≠ none)
    (hstep : s.step a = some s') {t : TxnId} {d : Decision}
    (h : s.Decided t d) : s'.Decided t d := by
  rcases step_wal hstep with hsame | ⟨u, type, resource, before, after, hwal, -⟩
  · rwa [Decided, hsame]
  · exact (decided_logged hopened hwal t d).mpr (.inl h)

inductive Participates (s s' : TwoPhaseSystem) : TwoPhaseAction → Prop where
  | silent (a : TwoPhaseAction) (same : s'.participant = s.participant)
      (handled : s'.handled = s.handled) : Participates s s' a
  | voted (n : NodeId) (t : TxnId) (canCommit : Bool)
      (participant : s'.participant = Function.update s.participant n
        ((s.participant n).handlePrepare t canCommit).1)
      (handled : s'.handled = s.handled) :
      Participates s s' (.prepare n t canCommit)
  | decided (n : NodeId) (t : TxnId) (d : Decision) (order : List Resource)
      (sent : (n, .decision t d) ∈ s.network)
      (iterates : (s.participant n).manager.Iterates t order)
      (participant : s'.participant = Function.update s.participant n
        ((s.participant n).handleDecision t d order))
      (handled : s'.handled = s.handled ++ [(n, t)]) :
      Participates s s' (.decision n t d order)
  | moved (n : NodeId) (b : TxnAction) (m : TransactionManager)
      (step : (s.participant n).manager.step b = some m)
      (participant : s'.participant = Function.update s.participant n
        { s.participant n with manager := m })
      (handled : s'.handled = s.handled) : Participates s s' (.manager n b)

theorem step_participates (hstep : s.step a = some s') :
    Participates s s' a := by
  cases a with
  | prepare n t canCommit =>
      simp only [step] at hstep
      split at hstep
      · cases hstep
        exact .voted n t canCommit rfl rfl
      · cases hstep
  | decision n t d order =>
      simp only [step] at hstep
      split at hstep
      · next hsent =>
        cases hstep
        exact .decided n t d order hsent.1 hsent.2 rfl rfl
      · cases hstep
  | manager n b =>
      obtain ⟨m, hm, rfl⟩ := Option.map_eq_some_iff.mp hstep
      exact .moved n b m hm rfl rfl
  | advance t order =>
      obtain ⟨call, -, -, rfl⟩ := step_advance hstep
      exact .silent _ rfl rfl
  | recoverNext t =>
      simp only [step] at hstep
      split at hstep
      · split at hstep <;> cases hstep
        exact .silent _ rfl rfl
      · cases hstep
  | vote | ack | record | recovered =>
      simp only [step] at hstep
      split at hstep <;> cases hstep
      exact .silent _ rfl rfl
  | coordinate | crash | recoverPending =>
      cases hstep
      exact .silent _ rfl rfl

end Steps

/-! ## One transaction at one participant -/

theorem decide_statusOf (m : TransactionManager) (t : TxnId) (d : Decision)
    (order : List Resource) (u : TxnId) :
    (TwoPhaseParticipant.decide m t d order).statusOf u =
      if u = t ∧ m.statusOf t = some .active then some d.status
      else m.statusOf u := by
  unfold TwoPhaseParticipant.decide
  cases hget : m.getTransaction t with
  | none =>
      have hunknown : m.statusOf t = none := by
        rw [TransactionManager.statusOf, ← TransactionManager.getTransaction,
          hget, Option.map_none]
      simp [hunknown]
  | some txn =>
      have hstatus : m.statusOf t = some txn.status :=
        congrArg (Option.map Transaction.status) hget
      by_cases h : txn.status = .active
      · have hactive : m.getActive t = some txn :=
          TransactionManager.getActive_eq_some.mpr ⟨hget, h⟩
        simp only [hstatus, h, if_true, and_true]
        cases d with
        | commit => exact TransactionManager.commit_statusOf hactive order u
        | abort => exact TransactionManager.abort_statusOf hactive order u
      · simp [hstatus, h]

/-- `t` is no name that the manager still gives to a new transaction. -/
def Reserved (m : TransactionManager) (t : TxnId) : Prop :=
  ∀ k, m.seq < k → t ≠ txnName m.nodeId k

theorem Reserved.mono {m m' : TransactionManager} {t : TxnId}
    (h : Reserved m t) (hseq : m.seq ≤ m'.seq) (hnode : m'.nodeId = m.nodeId) :
    Reserved m' t := by
  intro k hk
  rw [hnode]
  exact h k (by omega)

theorem step_voted {m m' : TransactionManager} {a : TxnAction}
    (hopened : m.wal ≠ none) (hstep : m.step a = some m') {t : TxnId} :
    Records [.voteCommit] (entriesOf m'.wal) t ↔
      Records [.voteCommit] (entriesOf m.wal) t := by
  rcases TransactionManager.step_wal hstep with hsame |
    ⟨u, type, resource, before, after, htype, hwal⟩
  · rw [hsame]
  · rw [hwal, records_logEntry hopened]
    refine or_iff_left fun hand => ?_
    rw [List.mem_singleton.mp hand.1] at htype
    simp at htype

/-- What a step means for `t` at participant `n`. -/
inductive StepAt (s s' : TwoPhaseSystem) (n : NodeId) (t : TxnId) :
    TwoPhaseAction → Prop where
  | other (a : TwoPhaseAction) (status : s'.statusAt n t = s.statusAt n t)
      (voted : s'.Voted n t → s.Voted n t)
      (handled : (n, t) ∈ s'.handled → (n, t) ∈ s.handled) :
      StepAt s s' n t a
  | prepared (canCommit : Bool) (status : s'.statusAt n t = s.statusAt n t)
      (handled : (n, t) ∈ s'.handled → (n, t) ∈ s.handled) :
      StepAt s s' n t (.prepare n t canCommit)
  | decided (d : Decision) (order : List Resource)
      (sent : (n, .decision t d) ∈ s.network)
      (status : s'.statusAt n t =
        if s.statusAt n t = some .active then some d.status
        else s.statusAt n t)
      (voted : s'.Voted n t → s.Voted n t) :
      StepAt s s' n t (.decision n t d order)
  | ended (b : TxnAction) (active : s.statusAt n t = some .active)
      (action : (∃ order, b = .commit t order) ∨
        (∃ order, b = .abort t order) ∧ s'.statusAt n t = some .aborted)
      (voted : s'.Voted n t → s.Voted n t)
      (handled : (n, t) ∈ s'.handled → (n, t) ∈ s.handled) :
      StepAt s s' n t (.manager n b)

theorem stepAt_of_same {s s' : TwoPhaseSystem} {n : NodeId} (t : TxnId)
    (a : TwoPhaseAction) (hreserved : Reserved (s.participant n).manager t)
    (hsame : s'.participant n = s.participant n)
    (hhandled : (n, t) ∈ s'.handled → (n, t) ∈ s.handled) :
    StepAt s s' n t a ∧ Reserved (s'.participant n).manager t := by
  refine ⟨.other a ?_ ?_ hhandled, hsame ▸ hreserved⟩
  · rw [statusAt, hsame, ← statusAt]
  · rw [Voted, hsame]
    exact id

theorem step_at {s s' : TwoPhaseSystem} {n : NodeId} {t : TxnId}
    {a : TwoPhaseAction} (hlogs : ∀ n, (s.participant n).manager.wal ≠ none)
    (hreserved : Reserved (s.participant n).manager t)
    (hstep : s.step a = some s') :
    StepAt s s' n t a ∧ Reserved (s'.participant n).manager t := by
  cases step_participates hstep with
  | silent _ same handled =>
      exact stepAt_of_same t a hreserved (congrFun same n) (handled ▸ id)
  | voted m u canCommit participant handled =>
      by_cases hm : n = m
      · subst hm
        have hself : s'.participant n =
            ((s.participant n).handlePrepare u canCommit).1 := by
          rw [participant, Function.update_self]
        have hstatus : s'.statusAt n t = s.statusAt n t := by
          rw [statusAt, hself]
          cases canCommit <;> rfl
        have hreserved' : Reserved (s'.participant n).manager t := by
          rw [hself]
          cases canCommit <;> exact hreserved
        refine ⟨?_, hreserved'⟩
        by_cases hu : t = u
        · subst hu
          exact .prepared canCommit hstatus (handled ▸ id)
        · refine .other _ hstatus (fun hv => ?_) (handled ▸ id)
          rw [Voted, hself] at hv
          cases canCommit <;>
            exact ((records_logEntry (hlogs n) _ _ _ _ _ _ _).mp
              hv).resolve_right fun hand => hu hand.2.symm
      · refine stepAt_of_same t _ hreserved ?_ (handled ▸ id)
        rw [participant, Function.update_of_ne hm]
  | decided m u d order sent iterates participant handled =>
      have hhandled : (n, t) ≠ (m, u) → (n, t) ∈ s'.handled →
          (n, t) ∈ s.handled := by
        intro hne hn
        rw [handled, List.mem_append, List.mem_singleton] at hn
        exact hn.resolve_right hne
      by_cases hm : n = m
      · subst hm
        have hself : (s'.participant n).manager =
            TwoPhaseParticipant.decide (s.participant n).manager u d order := by
          rw [participant, Function.update_self]
          rfl
        have hmanager := decide_step iterates d
        have hstatus : s'.statusAt n t =
            if t = u ∧ s.statusAt n u = some .active then some d.status
            else s.statusAt n t := by
          rw [statusAt, hself, decide_statusOf]
          rfl
        have hvoted : s'.Voted n t → s.Voted n t := by
          rw [Voted, hself, step_voted (hlogs n) hmanager]
          exact id
        refine ⟨?_, ?_⟩
        · by_cases hu : t = u
          · subst hu
            simp only [true_and] at hstatus
            exact .decided d order sent hstatus hvoted
          · rw [if_neg fun hand => hu hand.1] at hstatus
            refine .other _ hstatus hvoted (hhandled fun heq => ?_)
            exact hu (congrArg Prod.snd heq)
        · rw [hself]
          exact hreserved.mono (TransactionManager.step_seq hmanager)
            (TransactionManager.step_nodeId hmanager)
      · refine stepAt_of_same t _ hreserved ?_ (hhandled fun heq => ?_)
        · rw [participant, Function.update_of_ne hm]
        · exact hm (congrArg Prod.fst heq)
  | moved m b manager hmanager participant handled =>
      by_cases hm : n = m
      · subst hm
        have hself : (s'.participant n).manager = manager := by
          rw [participant, Function.update_self]
        have hvoted : s'.Voted n t → s.Voted n t := by
          rw [Voted, hself, step_voted (hlogs n) hmanager]
          exact id
        have hstatus : s'.statusAt n t = manager.statusOf t := by
          rw [statusAt, hself]
        refine ⟨?_, ?_⟩
        · have hfresh := hreserved _ (Nat.lt_succ_self _)
          rcases TransactionManager.step_statusOf hmanager hfresh with
            hsame | ⟨hactive, haction⟩
          · exact .other _ (hstatus.trans hsame) hvoted (handled ▸ id)
          · rw [← hstatus] at haction
            exact .ended b hactive haction hvoted (handled ▸ id)
        · rw [hself]
          exact hreserved.mono (TransactionManager.step_seq hmanager)
            (TransactionManager.step_nodeId hmanager)
      · refine stepAt_of_same t _ hreserved ?_ (handled ▸ id)
        rw [participant, Function.update_of_ne hm]

/-! ## The decision at the participants -/

/-- What a participant has done with `t` is what the coordinator decided. -/
structure Follows (s : TwoPhaseSystem) (t : TxnId) (n : NodeId) : Prop where
  reserved : Reserved (s.participant n).manager t
  committed : s.statusAt n t = some .committed → s.Decided t .commit
  handled : (n, t) ∈ s.handled → s.Decided t .abort ∨
    s.Decided t .commit ∧ s.statusAt n t ≠ some .active ∧
      s.statusAt n t ≠ some .aborted

theorem Follows.frame {s s' : TwoPhaseSystem} {t : TxnId} {n : NodeId}
    (h : s.Follows t n) (hdecided : ∀ d, s.Decided t d → s'.Decided t d)
    (hreserved : Reserved (s'.participant n).manager t)
    (hstatus : s'.statusAt n t = s.statusAt n t)
    (hhandled : (n, t) ∈ s'.handled → (n, t) ∈ s.handled) :
    s'.Follows t n where
  reserved := hreserved
  committed hc := hdecided .commit (h.committed (hstatus ▸ hc))
  handled hn := by
    rw [hstatus]
    exact (h.handled (hhandled hn)).imp (hdecided .abort)
      (And.imp_left (hdecided .commit))

theorem Follows.step {s s' : TwoPhaseSystem} {t : TxnId} {n : NodeId}
    {a : TwoPhaseAction} (h : s.Follows t n) (hinv : s.Inv)
    (hcoordinated : Coordinated t s a) (happlicable : Applicable t s a)
    (hstep : s.step a = some s') : s'.Follows t n := by
  have hdecided : ∀ d, s.Decided t d → s'.Decided t d :=
    fun d => step_decided hinv.opened hstep
  obtain ⟨hat, hreserved⟩ := step_at hinv.logs h.reserved hstep
  cases hat with
  | other _ status voted handled =>
      exact h.frame hdecided hreserved status handled
  | prepared canCommit status handled =>
      exact h.frame hdecided hreserved status handled
  | decided d order sent status voted =>
      have hd : s'.Decided t d := hdecided d (hinv.network _ sent).2
      by_cases hactive : s.statusAt n t = some .active
      · -- the decision is carried out
        rw [if_pos hactive] at status
        cases d with
        | commit =>
            refine ⟨hreserved, fun _ => hd, fun _ => .inr ⟨hd, ?_, ?_⟩⟩ <;>
              simp [status, Decision.status]
        | abort =>
            refine ⟨hreserved, fun hc => ?_, fun _ => .inl hd⟩
            rw [status] at hc
            cases hc
      · -- the decision finds the transaction ended or unknown
        rw [if_neg hactive] at status
        refine ⟨hreserved,
          fun hc => hdecided .commit (h.committed (status ▸ hc)), fun _ => ?_⟩
        rw [status]
        cases d with
        | commit => exact .inr ⟨hd, hactive, happlicable rfl⟩
        | abort => exact .inl hd
  | ended b active action voted handled =>
      rcases action with ⟨order, rfl⟩ | ⟨-, haborted⟩
      · exact absurd rfl hcoordinated.2
      · refine ⟨hreserved, fun hc => ?_, fun hn => ?_⟩
        · rw [haborted] at hc
          cases hc
        · rcases h.handled (handled hn) with habort | ⟨-, hended, -⟩
          · exact .inl (hdecided .abort habort)
          · exact absurd active hended

theorem Inv.atomic {s : TwoPhaseSystem} (hinv : s.Inv) {t : TxnId}
    (hfollows : ∀ n, s.Follows t n) : s.Atomic t := by
  rintro m n - hn ⟨hcommitted, haborted⟩
  have hcommit := (hfollows m).committed hcommitted
  rcases (hfollows n).handled hn with habort | ⟨-, -, hnot⟩
  · exact hinv.unique t ⟨hcommit, habort⟩
  · exact hnot haborted

theorem follows_new (ackRetries : Nat) {t : TxnId}
    {managers : NodeId → TransactionManager}
    (hreserved : ∀ n, Reserved (managers n) t)
    (hopen : ∀ n, (managers n).statusOf t ≠ some .committed) (n : NodeId) :
    (new (some .new) ackRetries managers).Follows t n where
  reserved := hreserved n
  committed hc := absurd hc (hopen n)
  handled hn := absurd hn List.not_mem_nil

/-- A run in which GLOBAL_COMMIT never finds the transaction aborted is all or
nothing. -/
theorem run_atomic (t : TxnId) (ackRetries : Nat)
    (managers : NodeId → TransactionManager)
    (hlogs : ∀ n, (managers n).wal ≠ none)
    (hreserved : ∀ n, Reserved (managers n) t)
    (hopen : ∀ n, (managers n).statusOf t ≠ some .committed)
    (actions : List TwoPhaseAction) (s : TwoPhaseSystem)
    (hok : Along step (fun s a => Coordinated t s a ∧ Applicable t s a)
      (new (some .new) ackRetries managers) actions)
    (hrun : run step (new (some .new) ackRetries managers) actions = some s) :
    s.Atomic t := by
  have hinit := follows_new ackRetries hreserved hopen
  obtain ⟨hinv, hfollows⟩ : s.Inv ∧ ∀ n, s.Follows t n := by
    refine run_invariant (I := fun s => s.Inv ∧ ∀ n, s.Follows t n) ?_
      ⟨inv_new ackRetries hlogs, hinit⟩ hok hrun
    rintro s a s' ⟨hinv, hfollows⟩ ⟨hcoordinated, happlicable⟩ hstep
    exact ⟨hinv.step hcoordinated.1 hstep, fun n =>
      (hfollows n).step hinv hcoordinated happlicable hstep⟩
  exact hinv.atomic hfollows

/-! ## Participants that keep their votes -/

/-- PREPARE finds `t` not aborted, and a participant that has voted for `t` does
not abort it on its own. -/
def KeepsVote (t : TxnId) (s : TwoPhaseSystem) : TwoPhaseAction → Prop
  | .prepare n u _ => u = t → s.statusAt n t ≠ some .aborted
  | .manager n (.abort u _) => u = t → ¬ s.Voted n t
  | _ => True

/-- A participant that has voted aborts `t` for the coordinator only. -/
def Bound (s : TwoPhaseSystem) (t : TxnId) (n : NodeId) : Prop :=
  s.Voted n t → s.statusAt n t = some .aborted → s.Decided t .abort

theorem Bound.step {s s' : TwoPhaseSystem} {t : TxnId} {n : NodeId}
    {a : TwoPhaseAction} (h : s.Bound t n) (hfollows : s.Follows t n)
    (hinv : s.Inv) (hcoordinated : Coordinated t s a)
    (hkeeps : KeepsVote t s a) (hstep : s.step a = some s') :
    s'.Bound t n := by
  have hdecided : ∀ d, s.Decided t d → s'.Decided t d :=
    fun d => step_decided hinv.opened hstep
  obtain ⟨hat, -⟩ := step_at hinv.logs hfollows.reserved hstep
  intro hv ha
  cases hat with
  | other _ status voted =>
      exact hdecided .abort (h (voted hv) (status ▸ ha))
  | prepared canCommit status => exact absurd (status ▸ ha) (hkeeps rfl)
  | decided d order sent status voted =>
      rw [status] at ha
      split at ha
      · cases d with
        | commit => cases ha
        | abort => exact hdecided .abort (hinv.network _ sent).2
      · exact hdecided .abort (h (voted hv) ha)
  | ended b active action voted =>
      rcases action with ⟨order, rfl⟩ | ⟨⟨order, rfl⟩, -⟩
      · exact absurd rfl hcoordinated.2
      · exact absurd (voted hv) (hkeeps rfl)

private theorem Inv.applicable {s s' : TwoPhaseSystem} (hinv : s.Inv) {t : TxnId}
    (hbound : ∀ n, s.Bound t n) {a : TwoPhaseAction}
    (hstep : s.step a = some s') : Applicable t s a := by
  unfold Applicable
  split
  · next n u order =>
    rintro rfl haborted
    simp only [TwoPhaseSystem.step] at hstep
    split at hstep
    · next hsent =>
      obtain ⟨⟨participants, hasked, hn⟩, hcommit⟩ := hinv.network _ hsent.1
      obtain ⟨participants', hagreed, hall⟩ := hinv.agreed u hcommit
      rw [hasked] at hagreed
      obtain rfl := Option.some.inj hagreed
      exact hinv.unique u ⟨hcommit, hbound n (hall n hn) haborted⟩
    · cases hstep
  · trivial

/-- When the participants keep their votes, the protocol is all or nothing. -/
theorem run_atomic_of_keepsVote (t : TxnId) (ackRetries : Nat)
    (managers : NodeId → TransactionManager)
    (hlogs : ∀ n, (managers n).wal ≠ none)
    (hreserved : ∀ n, Reserved (managers n) t)
    (hopen : ∀ n, (managers n).statusOf t ≠ some .committed)
    (hunvoted : ∀ n, ¬ Records [.voteCommit] (entriesOf (managers n).wal) t)
    (actions : List TwoPhaseAction) (s : TwoPhaseSystem)
    (hok : Along step (fun s a => Coordinated t s a ∧ KeepsVote t s a)
      (new (some .new) ackRetries managers) actions)
    (hrun : run step (new (some .new) ackRetries managers) actions = some s) :
    s.Atomic t := by
  have hinit := follows_new ackRetries hreserved hopen
  have hbound : ∀ n, (new (some .new) ackRetries managers).Bound t n :=
    fun n hv => absurd hv (hunvoted n)
  obtain ⟨hinv, hfollows, -⟩ :
      s.Inv ∧ (∀ n, s.Follows t n) ∧ ∀ n, s.Bound t n := by
    refine run_invariant (I := fun s =>
      s.Inv ∧ (∀ n, s.Follows t n) ∧ ∀ n, s.Bound t n) ?_
      ⟨inv_new ackRetries hlogs, hinit, hbound⟩ hok hrun
    rintro s a s' ⟨hinv, hfollows, hbound⟩ ⟨hcoordinated, hkeeps⟩ hstep
    have happlicable := hinv.applicable hbound hstep
    exact ⟨hinv.step hcoordinated.1 hstep,
      fun n => (hfollows n).step hinv hcoordinated happlicable hstep,
      fun n => (hbound n).step (hfollows n) hinv hcoordinated hkeeps hstep⟩
  exact hinv.atomic hfollows

/-- The manager of a node at which `"t"` was registered. -/
def registered (n : NodeId) : TransactionManager :=
  { TransactionManager.new n (some .new) fun _ => none with
    transactions := Dict.empty.set "t" (.new "t" none), seq := 1 }

theorem registered_statusOf (n : NodeId) :
    (registered n).statusOf "t" = some .active := rfl

theorem registered_reserved (n : NodeId) : Reserved (registered n) "t" := by
  intro k _ hname
  have hhead := congrArg (fun name : String => name.toList.head?) hname
  simp [txnName] at hhead

/-- Both participants vote to commit and carry the decision out; one more copy of
the decision comes after that. -/
def bothCommit : List TwoPhaseAction :=
  [.coordinate "t" [1, 2], .advance "t" [1, 2], .advance "t" [1, 2],
    .advance "t" [1, 2], .prepare 1 "t" true, .prepare 2 "t" true,
    .vote 2 "t" .commit, .vote 1 "t" .commit, .advance "t" [1, 2],
    .advance "t" [1, 2], .advance "t" [1, 2], .advance "t" [1, 2],
    .decision 1 "t" .commit [], .decision 2 "t" .commit [],
    .decision 1 "t" .commit []]

theorem bothCommit_atomic :
    ∃ s, run step (new (some .new) 2 registered) bothCommit = some s ∧
      (1, "t") ∈ s.handled ∧ (2, "t") ∈ s.handled ∧ s.Atomic "t" := by
  have hview : (run step (new (some .new) 2 registered) bothCommit).any
      (fun s => (1, "t") ∈ s.handled ∧ (2, "t") ∈ s.handled) = true := by
    decide +kernel
  obtain ⟨s, hs, hhandled⟩ := (Option.any_eq_true _ _).mp hview
  obtain ⟨h1, h2⟩ := of_decide_eq_true hhandled
  refine ⟨s, hs, h1, h2, ?_⟩
  exact run_atomic "t" 2 registered
    (fun n => by simp [registered, TransactionManager.new]) registered_reserved
    (fun n => by simp [registered_statusOf]) bothCommit s (by decide +kernel) hs

/-- Participant 2 aborts `"t"` before PREPARE comes, and votes to commit. -/
def abortBeforePrepare : List TwoPhaseAction :=
  .manager 2 (.abort "t" []) :: bothCommit

theorem abortBeforePrepare_not_atomic :
    (∀ n, (registered n).statusOf "t" = some .active) ∧
      (∀ n, Reserved (registered n) "t") ∧
      Along step (Coordinated "t") (new (some .new) 2 registered)
        abortBeforePrepare ∧
      ∃ s, run step (new (some .new) 2 registered) abortBeforePrepare =
        some s ∧ ¬ s.Atomic "t" := by
  refine ⟨registered_statusOf, registered_reserved, by decide +kernel, ?_⟩
  have hview : (run step (new (some .new) 2 registered)
      abortBeforePrepare).any (fun s => (1, "t") ∈ s.handled ∧
        (2, "t") ∈ s.handled ∧ s.statusAt 1 "t" = some .committed ∧
          s.statusAt 2 "t" = some .aborted) = true := by
    decide +kernel
  obtain ⟨s, hs, hends⟩ := (Option.any_eq_true _ _).mp hview
  obtain ⟨h1, h2, hcommitted, haborted⟩ := of_decide_eq_true hends
  exact ⟨s, hs, fun hatomic => hatomic 1 2 h1 h2 ⟨hcommitted, haborted⟩⟩

end TwoPhaseSystem

end DistributedMemory.Commit
