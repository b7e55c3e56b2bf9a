import DistributedMemory.Commit.TwoPhase
import DistributedMemory.Library.Run
import DistributedMemory.Recovery.LogTrace

/-!
# The decision of the coordinator

The table of votes holds a commit only for participants that have logged one, and
the coordinator counts the votes of the participants it asked.  A decision is sent
only after it was logged, and logged only by the one thread of its transaction or,
after that thread is gone, by `recover_pending`.
-/

namespace DistributedMemory.Commit

open DistributedMemory.Library DistributedMemory.Network
open DistributedMemory.Recovery DistributedMemory.Storage

namespace TwoPhaseSystem

def Voted (s : TwoPhaseSystem) (n : NodeId) (t : TxnId) : Prop :=
  Records [.voteCommit] (entriesOf (s.participant n).manager.wal) t

def Prepared (s : TwoPhaseSystem) (t : TxnId) : Prop :=
  Records [.prepare] (entriesOf s.coordinator.wal) t

def Decided (s : TwoPhaseSystem) (t : TxnId) (d : Decision) : Prop :=
  Records [d.entryType] (entriesOf s.coordinator.wal) t

def Asked (s : TwoPhaseSystem) (n : NodeId) (t : TxnId) : Prop :=
  ∃ participants, s.coordinated t = some participants ∧ n ∈ participants

def Agreed (s : TwoPhaseSystem) (t : TxnId) : Prop :=
  ∃ participants, s.coordinated t = some participants ∧
    ∀ n ∈ participants, s.Voted n t

def Sound (s : TwoPhaseSystem) : Packet → Prop
  | (n, .prepare t) => s.Asked n t
  | (n, .vote t v) => s.Asked n t ∧ (v = .commit → s.Voted n t)
  | (n, .decision t d) => s.Asked n t ∧ s.Decided t d
  | (_, .ack _) => True

/-- What holds while a call of `coordinate_commit` runs. -/
def CallOk (s : TwoPhaseSystem) (t : TxnId) (participants : List NodeId) :
    CallPhase → Prop
  | .started => ∀ d, ¬ s.Decided t d
  | .preparing targets => (∀ d, ¬ s.Decided t d) ∧
      ∀ n ∈ targets, n ∈ participants
  | .counted d => (∀ d, ¬ s.Decided t d) ∧ (d = .commit → s.Agreed t)
  | .announcing d _ targets => s.Decided t d ∧
      ∀ n ∈ targets, n ∈ participants

structure Inv (s : TwoPhaseSystem) : Prop where
  opened : s.coordinator.wal ≠ none
  logs : ∀ n, (s.participant n).manager.wal ≠ none
  known : ∀ t, (s.Prepared t ∨ ∃ d, s.Decided t d) → s.coordinated t ≠ none
  distinct : ∀ t participants, s.coordinated t = some participants →
    participants.Nodup
  network : ∀ p ∈ s.network, s.Sound p
  votes : ∀ t votes, s.coordinator.votes.get? t = some votes →
    ∀ n v, votes.get? n = some v →
      s.Asked n t ∧ (v = .commit → s.Voted n t)
  calls : ∀ t call, s.coordinator.calls.get? t = some call →
    s.coordinated t = some call.participants ∧
      s.coordinator.recovering = none ∧
        s.CallOk t call.participants call.phase
  unique : ∀ t, ¬ (s.Decided t .commit ∧ s.Decided t .abort)
  agreed : ∀ t, s.Decided t .commit → s.Agreed t
  pending : ∀ todo, s.coordinator.recovering = some todo →
    ∀ t, t ∈ todo ↔ s.Prepared t ∧ ∀ d, ¬ s.Decided t d

theorem inv_new (ackRetries : Nat) {managers : NodeId → TransactionManager}
    (hlogs : ∀ n, (managers n).wal ≠ none) :
    (new (some .new) ackRetries managers).Inv := by
  constructor <;>
    simp_all [new, Prepared, Decided, entriesOf, TwoPhaseParticipant.new,
      TwoPhaseCoordinator.new, WriteAheadLog.new, WriteAheadLog.reopen]

/-! ## Counting the votes -/

private theorem all_of_allCommit {votes : Dict NodeId Vote} {participants : List NodeId}
    (hcount : TwoPhaseCoordinator.allCommit votes participants = true)
    (hasked : ∀ n v, votes.get? n = some v → n ∈ participants) :
    ∀ n ∈ participants, votes.get? n = some .commit := by
  simp only [TwoPhaseCoordinator.allCommit, Bool.and_eq_true,
    decide_eq_true_eq, List.all_eq_true] at hcount
  obtain ⟨hlength, hall⟩ := hcount
  have hsubset : votes.items.map Prod.fst ⊆ participants := by
    intro n hn
    obtain ⟨⟨n', v⟩, hmem, rfl⟩ := List.mem_map.mp hn
    exact hasked n' v (Dict.mem_items_iff.mp hmem)
  have hperm := (List.subperm_of_subset votes.nodupKeys
    hsubset).perm_of_length_le (by simp [hlength])
  intro n hn
  obtain ⟨⟨n', v⟩, hmem, rfl⟩ := List.mem_map.mp (hperm.mem_iff.mpr hn)
  have hcommit : v = .commit := hall _ hmem
  exact Dict.mem_items_iff.mp (hcommit ▸ hmem)

/-! ## Steps that write no log of the coordinator -/

structure Grows (s s' : TwoPhaseSystem) : Prop where
  coordinated : ∀ t participants, s.coordinated t = some participants →
    s'.coordinated t = some participants
  voted : ∀ n t, s.Voted n t → s'.Voted n t
  decided : ∀ t d, s.Decided t d → s'.Decided t d

section Grows

variable {s s' : TwoPhaseSystem}

theorem Grows.asked (h : Grows s s') {n : NodeId} {t : TxnId}
    (ha : s.Asked n t) : s'.Asked n t := by
  obtain ⟨participants, hp, hn⟩ := ha
  exact ⟨participants, h.coordinated t participants hp, hn⟩

theorem Grows.agreed (h : Grows s s') {t : TxnId} (ha : s.Agreed t) :
    s'.Agreed t := by
  obtain ⟨participants, hp, hall⟩ := ha
  exact ⟨participants, h.coordinated t participants hp,
    fun n hn => h.voted n t (hall n hn)⟩

theorem Grows.sound (h : Grows s s') {p : Packet} (hp : s.Sound p) :
    s'.Sound p := by
  obtain ⟨n, msg⟩ := p
  cases msg with
  | prepare t => exact h.asked hp
  | vote t v => exact ⟨h.asked hp.1, fun hv => h.voted n t (hp.2 hv)⟩
  | decision t d => exact ⟨h.asked hp.1, h.decided t d hp.2⟩
  | ack t => trivial

theorem Inv.unlogged (h : s.Inv) (hgrows : Grows s s')
    (hwal : s'.coordinator.wal = s.coordinator.wal)
    (hlogs : ∀ n, (s'.participant n).manager.wal ≠ none)
    (hdistinct : ∀ t participants, s'.coordinated t = some participants →
      s.coordinated t = some participants ∨ participants.Nodup)
    (hnetwork : ∀ p ∈ s'.network, p ∈ s.network ∨ s'.Sound p)
    (hvotes : ∀ t votes, s'.coordinator.votes.get? t = some votes →
      ∀ n v, votes.get? n = some v →
        (∃ old, s.coordinator.votes.get? t = some old ∧
          old.get? n = some v) ∨
        s'.Asked n t ∧ (v = .commit → s'.Voted n t))
    (hcalls : ∀ t call, s'.coordinator.calls.get? t = some call →
      s'.coordinated t = some call.participants ∧
        s'.coordinator.recovering = none ∧
          s'.CallOk t call.participants call.phase)
    (hpending : ∀ todo, s'.coordinator.recovering = some todo →
      s.coordinator.recovering = some todo ∨
        ∀ t, t ∈ todo ↔ s.Prepared t ∧ ∀ d, ¬ s.Decided t d) : s'.Inv := by
  have hdecided : s'.Decided = s.Decided := by
    unfold Decided
    rw [hwal]
  have hprepared : s'.Prepared = s.Prepared := by
    unfold Prepared
    rw [hwal]
  refine ⟨hwal ▸ h.opened, hlogs, fun t ht => ?_, fun t participants hp => ?_,
    fun p hp => ?_, fun t votes hv n v hn => ?_, hcalls, ?_, ?_,
    fun todo htodo => ?_⟩
  · rw [hprepared, hdecided] at ht
    obtain ⟨participants, hp⟩ := Option.ne_none_iff_exists'.mp (h.known t ht)
    rw [hgrows.coordinated t participants hp]
    simp
  · exact (hdistinct t participants hp).elim (h.distinct t participants) id
  · rcases hnetwork p hp with hold | hnew
    · exact hgrows.sound (h.network p hold)
    · exact hnew
  · rcases hvotes t votes hv n v hn with ⟨old, hold, hget⟩ | hnew
    · obtain ⟨hasked, hvoted⟩ := h.votes t old hold n v hget
      exact ⟨hgrows.asked hasked, fun hc => hgrows.voted n t (hvoted hc)⟩
    · exact hnew
  · rw [hdecided]
    exact h.unique
  · rw [hdecided]
    exact fun t ht => hgrows.agreed (h.agreed t ht)
  · rw [hdecided, hprepared]
    rcases hpending todo htodo with hold | hnew
    · exact h.pending todo hold
    · exact hnew

end Grows

/-! ## Steps that append to the log of the coordinator -/

section Logged

variable {s s' : TwoPhaseSystem} {t : TxnId} {type : EntryType}
  {resource before after : String}

theorem decided_logged (hopened : s.coordinator.wal ≠ none)
    (hwal : s'.coordinator.wal =
      s.coordinator.wal.map (·.logEntry t type resource before after))
    (u : TxnId) (d : Decision) :
    s'.Decided u d ↔ s.Decided u d ∨ type = d.entryType ∧ t = u := by
  unfold Decided
  rw [hwal, records_logEntry hopened, List.mem_singleton]

private theorem prepared_logged (hopened : s.coordinator.wal ≠ none)
    (hwal : s'.coordinator.wal =
      s.coordinator.wal.map (·.logEntry t type resource before after))
    (u : TxnId) :
    s'.Prepared u ↔ s.Prepared u ∨ type = .prepare ∧ t = u := by
  unfold Prepared
  rw [hwal, records_logEntry hopened, List.mem_singleton]

theorem CallOk.grows {u : TxnId} {participants : List NodeId}
    {phase : CallPhase} (h : s.CallOk u participants phase)
    (hgrows : Grows s s') (hback : ∀ d, s'.Decided u d → s.Decided u d) :
    s'.CallOk u participants phase := by
  cases phase with
  | started => exact fun d hd => h d (hback d hd)
  | preparing targets => exact ⟨fun d hd => h.1 d (hback d hd), h.2⟩
  | counted d =>
      exact ⟨fun d hd => h.1 d (hback d hd), fun hc => hgrows.agreed (h.2 hc)⟩
  | announcing d attempt targets => exact ⟨hgrows.decided u d h.1, h.2⟩

theorem Inv.logged (h : s.Inv)
    (hwal : s'.coordinator.wal =
      s.coordinator.wal.map (·.logEntry t type resource before after))
    (hparticipant : s'.participant = s.participant)
    (hnetwork : s'.network = s.network)
    (hcoordinated : s'.coordinated = s.coordinated)
    (hvotes : s'.coordinator.votes = s.coordinator.votes)
    (hknown : type ∈ [EntryType.prepare, .globalCommit, .globalAbort] →
      s.coordinated t ≠ none)
    (hdecides : ∀ d : Decision, type = d.entryType →
      (∀ d', ¬ s.Decided t d') ∧ (d = .commit → s.Agreed t))
    (hcalls : Grows s s' →
      (∀ u d, s'.Decided u d ↔ s.Decided u d ∨ type = d.entryType ∧ t = u) →
      ∀ u call, s'.coordinator.calls.get? u = some call →
        s'.coordinated u = some call.participants ∧
          s'.coordinator.recovering = none ∧
            s'.CallOk u call.participants call.phase)
    (hpending : ∀ todo, s'.coordinator.recovering = some todo →
      ∀ u, u ∈ todo ↔ (s.Prepared u ∨ type = .prepare ∧ t = u) ∧
        ∀ d : Decision, ¬ (s.Decided u d ∨ type = d.entryType ∧ t = u)) :
    s'.Inv := by
  have hdecided := decided_logged h.opened hwal
  have hprepared := prepared_logged h.opened hwal
  have hgrows : Grows s s' := by
    refine ⟨fun u ps hp => hcoordinated ▸ hp, fun n u hn => ?_,
      fun u d hd => (hdecided u d).mpr (.inl hd)⟩
    rwa [Voted, hparticipant]
  refine ⟨?_, fun n => hparticipant ▸ h.logs n, fun u hu => ?_,
    fun u ps hp => h.distinct u ps (hcoordinated ▸ hp),
    fun p hp => hgrows.sound (h.network p (hnetwork ▸ hp)),
    fun u votes hu n v hv => ?_, hcalls hgrows hdecided, fun u hboth => ?_,
    fun u hu => ?_, fun todo htodo u => ?_⟩
  · rw [hwal]
    simpa using h.opened
  · rw [hcoordinated]
    rcases hu with hu | ⟨d, hd⟩
    · rcases (hprepared u).mp hu with hold | ⟨htype, rfl⟩
      · exact h.known u (.inl hold)
      · exact hknown (by simp [htype])
    · rcases (hdecided u d).mp hd with hold | ⟨htype, rfl⟩
      · exact h.known u (.inr ⟨d, hold⟩)
      · apply hknown
        cases d <;> simp [htype, Decision.entryType]
  · obtain ⟨hasked, hvoted⟩ := h.votes u votes (hvotes ▸ hu) n v hv
    exact ⟨hgrows.asked hasked, fun hc => hgrows.voted n u (hvoted hc)⟩
  · obtain ⟨hcommit, habort⟩ := hboth
    rcases (hdecided u .commit).mp hcommit with hc | ⟨htype, rfl⟩
    · rcases (hdecided u .abort).mp habort with ha | ⟨htype, rfl⟩
      · exact h.unique u ⟨hc, ha⟩
      · exact (hdecides .abort htype).1 .commit hc
    · rcases (hdecided t .abort).mp habort with ha | ⟨htype', -⟩
      · exact (hdecides .commit htype).1 .abort ha
      · rw [htype] at htype'
        cases htype'
  · rcases (hdecided u .commit).mp hu with hold | ⟨htype, rfl⟩
    · exact hgrows.agreed (h.agreed u hold)
    · exact hgrows.agreed ((hdecides .commit htype).2 rfl)
  · rw [hpending todo htodo u, hprepared]
    simp only [hdecided]

end Logged

/-! ## The steps -/

section Steps

variable {s s' : TwoPhaseSystem}

theorem mem_undecided (c : TwoPhaseCoordinator) (t : TxnId) :
    t ∈ TwoPhaseCoordinator.undecided (entriesOf c.wal) ↔
      Records [.prepare] (entriesOf c.wal) t ∧
        ∀ d : Decision, ¬ Records [d.entryType] (entriesOf c.wal) t := by
  simp only [TwoPhaseCoordinator.undecided, Finset.mem_filter,
    List.mem_toFinset, List.mem_map, List.mem_filter, decide_eq_true_eq]
  refine and_congr ?_ ⟨fun h d hd => h ?_, fun h hd => ?_⟩
  · simp [Records, and_assoc]
  · obtain ⟨e, he, htype, ht⟩ := hd
    refine ⟨e, he, ?_, ht⟩
    cases d <;> simp_all [Decision.entryType]
  · obtain ⟨e, he, htype, ht⟩ := hd
    rcases List.mem_cons.mp htype with hcommit | habort
    · exact h .commit ⟨e, he, by simp [hcommit, Decision.entryType], ht⟩
    · exact h .abort ⟨e, he, by
        simpa [Decision.entryType] using habort, ht⟩

theorem Inv.coordinate (h : s.Inv) {t : TxnId} {participants : List NodeId}
    (hfresh : s.coordinated t = none) (hnodup : participants.Nodup)
    (hidle : s.coordinator.recovering = none)
    (hstep : s.step (.coordinate t participants) = some s') : s'.Inv := by
  cases hstep
  have hgrows : Grows s { s with
      coordinator := s.coordinator.coordinateCommit t participants
      coordinated := Function.update s.coordinated t (some participants) } := by
    refine ⟨fun u ps hp => ?_, fun n u hn => hn, fun u d hd => hd⟩
    have hne : u ≠ t := by
      rintro rfl
      rw [hfresh] at hp
      cases hp
    exact (Function.update_of_ne hne _ _).trans hp
  refine h.unlogged hgrows rfl h.logs (fun u ps hp => ?_) (fun p hp => .inl hp)
    (fun u votes hu n v hv => ?_) (fun u call hcall => ?_)
    (fun todo htodo => .inl htodo)
  · simp only [Function.update_apply] at hp
    split at hp
    · cases hp
      exact .inr hnodup
    · exact .inl hp
  · simp only [TwoPhaseCoordinator.coordinateCommit, Dict.get?_set] at hu
    split at hu
    · cases hu
      cases hv
    · exact .inl ⟨votes, hu, hv⟩
  · simp only [TwoPhaseCoordinator.coordinateCommit, Dict.get?_set] at hcall
    split at hcall
    · next heq =>
      cases hcall
      subst heq
      refine ⟨Function.update_self _ _ _, hidle, fun d hd => ?_⟩
      exact h.known u (.inr ⟨d, hd⟩) hfresh
    · obtain ⟨hp, hrec, hok⟩ := h.calls u call hcall
      exact ⟨hgrows.coordinated u _ hp, hrec,
        hok.grows hgrows fun d hd => hd⟩

theorem Inv.setPhase (h : s.Inv) {t : TxnId} {call : Coordination}
    (hcall : s.coordinator.calls.get? t = some call) {phase : CallPhase}
    (hphase : s.CallOk t call.participants phase) {sent : List Packet}
    (hsent : ∀ p ∈ sent, s.Sound p) :
    { s with
      coordinator := s.coordinator.setPhase t call phase
      network := s.network ++ sent }.Inv := by
  have hgrows : Grows s { s with
      coordinator := s.coordinator.setPhase t call phase
      network := s.network ++ sent } :=
    ⟨fun _ _ hp => hp, fun _ _ hn => hn, fun _ _ hd => hd⟩
  obtain ⟨hp, hrec, -⟩ := h.calls t call hcall
  refine h.unlogged hgrows rfl h.logs (fun _ _ hp => .inl hp) (fun p hp => ?_)
    (fun u votes hu n v hv => .inl ⟨votes, hu, hv⟩) (fun u call' hu => ?_)
    (fun todo htodo => .inl htodo)
  · rcases List.mem_append.mp hp with hp | hp
    · exact .inl hp
    · exact .inr (hgrows.sound (hsent p hp))
  · simp only [TwoPhaseCoordinator.setPhase, Dict.get?_set] at hu
    split at hu
    · next heq =>
      cases hu
      subst heq
      exact ⟨hp, hrec, hphase.grows hgrows fun d hd => hd⟩
    · obtain ⟨hp', hrec', hok⟩ := h.calls u call' hu
      exact ⟨hp', hrec', hok.grows hgrows fun d hd => hd⟩

theorem Inv.logPhase (h : s.Inv) {t : TxnId} {call : Coordination}
    (hcall : s.coordinator.calls.get? t = some call) {type : EntryType}
    {phase : CallPhase}
    (hdecides : ∀ d : Decision, type = d.entryType →
      (∀ d', ¬ s.Decided t d') ∧ (d = .commit → s.Agreed t))
    (hphase : ∀ s' : TwoPhaseSystem,
      (∀ u d, s'.Decided u d ↔ s.Decided u d ∨ type = d.entryType ∧ t = u) →
      s'.CallOk t call.participants phase) :
    { s with coordinator := (s.coordinator.log
      (·.logEntry t type "" "" "")).setPhase t call phase }.Inv := by
  obtain ⟨hp, hrec, -⟩ := h.calls t call hcall
  have hwal : (s.coordinator.log (·.logEntry t type "" "" "")).wal =
      s.coordinator.wal.map (·.logEntry t type "" "" "") := rfl
  refine h.logged hwal rfl rfl rfl rfl (fun _ => by simp [hp]) hdecides
    (fun hgrows hdecided u call' hu => ?_) (fun todo htodo => ?_)
  · simp only [TwoPhaseCoordinator.setPhase, TwoPhaseCoordinator.log,
      Dict.get?_set] at hu
    split at hu
    · next heq =>
      cases hu
      subst heq
      exact ⟨hp, hrec, hphase _ hdecided⟩
    · next hne =>
      obtain ⟨hp', hrec', hok⟩ := h.calls u call' hu
      refine ⟨hp', hrec', hok.grows hgrows fun d hd => ?_⟩
      rcases (hdecided u d).mp hd with hold | ⟨-, heq⟩
      · exact hold
      · exact absurd heq.symm hne
  · have hnone : s.coordinator.recovering = some todo := htodo
    rw [hrec] at hnone
    cases hnone

theorem Inv.advance (h : s.Inv) {t : TxnId} {order : List NodeId}
    (hstep : s.step (.advance t order) = some s') : s'.Inv := by
  obtain ⟨call, hcall, hlists, rfl⟩ := step_advance hstep
  obtain ⟨hparticipants, hrec, hok⟩ := h.calls t call hcall
  unfold TwoPhaseCoordinator.advance
  split
  · next hphase =>
    rw [hphase] at hok
    simp only [List.append_nil]
    refine h.logPhase hcall (fun d hd => ?_) fun s' hd => ⟨fun d => ?_, ?_⟩
    · cases d <;> cases hd
    · rw [hd]
      rintro (hold | ⟨htype, -⟩)
      · exact hok d hold
      · cases d <;> cases htype
    · exact fun n hn => hn
  · next n rest hphase =>
    rw [hphase] at hok
    refine h.setPhase hcall ?_ fun p hp => ?_
    · exact ⟨hok.1, fun m hm => hok.2 m (List.mem_cons_of_mem n hm)⟩
    · obtain rfl := List.mem_singleton.mp hp
      exact ⟨call.participants, hparticipants, hok.2 n (by simp)⟩
  · next hphase =>
    rw [hphase] at hok
    refine h.setPhase hcall ?_ (by simp)
    refine ⟨hok.1, fun hcommit => ?_⟩
    split at hcommit
    · next hall =>
      have hasked : ∀ n v, ((s.coordinator.votes.get? t).getD .empty).get? n =
          some v → s.Asked n t ∧ (v = .commit → s.Voted n t) := by
        intro n v hv
        cases hvotes : s.coordinator.votes.get? t with
        | none => simp [hvotes] at hv
        | some votes =>
            rw [hvotes] at hv
            exact h.votes t votes hvotes n v hv
      refine ⟨call.participants, hparticipants, fun n hn => ?_⟩
      have hcommitted := all_of_allCommit hall (fun n v hv => by
        obtain ⟨ps, hps, hn⟩ := (hasked n v hv).1
        rw [hparticipants] at hps
        exact Option.some.inj hps ▸ hn) n hn
      exact (hasked n .commit hcommitted).2 rfl
    · cases hcommit
  · next d hphase =>
    rw [hphase] at hok
    simp only [List.append_nil]
    have hrecord : d.record t = (·.logEntry t d.entryType "" "" "") := by
      cases d <;> rfl
    rw [hrecord]
    refine h.logPhase hcall (fun d' hd' => ?_) fun s' hd => ?_
    · obtain rfl : d = d' := by
        cases d <;> cases d' <;> first | rfl | cases hd'
      exact hok
    · exact ⟨(hd t d).mpr (.inr ⟨rfl, rfl⟩), fun n hn => hn⟩
  · next d attempt n rest hphase =>
    rw [hphase] at hok
    refine h.setPhase hcall ?_ fun p hp => ?_
    · exact ⟨hok.1, fun m hm => hok.2 m (List.mem_cons_of_mem n hm)⟩
    · obtain rfl := List.mem_singleton.mp hp
      exact ⟨⟨call.participants, hparticipants, hok.2 n (by simp)⟩, hok.1⟩
  · next d attempt hphase =>
    rw [hphase] at hok
    dsimp only
    split
    · simp only [List.append_nil]
      have hgrows : Grows s { s with coordinator := s.coordinator.finish t } :=
        ⟨fun _ _ hp => hp, fun _ _ hn => hn, fun _ _ hd => hd⟩
      refine h.unlogged hgrows rfl h.logs (fun _ _ hp => .inl hp)
        (fun p hp => .inl hp) (fun u votes hu n v hv => ?_)
        (fun u call' hu => ?_) (fun todo htodo => .inl htodo)
      · simp only [TwoPhaseCoordinator.finish, Dict.get?_pop] at hu
        split at hu
        · cases hu
        · exact .inl ⟨votes, hu, hv⟩
      · simp only [TwoPhaseCoordinator.finish, Dict.get?_pop] at hu
        split at hu
        · cases hu
        · obtain ⟨hp', hrec', hok'⟩ := h.calls u call' hu
          exact ⟨hp', hrec', hok'.grows hgrows fun d hd => hd⟩
    · refine h.setPhase hcall ?_ (by simp)
      exact ⟨hok.1, fun n hn => hlists.mem hn⟩

theorem Inv.vote (h : s.Inv) {n : NodeId} {t : TxnId} {v : Vote}
    (hmem : (n, TwoPhaseMsg.vote t v) ∈ s.network) :
    { s with coordinator := s.coordinator.handleVote t n v }.Inv := by
  obtain ⟨hasked, hvoted⟩ := h.network _ hmem
  unfold TwoPhaseCoordinator.handleVote
  split
  · next votes hvotes =>
    have hgrows : Grows s { s with coordinator := { s.coordinator with
        votes := s.coordinator.votes.set t (votes.set n v) } } :=
      ⟨fun _ _ hp => hp, fun _ _ hn => hn, fun _ _ hd => hd⟩
    refine h.unlogged hgrows rfl h.logs (fun _ _ hp => .inl hp)
      (fun p hp => .inl hp) (fun u table hu m w hm => ?_)
      (fun u call hu => ?_) (fun todo htodo => .inl htodo)
    · simp only [Dict.get?_set] at hu
      split at hu
      · next heq =>
        cases hu
        subst heq
        rw [Dict.get?_set] at hm
        split at hm
        · next hmn =>
          cases hm
          subst hmn
          exact .inr ⟨hasked, hvoted⟩
        · exact .inl ⟨votes, hvotes, hm⟩
      · exact .inl ⟨table, hu, hm⟩
    · obtain ⟨hp, hrec, hok⟩ := h.calls u call hu
      exact ⟨hp, hrec, hok.grows hgrows fun d hd => hd⟩
  · exact h

theorem Inv.ack (h : s.Inv) (n : NodeId) (t : TxnId) :
    { s with coordinator := s.coordinator.handleAck t n }.Inv := by
  unfold TwoPhaseCoordinator.handleAck
  split
  · next acks hacks =>
    exact ⟨h.opened, h.logs, h.known, h.distinct, h.network, h.votes, h.calls,
      h.unique, h.agreed, h.pending⟩
  · exact h

theorem Inv.participant (h : s.Inv) {n : NodeId} {p : TwoPhaseParticipant}
    {sent : List Packet} {handled : List (NodeId × TxnId)}
    (hlog : p.manager.wal = (s.participant n).manager.wal ∨
      ∃ t type resource before after, p.manager.wal =
        (s.participant n).manager.wal.map
          (·.logEntry t type resource before after))
    (hsent : ∀ q ∈ sent, Sound
      { s.setParticipant n p with
        network := s.network ++ sent
        handled := handled } q) :
    { s.setParticipant n p with
      network := s.network ++ sent
      handled := handled }.Inv := by
  have hrecords : ∀ t, Records [.voteCommit]
      (entriesOf (s.participant n).manager.wal) t →
      Records [.voteCommit] (entriesOf p.manager.wal) t := by
    intro t ht
    rcases hlog with hsame | ⟨u, type, resource, before, after, hwal⟩
    · rwa [hsame]
    · rw [hwal, records_logEntry (h.logs n)]
      exact .inl ht
  have hopened : p.manager.wal ≠ none := by
    rcases hlog with hsame | ⟨u, type, resource, before, after, hwal⟩
    · rw [hsame]
      exact h.logs n
    · rw [hwal]
      simpa using h.logs n
  have hgrows : Grows s { s.setParticipant n p with
      network := s.network ++ sent
      handled := handled } := by
    refine ⟨fun _ _ hp => hp, fun m t ht => ?_, fun _ _ hd => hd⟩
    by_cases hm : m = n
    · subst hm
      simpa [Voted, setParticipant] using hrecords t ht
    · simpa [Voted, setParticipant, hm] using ht
  refine h.unlogged hgrows rfl (fun m => ?_) (fun _ _ hp => .inl hp)
    (fun q hq => ?_) (fun u votes hu m v hv => .inl ⟨votes, hu, hv⟩)
    (fun u call hu => ?_) (fun todo htodo => .inl htodo)
  · by_cases hm : m = n
    · subst hm
      simpa [setParticipant] using hopened
    · simpa [setParticipant, hm] using h.logs m
  · rcases List.mem_append.mp hq with hq | hq
    · exact .inl hq
    · exact .inr (hsent q hq)
  · obtain ⟨hp, hrec, hok⟩ := h.calls u call hu
    exact ⟨hp, hrec, hok.grows hgrows fun d hd => hd⟩

theorem Inv.manager (h : s.Inv) {n : NodeId} {a : TxnAction}
    {m : TransactionManager} (hm : (s.participant n).manager.step a = some m)
    (pending : Dict TxnId Pending) {sent : List Packet}
    {handled : List (NodeId × TxnId)}
    (hsent : ∀ q ∈ sent, ∃ t, q.2 = TwoPhaseMsg.ack t) :
    { s.setParticipant n ⟨m, pending⟩ with
      network := s.network ++ sent
      handled := handled }.Inv := by
  refine h.participant ?_ fun q hq => ?_
  · rcases TransactionManager.step_wal hm with hsame |
      ⟨t, type, resource, before, after, -, hwal⟩
    · exact .inl hsame
    · exact .inr ⟨t, type, resource, before, after, hwal⟩
  · obtain ⟨n', msg⟩ := q
    obtain ⟨t, rfl⟩ := hsent _ hq
    trivial

theorem Inv.prepare (h : s.Inv) {n : NodeId} {t : TxnId} (canCommit : Bool)
    (hmem : (n, TwoPhaseMsg.prepare t) ∈ s.network) :
    { s.setParticipant n ((s.participant n).handlePrepare t canCommit).1 with
      network := s.network ++
        [(n, TwoPhaseMsg.vote t
          ((s.participant n).handlePrepare t canCommit).2)] }.Inv := by
  have hasked : s.Asked n t := h.network _ hmem
  cases canCommit with
  | false =>
      refine h.participant (.inr ⟨t, .voteAbort, "", "", "", rfl⟩) ?_
      intro q hq
      obtain rfl := List.mem_singleton.mp hq
      exact ⟨hasked, fun hv => by cases hv⟩
  | true =>
      refine h.participant (.inr ⟨t, .voteCommit, "", "", "", rfl⟩) ?_
      intro q hq
      obtain rfl := List.mem_singleton.mp hq
      refine ⟨hasked, fun _ => ?_⟩
      simp only [Voted, setParticipant, Function.update_self]
      exact (records_logEntry (h.logs n) _ _ _ _ _ _ _).mpr (by simp)

theorem decide_step {m : TransactionManager} {t : TxnId}
    {order : List Resource} (hiterates : m.Iterates t order) (d : Decision) :
    m.step (d.action t order) =
      some (TwoPhaseParticipant.decide m t d order) := by
  unfold TwoPhaseParticipant.decide TransactionManager.getTransaction
  cases d with
  | commit =>
      simp only [Decision.action, TransactionManager.step, if_pos hiterates,
        TransactionManager.commit, TransactionManager.getActive]
      cases m.transactions.get? t with
      | none => rfl
      | some txn => by_cases h : txn.status = .active <;> simp [h]
  | abort =>
      simp only [Decision.action, TransactionManager.step, if_pos hiterates,
        TransactionManager.abort, TransactionManager.getActive]
      cases m.transactions.get? t with
      | none => rfl
      | some txn => by_cases h : txn.status = .active <;> simp [h]

theorem Inv.record (h : s.Inv) {t : TxnId} {type : EntryType}
    (resource before after : String)
    (htype : type ∉ [EntryType.prepare, .globalCommit, .globalAbort]) :
    TwoPhaseSystem.Inv { s with
      coordinator :=
        s.coordinator.log (·.logEntry t type resource before after) } := by
  have hwal : (s.coordinator.log (·.logEntry t type resource before after)).wal =
      s.coordinator.wal.map (·.logEntry t type resource before after) := rfl
  have hno : ∀ d : Decision, type ≠ d.entryType := by
    rintro d rfl
    cases d <;> simp [Decision.entryType] at htype
  have hprep : type ≠ .prepare := by
    rintro rfl
    simp at htype
  refine h.logged hwal rfl rfl rfl rfl (fun hin => absurd hin htype)
    (fun d hd => absurd hd (hno d)) (fun hgrows hdecided u call hu => ?_)
    (fun todo htodo u => ?_)
  · obtain ⟨hp, hrec, hok⟩ := h.calls u call hu
    refine ⟨hp, hrec, hok.grows hgrows fun d hd => ?_⟩
    exact ((hdecided u d).mp hd).resolve_right fun hand => hno d hand.1
  · rw [h.pending todo htodo u]
    simp only [hno, hprep, false_and, or_false]

theorem Inv.crash (h : s.Inv) :
    { s with coordinator := s.coordinator.crash }.Inv := by
  refine h.unlogged ⟨fun _ _ hp => hp, fun _ _ hn => hn, fun _ _ hd => hd⟩ rfl
    h.logs (fun _ _ hp => .inl hp) (fun p hp => .inl hp)
    (fun u votes hu => ?_) (fun u call hu => ?_) (fun todo htodo => ?_)
  · cases hu
  · cases hu
  · cases htodo

theorem Inv.recoverPending (h : s.Inv)
    (hidle : s.coordinator.calls.items = []) :
    { s with coordinator := s.coordinator.recoverPending }.Inv := by
  refine h.unlogged ⟨fun _ _ hp => hp, fun _ _ hn => hn, fun _ _ hd => hd⟩ rfl
    h.logs (fun _ _ hp => .inl hp) (fun p hp => .inl hp)
    (fun u votes hu n v hv => .inl ⟨votes, hu, hv⟩) (fun u call hu => ?_)
    (fun todo htodo => .inr fun u => ?_)
  · have hmem := Dict.mem_items_iff.mpr hu
    change (u, call) ∈ s.coordinator.calls.items at hmem
    rw [hidle] at hmem
    exact absurd hmem List.not_mem_nil
  · obtain rfl := Option.some.inj htodo
    exact mem_undecided s.coordinator u

theorem Inv.recoverNext (h : s.Inv) {t : TxnId} {todo : Finset TxnId}
    (hrec : s.coordinator.recovering = some todo) (ht : t ∈ todo) :
    { s with coordinator := s.coordinator.recoverNext t todo }.Inv := by
  obtain ⟨hprepared, hundecided⟩ := (h.pending todo hrec t).mp ht
  have hwal : (s.coordinator.recoverNext t todo).wal =
      s.coordinator.wal.map (·.logEntry t .globalAbort "" "" "") := rfl
  refine h.logged hwal rfl rfl rfl rfl (fun _ => h.known t (.inl hprepared))
    (fun d hd => ⟨hundecided, fun hc => ?_⟩)
    (fun hgrows hdecided u call hu => ?_) (fun todo' htodo u => ?_)
  · subst hc
    cases hd
  · have hnone := (h.calls u call hu).2.1
    rw [hrec] at hnone
    cases hnone
  · obtain rfl := Option.some.inj htodo
    rw [Finset.mem_erase, h.pending todo hrec u]
    constructor
    · rintro ⟨hne, hp, hd⟩
      refine ⟨.inl hp, fun d hd' => ?_⟩
      rcases hd' with hold | ⟨-, heq⟩
      · exact hd d hold
      · exact hne heq.symm
    · rintro ⟨hp, hd⟩
      refine ⟨?_, hp.resolve_right (by simp), fun d hold => hd d (.inl hold)⟩
      rintro rfl
      exact hd .abort (.inr ⟨rfl, rfl⟩)

theorem Inv.step (h : s.Inv) {a : TwoPhaseAction} (hok : s.WellUsed a)
    (hstep : s.step a = some s') : s'.Inv := by
  cases a with
  | coordinate t participants =>
      obtain ⟨hfresh, hnodup, hidle⟩ := hok
      exact h.coordinate hfresh hnodup hidle hstep
  | advance t order => exact h.advance hstep
  | vote n t v =>
      simp only [TwoPhaseSystem.step] at hstep
      split at hstep
      · next hmem =>
        cases hstep
        exact h.vote hmem
      · cases hstep
  | ack n t =>
      simp only [TwoPhaseSystem.step] at hstep
      split at hstep
      · cases hstep
        exact h.ack n t
      · cases hstep
  | prepare n t canCommit =>
      simp only [TwoPhaseSystem.step] at hstep
      split at hstep
      · next hmem =>
        cases hstep
        exact h.prepare canCommit hmem
      · cases hstep
  | decision n t d order =>
      simp only [TwoPhaseSystem.step] at hstep
      split at hstep
      · next hsent =>
        cases hstep
        refine h.manager (decide_step hsent.2 d) _ fun q hq => ?_
        exact ⟨t, congrArg Prod.snd (List.mem_singleton.mp hq)⟩
      · cases hstep
  | manager n a =>
      obtain ⟨m, hm, rfl⟩ := Option.map_eq_some_iff.mp hstep
      have hn : TwoPhaseSystem.Inv
          { s.setParticipant n { s.participant n with manager := m } with
            network := s.network ++ []
            handled := s.handled } :=
        h.manager hm _ fun q hq => absurd hq List.not_mem_nil
      simpa [setParticipant] using hn
  | record t type resource before after =>
      simp only [TwoPhaseSystem.step] at hstep
      split at hstep
      · cases hstep
      · next htype =>
        cases hstep
        exact h.record resource before after htype
  | crash =>
      cases hstep
      exact h.crash
  | recoverPending =>
      cases hstep
      exact h.recoverPending hok
  | recoverNext t =>
      simp only [TwoPhaseSystem.step] at hstep
      split at hstep
      · next todo hrec =>
        split at hstep
        · next ht =>
          cases hstep
          exact h.recoverNext hrec ht
        · cases hstep
      · cases hstep
  | recovered =>
      simp only [TwoPhaseSystem.step] at hstep
      split at hstep
      · cases hstep
        refine ⟨h.opened, h.logs, h.known, h.distinct, h.network, h.votes,
          fun u call hu => ?_, h.unique, h.agreed, fun todo htodo => ?_⟩
        · obtain ⟨hp, -, hok'⟩ := h.calls u call hu
          exact ⟨hp, rfl, hok'⟩
        · cases htodo
      · cases hstep

end Steps

/-! ## Decision safety -/

structure DecisionSafe (s : TwoPhaseSystem) : Prop where
  logged : ∀ t, ¬ (s.Decided t .commit ∧ s.Decided t .abort)
  sent : ∀ t m n, ¬ ((m, .decision t .commit) ∈ s.network ∧
    (n, .decision t .abort) ∈ s.network)
  commit : ∀ t n, (n, .decision t .commit) ∈ s.network →
    s.Decided t .commit ∧ s.Agreed t
  recovered : s.coordinator.recovering = some ∅ →
    ∀ t, s.Prepared t → ∃ d, s.Decided t d
  again : s.coordinator.recovering = some ∅ →
    ∃ s', run step s [.recovered, .recoverPending] = some s' ∧
      s'.coordinator.wal = s.coordinator.wal ∧
        s'.coordinator.recovering = some ∅

theorem Inv.decisionSafe {s : TwoPhaseSystem} (h : s.Inv) :
    s.DecisionSafe where
  logged := h.unique
  sent := by
    rintro t m n ⟨hcommit, habort⟩
    exact h.unique t ⟨(h.network _ hcommit).2, (h.network _ habort).2⟩
  commit := by
    intro t n hsent
    have hdecided : s.Decided t .commit := (h.network _ hsent).2
    exact ⟨hdecided, h.agreed t hdecided⟩
  recovered := by
    intro hdone t hprepared
    by_contra hnone
    have hmem := (h.pending ∅ hdone t).mpr
      ⟨hprepared, fun d hd => hnone ⟨d, hd⟩⟩
    exact Finset.notMem_empty t hmem
  again := by
    intro hdone
    have hempty : TwoPhaseCoordinator.undecided
        (entriesOf s.coordinator.wal) = ∅ := by
      ext t
      rw [mem_undecided]
      exact (h.pending ∅ hdone t).symm
    refine ⟨_, run_cons.mpr ⟨_, if_pos hdone, run_cons.mpr ⟨_, rfl, rfl⟩⟩,
      rfl, ?_⟩
    exact congrArg some hempty

/-- `"t"` commits, with a vote and a decision handed over twice; the coordinator
crashes while `"u"` waits for a vote, and aborts it. -/
def crashBeforeDecision : List TwoPhaseAction :=
  [.coordinate "t" [1, 2], .advance "t" [1, 2], .advance "t" [1, 2],
    .advance "t" [1, 2], .prepare 2 "t" true, .vote 2 "t" .commit,
    .vote 2 "t" .commit, .prepare 1 "t" true, .vote 1 "t" .commit,
    .advance "t" [1, 2], .advance "t" [1, 2], .advance "t" [1, 2],
    .decision 1 "t" .commit [], .decision 1 "t" .commit [], .advance "t" [1, 2],
    .coordinate "u" [2, 3], .advance "u" [2, 3], .advance "u" [2, 3],
    .prepare 2 "u" true, .vote 2 "u" .commit, .crash, .recoverPending,
    .recoverNext "u"]

def freshManager (n : NodeId) : TransactionManager :=
  .new n (some .new) fun _ => none

end TwoPhaseSystem

end DistributedMemory.Commit
