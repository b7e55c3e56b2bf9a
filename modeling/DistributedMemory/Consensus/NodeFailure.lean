import DistributedMemory.Consensus.FailureDetector

/-!
# What a node does about failures

The detector of a node starts a thread that calls `_on_node_failure` when it begins to
suspect a node, and one that calls `_on_node_recovery` when it hears from a suspected
node.  The thread may run late; it starts an election if the node that failed is the
leader by then.

A node that stops loses its threads, and one that starts knows no leader.  `called` and
`elections` are no fields of the source: they list the calls for which the present
detector of a node has started threads, and the failed leaders for which the node has
called `start_election`.
-/

namespace DistributedMemory.Consensus

open DistributedMemory.Library
open DistributedMemory.Network (NodeId)

/-- A call of `_on_node_failure` or `_on_node_recovery`. -/
inductive Notice where
  | failure (nid : NodeId)
  | recovery (nid : NodeId)
  deriving DecidableEq

def Notice.about : Notice → NodeId
  | .failure nid => nid
  | .recovery nid => nid

namespace FailureDetector

/-- The condition in the loop of `_check_timeouts`. -/
def TimedOut (d : FailureDetector) (now : Int) (nid : NodeId) : Prop :=
  heartbeatTimeout < now - (d.lastSeen.get? nid).getD 0 ∧ nid ∉ d.suspected

instance (d : FailureDetector) (now : Int) (nid : NodeId) :
    Decidable (d.TimedOut now nid) :=
  inferInstanceAs (Decidable (_ ∧ _))

/-- The threads that `_check_timeouts` starts. -/
def timeoutCalls (now : Int) : FailureDetector → List NodeId → List Notice
  | _, [] => []
  | d, nid :: rest =>
      (if d.TimedOut now nid then [.failure nid] else []) ++
        timeoutCalls now (d.checkTimeout now nid) rest

/-- The thread that `_mark_alive` starts. -/
def aliveCalls (d : FailureDetector) (nid : NodeId) : List Notice :=
  if nid ∈ d.suspected then [.recovery nid] else []

end FailureDetector

structure NodeSystem where
  detectors : FailureSystem
  leaderId : NodeId → Option NodeId
  threads : List (NodeId × Notice)
  called : NodeId → List Notice
  elections : NodeId → List NodeId

/-- `lead` is an assignment of `leader_id` by the election algorithm. -/
inductive NodeAction where
  | detect (a : FailureAction)
  | resume (k : Nat)
  | lead (n leader : NodeId)
  deriving DecidableEq

namespace NodeSystem

def new : NodeSystem := ⟨.new, fun _ => none, [], fun _ => [], fun _ => []⟩

/-- The threads that a step of the detectors starts, and the node they belong to. -/
def callsOf (nodes : List NodeId) (s : FailureSystem) :
    FailureAction → Option (NodeId × List Notice)
  | .checkTimeouts n now =>
      (s.node n).map fun d => (n, d.timeoutCalls now (allOtherNodes nodes n))
  | .handle i _ =>
      (pick s.network i).bind fun (message, _) =>
        (s.node message.receiverId).map fun d =>
          (message.receiverId, d.aliveCalls message.senderId)
  | _ => none

def begin (s : NodeSystem) (n : NodeId) (notices : List Notice) : NodeSystem :=
  { s with
    threads := s.threads ++ notices.map fun notice => (n, notice)
    called := Function.update s.called n (s.called n ++ notices) }

def reset (s : NodeSystem) : FailureAction → NodeSystem
  | .start n _ =>
      { s with
        leaderId := Function.update s.leaderId n none
        called := Function.update s.called n [] }
  | .stop n => { s with threads := s.threads.filter (·.1 ≠ n) }
  | _ => s

/-- `_on_node_failure` and `_on_node_recovery`; `elects` are the nodes that have been
given an election algorithm. -/
def handleNotice (elects : NodeId → Bool) (s : NodeSystem) (n : NodeId) :
    Notice → NodeSystem
  | .failure nid =>
      if s.leaderId n = some nid ∧ elects n then
        { s with
          elections := Function.update s.elections n (s.elections n ++ [nid]) }
      else s
  | .recovery _ => s

def step (nodes : List NodeId) (elects : NodeId → Bool) (s : NodeSystem) :
    NodeAction → Option NodeSystem
  | .detect a =>
      (s.detectors.step nodes a).map fun detectors =>
        let s' := match callsOf nodes s.detectors a with
          | none => s
          | some (n, notices) => s.begin n notices
        { s'.reset a with detectors := detectors }
  | .resume k =>
      (pick s.threads k).map fun ((n, notice), rest) =>
        { s with threads := rest }.handleNotice elects n notice
  | .lead n leader =>
      if (s.detectors.node n).isSome then
        some { s with leaderId := Function.update s.leaderId n (some leader) }
      else none

end NodeSystem

/-! ## The calls about one node -/

/-- The notices about `nid`, in their order. -/
def about (nid : NodeId) (notices : List Notice) : List Notice :=
  notices.filter (·.about = nid)

theorem about_append (nid : NodeId) (l₁ l₂ : List Notice) :
    about nid (l₁ ++ l₂) = about nid l₁ ++ about nid l₂ :=
  List.filter_append _ _

/-- `k` notices about `nid`, a failure first and then in turn. -/
def inTurn (nid : NodeId) : Nat → List Notice
  | 0 => []
  | k + 1 => inTurn nid k ++ [if k % 2 = 0 then .failure nid else .recovery nid]

namespace FailureDetector

variable {d : FailureDetector} {now : Int} {nid : NodeId}

@[simp] theorem lastSeen_checkTimeout (d : FailureDetector) (now : Int)
    (nid : NodeId) : (d.checkTimeout now nid).lastSeen = d.lastSeen := by
  unfold checkTimeout
  dsimp only
  split
  · rfl
  · rfl

theorem mem_suspected_checkTimeout {id : NodeId} :
    nid ∈ (d.checkTimeout now id).suspected ↔
      nid ∈ d.suspected ∨ nid = id ∧ d.TimedOut now id := by
  unfold checkTimeout
  dsimp only
  split
  · next h =>
    have hout : d.TimedOut now id := h
    simp [hout, or_comm]
  · next h =>
    have hout : ¬ d.TimedOut now id := h
    simp [hout]

theorem timedOut_checkTimeout {id : NodeId} :
    (d.checkTimeout now id).TimedOut now nid ↔ d.TimedOut now nid ∧ nid ≠ id := by
  rw [TimedOut, mem_suspected_checkTimeout, lastSeen_checkTimeout]
  constructor
  · rintro ⟨hlate, hnot⟩
    have hout : d.TimedOut now nid := ⟨hlate, fun h => hnot (.inl h)⟩
    refine ⟨hout, ?_⟩
    rintro rfl
    exact hnot (.inr ⟨rfl, hout⟩)
  · rintro ⟨hout, hne⟩
    exact ⟨hout.1, fun h => h.elim hout.2 fun heq => hne heq.1⟩

@[simp] theorem lastSeen_checkTimeouts (d : FailureDetector) (ids : List NodeId)
    (now : Int) : (d.checkTimeouts ids now).lastSeen = d.lastSeen := by
  induction ids generalizing d with
  | nil => rfl
  | cons id rest ih => exact (ih _).trans (lastSeen_checkTimeout d now id)

theorem mem_suspected_checkTimeouts {ids : List NodeId} :
    nid ∈ (d.checkTimeouts ids now).suspected ↔
      nid ∈ d.suspected ∨ nid ∈ ids ∧ d.TimedOut now nid := by
  induction ids generalizing d with
  | nil => simp [checkTimeouts]
  | cons id rest ih =>
      have hloop : d.checkTimeouts (id :: rest) now =
          (d.checkTimeout now id).checkTimeouts rest now := rfl
      rw [hloop, ih, mem_suspected_checkTimeout, timedOut_checkTimeout,
        List.mem_cons]
      by_cases heq : nid = id
      · subst heq
        simp
      · simp [heq]

private theorem about_timeoutCalls (d : FailureDetector) (now : Int) (ids : List NodeId)
    (nid : NodeId) : about nid (d.timeoutCalls now ids) =
      if nid ∈ ids ∧ d.TimedOut now nid then [.failure nid] else [] := by
  induction ids generalizing d with
  | nil => simp [timeoutCalls, about]
  | cons id rest ih =>
      rw [timeoutCalls, about_append, ih]
      simp only [timedOut_checkTimeout]
      by_cases heq : nid = id
      · subst heq
        by_cases hout : d.TimedOut now nid
        · simp [hout, about, Notice.about]
        · simp [hout, about]
      · have hnone : about nid
            (if d.TimedOut now id then [.failure id] else []) = [] := by
          split
          · simp [about, Notice.about, Ne.symm heq]
          · rfl
        simp [hnone, heq]

@[simp] theorem suspected_new (others : List NodeId) (now : Int) :
    (new others now).suspected = ∅ := by
  have hfold : ∀ (ids : List NodeId) (d : FailureDetector),
      (ids.foldl (fun d nid =>
        { d with
          lastSeen := d.lastSeen.set nid now
          alive := insert nid d.alive }) d).suspected = d.suspected := by
    intro ids
    induction ids with
    | nil => exact fun _ => rfl
    | cons id rest ih => exact fun d => ih _
  exact hfold others ⟨.empty, ∅, ∅⟩

private theorem lastSeen_markAlive (d : FailureDetector) (nid : NodeId) (now : Int) :
    (d.markAlive nid now).lastSeen = d.lastSeen.set nid now := by
  unfold markAlive
  dsimp only
  split
  · rfl
  · rfl

private theorem about_aliveCalls (d : FailureDetector) (nid sender : NodeId) :
    about nid (d.aliveCalls sender) =
      if nid = sender ∧ nid ∈ d.suspected then [.recovery nid] else [] := by
  unfold aliveCalls
  by_cases heq : nid = sender
  · subst heq
    by_cases h : nid ∈ d.suspected
    · simp [h, about, Notice.about]
    · simp [h, about]
  · by_cases h : sender ∈ d.suspected
    · simp [h, heq, about, Notice.about, Ne.symm heq]
    · simp [h, heq, about]

end FailureDetector

/-! ## One step at one node -/

/-- What a step does about `nid`: nothing, or the suspicion begins or ends, each with
its notice. -/
inductive Toggles (nid : NodeId) (d d' : FailureDetector) (notices : List Notice) :
    Prop where
  | same (silent : about nid notices = [])
      (kept : nid ∈ d'.suspected ↔ nid ∈ d.suspected)
  | failed (before : nid ∉ d.suspected) (after : nid ∈ d'.suspected)
      (notice : about nid notices = [.failure nid])
  | recovered (before : nid ∈ d.suspected) (after : nid ∉ d'.suspected)
      (notice : about nid notices = [.recovery nid])

/-- Nothing that `n` sent is on its way to `m`. -/
def Silent (s : FailureSystem) (n m : NodeId) : Prop :=
  ∀ message ∈ s.network, message.senderId = n → message.receiverId ≠ m

namespace NodeSystem

structure Watches (n : NodeId) (a : FailureAction) (s s' : NodeSystem)
    (d d' : FailureDetector) (notices : List Notice) : Prop where
  after : s'.detectors.node n = some d'
  called : s'.called n = s.called n ++ notices
  threads : ∀ notice, s'.threads.count (n, notice) =
    s.threads.count (n, notice) + notices.count notice
  leaderId : s'.leaderId n = s.leaderId n
  elections : s'.elections = s.elections
  toggles : ∀ nid, Toggles nid d d' notices
  lastSeen : ∀ nid, nid ∈ d'.suspected ∨ Silent s.detectors nid n →
    d'.lastSeen.get? nid = d.lastSeen.get? nid
  cause : ∀ nid, nid ∉ d.suspected → nid ∈ d'.suspected →
    ∃ now, a = .checkTimeouts n now ∧ d.TimedOut now nid
  unheard : ∀ nid, Silent s.detectors nid n → nid ∈ d.suspected →
    nid ∈ d'.suspected

section Step

variable {nodes : List NodeId} {elects : NodeId → Bool} {s s' : NodeSystem}
  {n : NodeId} {a : FailureAction} {d : FailureDetector}

theorem count_threads (s : NodeSystem) (m n : NodeId) (notices : List Notice)
    (notice : Notice) : (s.begin m notices).threads.count (n, notice) =
      s.threads.count (n, notice) +
        if n = m then notices.count notice else 0 := by
  simp only [begin, List.count_append, Nat.add_left_cancel_iff]
  induction notices with
  | nil => simp
  | cons x rest ih =>
      rw [List.map_cons, List.count_cons, List.count_cons, ih]
      by_cases hn : n = m
      · subst hn
        simp
      · simp [hn, Ne.symm hn]

theorem watches_elsewhere {detectors : FailureSystem} {m : NodeId}
    (notices : List Notice) (hm : n ≠ m) (hd : s.detectors.node n = some d)
    (hnode : detectors.node n = s.detectors.node n) :
    Watches n a s { s.begin m notices with detectors := detectors } d d [] where
  after := hnode.trans hd
  called := by simp [begin, Function.update_of_ne hm]
  threads notice := by
    change (s.begin m notices).threads.count (n, notice) = _
    rw [count_threads, if_neg hm]
    rfl
  leaderId := rfl
  elections := rfl
  toggles nid := .same rfl Iff.rfl
  lastSeen nid _ := rfl
  cause nid hout hin := absurd hin hout
  unheard nid _ := id

theorem watches_here {detectors : FailureSystem} {d' : FailureDetector}
    {notices : List Notice} (hnode : detectors.node n = some d')
    (htoggles : ∀ nid, Toggles nid d d' notices)
    (hlastSeen : ∀ nid, nid ∈ d'.suspected ∨ Silent s.detectors nid n →
      d'.lastSeen.get? nid = d.lastSeen.get? nid)
    (hcause : ∀ nid, nid ∉ d.suspected → nid ∈ d'.suspected →
      ∃ now, a = .checkTimeouts n now ∧ d.TimedOut now nid)
    (hunheard : ∀ nid, Silent s.detectors nid n → nid ∈ d.suspected →
      nid ∈ d'.suspected) :
    Watches n a s { s.begin n notices with detectors := detectors } d d'
      notices where
  after := hnode
  called := Function.update_self _ _ _
  threads notice := by
    change (s.begin n notices).threads.count (n, notice) = _
    rw [count_threads, if_pos rfl]
  leaderId := rfl
  elections := rfl
  toggles := htoggles
  lastSeen := hlastSeen
  cause := hcause
  unheard := hunheard

theorem watches_quiet {s₀ : NodeSystem} (hcalled : s₀.called n = s.called n)
    (hthreads : ∀ notice, s₀.threads.count (n, notice) =
      s.threads.count (n, notice))
    (hleader : s₀.leaderId n = s.leaderId n)
    (helections : s₀.elections = s.elections)
    (hd : s₀.detectors.node n = some d) : Watches n a s s₀ d d [] where
  after := hd
  called := by rw [hcalled, List.append_nil]
  threads notice := hthreads notice
  leaderId := hleader
  elections := helections
  toggles nid := .same rfl Iff.rfl
  lastSeen nid _ := rfl
  cause nid hout hin := absurd hin hout
  unheard nid _ := id

private theorem toggles_checkTimeouts (d : FailureDetector) (ids : List NodeId) (now : Int)
    (nid : NodeId) :
    Toggles nid d (d.checkTimeouts ids now) (d.timeoutCalls now ids) := by
  have hcalls := d.about_timeoutCalls now ids nid
  by_cases hout : nid ∈ ids ∧ d.TimedOut now nid
  · rw [if_pos hout] at hcalls
    exact .failed hout.2.2
      (FailureDetector.mem_suspected_checkTimeouts.mpr (.inr hout)) hcalls
  · rw [if_neg hout] at hcalls
    refine .same hcalls ?_
    rw [FailureDetector.mem_suspected_checkTimeouts]
    exact or_iff_left hout

private theorem toggles_markAlive (d : FailureDetector) (sender : NodeId) (now : Int)
    (nid : NodeId) : Toggles nid d (d.markAlive sender now) (d.aliveCalls sender) := by
  have hcalls := d.about_aliveCalls nid sender
  have hsuspected := d.suspected_markAlive sender now
  by_cases hback : nid = sender ∧ nid ∈ d.suspected
  · rw [if_pos hback] at hcalls
    refine .recovered hback.2 ?_ hcalls
    rw [hsuspected, hback.1]
    exact Finset.notMem_erase sender _
  · rw [if_neg hback] at hcalls
    refine .same hcalls ?_
    rw [hsuspected, Finset.mem_erase]
    exact ⟨fun h => h.2, fun h => ⟨fun heq => hback ⟨heq, h⟩, h⟩⟩

theorem watches_detect (hd : s.detectors.node n = some d) (hruns : a ≠ .stop n)
    (hstep : s.step nodes elects (.detect a) = some s') :
    ∃ d' notices, Watches n a s s' d d' notices := by
  obtain ⟨detectors, hdetectors, rfl⟩ := Option.map_eq_some_iff.mp hstep
  cases a with
  | start m now =>
      obtain ⟨s₁, hact, rfl⟩ := Option.map_eq_some_iff.mp hdetectors
      obtain ⟨⟨-, hnone⟩, heq⟩ := Option.ite_none_right_eq_some.mp hact
      obtain rfl := Option.some.inj heq
      have hm : n ≠ m := by
        rintro rfl
        rw [hd] at hnone
        cases hnone
      refine ⟨d, [], watches_quiet ?_ (fun _ => rfl) ?_ rfl ?_⟩
      · exact Function.update_of_ne hm _ _
      · exact Function.update_of_ne hm _ _
      · exact (Function.update_of_ne hm _ _).trans hd
  | stop m =>
      obtain rfl := Option.some.inj hdetectors
      have hm : n ≠ m := fun heq => hruns (heq ▸ rfl)
      refine ⟨d, [], watches_quiet rfl (fun notice => ?_) rfl rfl ?_⟩
      · exact List.count_filter (by simpa using hm)
      · exact (Function.update_of_ne hm _ _).trans hd
  | sendHeartbeats m =>
      obtain ⟨dm, -, rfl⟩ := FailureSystem.step_sendHeartbeats hdetectors
      exact ⟨d, [], watches_quiet rfl (fun _ => rfl) rfl rfl hd⟩
  | checkTimeouts m now =>
      obtain ⟨s₁, hact, rfl⟩ := Option.map_eq_some_iff.mp hdetectors
      obtain ⟨dm, hdm, rfl⟩ := Option.map_eq_some_iff.mp hact
      simp only [callsOf, hdm, Option.map_some]
      by_cases hm : n = m
      · subst hm
        obtain rfl : d = dm := Option.some.inj (hd.symm.trans hdm)
        refine ⟨_, _, watches_here (Function.update_self _ _ _)
          (toggles_checkTimeouts d _ now) (fun nid _ => ?_)
          (fun nid hout hin => ⟨now, rfl, ?_⟩) fun nid _ h => ?_⟩
        · rw [FailureDetector.lastSeen_checkTimeouts]
        · rw [FailureDetector.mem_suspected_checkTimeouts] at hin
          exact (hin.resolve_left hout).2
        · exact FailureDetector.mem_suspected_checkTimeouts.mpr (.inl h)
      · exact ⟨d, [], watches_elsewhere _ hm hd (Function.update_of_ne hm _ _)⟩
  | handle i now =>
      obtain ⟨message, rest, hpick, rfl⟩ := FailureSystem.step_handle hdetectors
      have hnode := FailureSystem.node_handle
        { s.detectors with network := rest } message now n
      cases hreceiver : s.detectors.node message.receiverId with
      | none =>
          simp only [callsOf, hpick, Option.bind_some, hreceiver, Option.map_none]
          have hm : n ≠ message.receiverId := by
            intro heq
            rw [← heq, hd] at hreceiver
            cases hreceiver
          rw [if_neg hm] at hnode
          exact ⟨d, [], watches_quiet rfl (fun _ => rfl) rfl rfl (hnode.trans hd)⟩
      | some dm =>
          simp only [callsOf, hpick, Option.bind_some, hreceiver, Option.map_some]
          by_cases hm : n = message.receiverId
          · rw [if_pos hm] at hnode
            rw [← hm] at hreceiver ⊢
            obtain rfl : d = dm := Option.some.inj (hd.symm.trans hreceiver)
            have hafter := hnode.trans (congrArg (Option.map _) hd)
            have hother (nid : NodeId) (hsilent : Silent s.detectors nid n) :
                nid ≠ message.senderId := fun heq =>
              hsilent message (mem_of_pick hpick) heq.symm hm.symm
            have hsuspected := d.suspected_markAlive message.senderId now
            refine ⟨_, _, watches_here hafter
              (toggles_markAlive d message.senderId now) (fun nid hkept => ?_)
              (fun nid hout hin => ?_) fun nid hsilent h => ?_⟩
            · have hne : nid ≠ message.senderId := by
                rcases hkept with hin | hsilent
                · rw [hsuspected] at hin
                  exact Finset.ne_of_mem_erase hin
                · exact hother nid hsilent
              rw [FailureDetector.lastSeen_markAlive, Dict.get?_set_ne _ _ hne]
            · rw [hsuspected] at hin
              exact absurd (Finset.mem_of_mem_erase hin) hout
            · rw [hsuspected]
              exact Finset.mem_erase.mpr ⟨hother nid hsilent, h⟩
          · rw [if_neg hm] at hnode
            exact ⟨d, [], watches_elsewhere _ hm hd hnode⟩
  | lose i =>
      obtain ⟨s₁, hact, rfl⟩ := Option.map_eq_some_iff.mp hdetectors
      obtain ⟨⟨message, rest⟩, -, rfl⟩ := Option.map_eq_some_iff.mp hact
      exact ⟨d, [], watches_quiet rfl (fun _ => rfl) rfl rfl hd⟩

theorem starts_of_detect (hnone : s.detectors.node n = none)
    (hstep : s.step nodes elects (.detect a) = some s')
    (hd : s'.detectors.node n = some d) :
    d.suspected = ∅ ∧ s'.called n = [] := by
  obtain ⟨detectors, hdetectors, rfl⟩ := Option.map_eq_some_iff.mp hstep
  cases a with
  | start m now =>
      obtain ⟨s₁, hact, rfl⟩ := Option.map_eq_some_iff.mp hdetectors
      obtain ⟨-, heq⟩ := Option.ite_none_right_eq_some.mp hact
      obtain rfl := Option.some.inj heq
      by_cases hm : n = m
      · subst hm
        simp only [Function.update_self, Option.some.injEq] at hd
        subst hd
        exact ⟨FailureDetector.suspected_new _ now, Function.update_self _ _ _⟩
      · simp only [Function.update_of_ne hm, hnone] at hd
        cases hd
  | stop m =>
      obtain rfl := Option.some.inj hdetectors
      by_cases hm : n = m
      · subst hm
        simp at hd
      · simp only [Function.update_of_ne hm, hnone] at hd
        cases hd
  | sendHeartbeats m =>
      obtain ⟨dm, -, rfl⟩ := FailureSystem.step_sendHeartbeats hdetectors
      exact absurd (hnone.symm.trans hd) (by simp)
  | checkTimeouts m now =>
      obtain ⟨s₁, hact, rfl⟩ := Option.map_eq_some_iff.mp hdetectors
      obtain ⟨dm, hdm, rfl⟩ := Option.map_eq_some_iff.mp hact
      have hm : n ≠ m := by
        rintro rfl
        rw [hnone] at hdm
        cases hdm
      simp only [Function.update_of_ne hm, hnone] at hd
      cases hd
  | handle i now =>
      obtain ⟨message, rest, -, rfl⟩ := FailureSystem.step_handle hdetectors
      have hnode := FailureSystem.node_handle
        { s.detectors with network := rest } message now n
      simp only [hnone, Option.map_none, ite_self] at hnode
      exact absurd (hnode.symm.trans hd) (by simp)
  | lose i =>
      obtain ⟨s₁, hact, rfl⟩ := Option.map_eq_some_iff.mp hdetectors
      obtain ⟨⟨message, rest⟩, -, rfl⟩ := Option.map_eq_some_iff.mp hact
      exact absurd (hnone.symm.trans hd) (by simp)

theorem ne_stop_of_detect (hstep : s.step nodes elects (.detect a) = some s')
    (hd : s'.detectors.node n = some d) : a ≠ .stop n := by
  obtain ⟨detectors, hdetectors, rfl⟩ := Option.map_eq_some_iff.mp hstep
  rintro rfl
  obtain rfl := Option.some.inj hdetectors
  simp at hd

private theorem detectors_handleNotice (s : NodeSystem) (n : NodeId) (notice : Notice) :
    (s.handleNotice elects n notice).detectors = s.detectors ∧
      (s.handleNotice elects n notice).called = s.called := by
  cases notice with
  | failure nid =>
      simp only [handleNotice]
      split
      · exact ⟨rfl, rfl⟩
      · exact ⟨rfl, rfl⟩
  | recovery nid => exact ⟨rfl, rfl⟩

theorem detectors_of_step {a : NodeAction} (ha : ∀ b, a ≠ .detect b)
    (hstep : s.step nodes elects a = some s') :
    s'.detectors = s.detectors ∧ s'.called = s.called := by
  cases a with
  | detect b => exact absurd rfl (ha b)
  | resume k =>
      obtain ⟨⟨⟨m, notice⟩, rest⟩, -, rfl⟩ := Option.map_eq_some_iff.mp hstep
      exact detectors_handleNotice _ m notice
  | lead m leader =>
      obtain ⟨-, heq⟩ := Option.ite_none_right_eq_some.mp hstep
      obtain rfl := Option.some.inj heq
      exact ⟨rfl, rfl⟩

end Step

/-! ## Failures and recoveries in turn -/

/-- The notices about `nid` at `n`, failures and recoveries in turn, and the suspicion
after them. -/
def Turns (s : NodeSystem) (n : NodeId) (d : FailureDetector) (nid : NodeId) : Prop :=
  ∃ k, about nid (s.called n) = inTurn nid k ∧ (nid ∈ d.suspected ↔ k % 2 = 1)

/-- A check has found `nid` overdue at `n`, which has seen nothing of it since. -/
def Overdue (nodes : List NodeId) (elects : NodeId → Bool)
    (actions : List NodeAction) (n : NodeId) (d : FailureDetector) (nid : NodeId) :
    Prop :=
  ∃ before now after s₁ d₁,
    actions = before ++ .detect (.checkTimeouts n now) :: after ∧
    run (step nodes elects) new before = some s₁ ∧
    s₁.detectors.node n = some d₁ ∧
    heartbeatTimeout < now - (d₁.lastSeen.get? nid).getD 0 ∧
    d.lastSeen.get? nid = d₁.lastSeen.get? nid

section Runs

variable {nodes : List NodeId} {elects : NodeId → Bool} {s s' : NodeSystem}
  {n nid : NodeId} {d d' : FailureDetector}

theorem Turns.after {notices : List Notice} (hturns : s.Turns n d nid)
    (h : Toggles nid d d' notices) (hcalled : s'.called n = s.called n ++ notices) :
    s'.Turns n d' nid := by
  obtain ⟨k, hk, hiff⟩ := hturns
  unfold Turns
  rw [hcalled, about_append, hk]
  cases h with
  | same silent kept => exact ⟨k, by rw [silent, List.append_nil], kept.trans hiff⟩
  | failed before after notice =>
      have heven : k % 2 = 0 := by
        have := mt hiff.mpr before
        omega
      refine ⟨k + 1, ?_, iff_of_true after (by omega)⟩
      rw [notice, inTurn, if_pos heven]
  | recovered before after notice =>
      have hodd := hiff.mp before
      refine ⟨k + 1, ?_, iff_of_false after (by omega)⟩
      rw [notice, inTurn, if_neg (by omega)]

private theorem turns_step {a : NodeAction}
    (h : ∀ n d, s.detectors.node n = some d → ∀ nid, s.Turns n d nid)
    (hstep : s.step nodes elects a = some s') :
    ∀ n d, s'.detectors.node n = some d → ∀ nid, s'.Turns n d nid := by
  intro n d' hd' nid
  by_cases ha : ∃ b, a = .detect b
  · obtain ⟨b, rfl⟩ := ha
    cases hd : s.detectors.node n with
    | none =>
        obtain ⟨hnone, hcalled⟩ := starts_of_detect hd hstep hd'
        exact ⟨0, by rw [hcalled]; rfl, by simp [hnone]⟩
    | some d =>
        obtain ⟨d₁, notices, hw⟩ :=
          watches_detect hd (ne_stop_of_detect hstep hd') hstep
        obtain rfl : d₁ = d' := Option.some.inj (hw.after.symm.trans hd')
        exact (h n d hd nid).after (hw.toggles nid) hw.called
  · obtain ⟨hdetectors, hcalled⟩ :=
      detectors_of_step (fun b hb => ha ⟨b, hb⟩) hstep
    unfold Turns
    rw [hcalled]
    rw [hdetectors] at hd'
    exact h n d' hd' nid

/-- Whom a node suspects was overdue at one of its checks. -/
theorem run_overdue {actions : List NodeAction}
    (hrun : run (step nodes elects) new actions = some s)
    (hd : s.detectors.node n = some d) (hin : nid ∈ d.suspected) :
    Overdue nodes elects actions n d nid := by
  induction actions using List.reverseRecOn generalizing s d with
  | nil =>
      cases hrun
      cases hd
  | append_singleton earlier a ih =>
      obtain ⟨s₀, hearlier, hlast⟩ := run_append.mp hrun
      obtain ⟨s₁, hstep, hend⟩ := run_cons.mp hlast
      cases hend
      have hlater {d₀ : FailureDetector} (hd₀ : s₀.detectors.node n = some d₀)
          (hin₀ : nid ∈ d₀.suspected)
          (hseen : d.lastSeen.get? nid = d₀.lastSeen.get? nid) :
          Overdue nodes elects (earlier ++ [a]) n d nid := by
        obtain ⟨before, now, after, s₂, d₂, rfl, hbefore, hd₂, hlate, hsince⟩ :=
          ih hearlier hd₀ hin₀
        exact ⟨before, now, after ++ [a], s₂, d₂, by simp, hbefore, hd₂, hlate,
          hseen.trans hsince⟩
      by_cases ha : ∃ b, a = .detect b
      · obtain ⟨b, rfl⟩ := ha
        cases hd₀ : s₀.detectors.node n with
        | none =>
            obtain ⟨hnone, -⟩ := starts_of_detect hd₀ hstep hd
            rw [hnone] at hin
            exact absurd hin (Finset.notMem_empty nid)
        | some d₀ =>
            obtain ⟨d₁, notices, hw⟩ :=
              watches_detect hd₀ (ne_stop_of_detect hstep hd) hstep
            obtain rfl : d₁ = d := Option.some.inj (hw.after.symm.trans hd)
            have hseen := hw.lastSeen nid (.inl hin)
            by_cases hin₀ : nid ∈ d₀.suspected
            · exact hlater hd₀ hin₀ hseen
            · obtain ⟨now, rfl, hout⟩ := hw.cause nid hin₀ hin
              exact ⟨earlier, now, [], s₀, d₀, rfl, hearlier, hd₀, hout.1, hseen⟩
      · obtain ⟨hdetectors, -⟩ :=
          detectors_of_step (fun b hb => ha ⟨b, hb⟩) hstep
        rw [hdetectors] at hd
        exact hlater hd hin rfl

end Runs

/--
At every moment of every run and for every node `n` that is running, the calls for which
its detector has started threads about another node are failures and recoveries in
turn, a failure first; the node is suspected exactly when the last one was a failure,
and held alive otherwise.  A suspected node was overdue at one of the checks of `n` and
has not been seen since.
-/
theorem run_notices (nodes : List NodeId) (elects : NodeId → Bool)
    (actions : List NodeAction) (s : NodeSystem)
    (hrun : run (step nodes elects) new actions = some s) (n : NodeId)
    (d : FailureDetector) (hd : s.detectors.node n = some d) (nid : NodeId)
    (hnid : nid ∈ allOtherNodes nodes n) :
    (∃ k, about nid (s.called n) = inTurn nid k ∧
      (nid ∈ d.suspected ↔ k % 2 = 1)) ∧
    (nid ∈ d.alive ↔ nid ∉ d.suspected) ∧
    (nid ∈ d.suspected → Overdue nodes elects actions n d nid) := by
  have hturns : ∀ n d, s.detectors.node n = some d → ∀ nid, s.Turns n d nid :=
    run_preserves
      (I := fun s : NodeSystem =>
        ∀ n d, s.detectors.node n = some d → ∀ nid, s.Turns n d nid)
      (fun _ _ _ h hstep => turns_step h hstep)
      (fun _ _ hd => by cases hd) hrun
  have hinv : s.detectors.Inv nodes := by
    refine run_preserves (I := fun s : NodeSystem => s.detectors.Inv nodes)
      (fun s a s' h hstep => ?_) (FailureSystem.inv_new nodes) hrun
    by_cases ha : ∃ b, a = .detect b
    · obtain ⟨b, rfl⟩ := ha
      obtain ⟨detectors, hdetectors, rfl⟩ := Option.map_eq_some_iff.mp hstep
      exact h.step hdetectors
    · rw [(detectors_of_step (fun b hb => ha ⟨b, hb⟩) hstep).1]
      exact h
  exact ⟨hturns n d hd nid, hinv.classifies n d hd nid hnid,
    fun hin => run_overdue hrun hd hin⟩

/-- Node 0 suspects the running node 1, hears from it and suspects it again. -/
def suspectedTwice : List NodeAction :=
  [.detect (.start 0 0), .detect (.start 1 0), .detect (.sendHeartbeats 1),
    .detect (.checkTimeouts 0 4000), .detect (.handle 0 5000), .resume 1,
    .detect (.checkTimeouts 0 9000)]

theorem suspectedTwice_notices :
    ∃ s d, run (step [0, 1] fun _ => true) new suspectedTwice = some s ∧
      s.detectors.node 0 = some d ∧ 1 ∈ allOtherNodes [0, 1] 0 ∧ 1 ∈ d.suspected ∧
      (∃ k, about 1 (s.called 0) = inTurn 1 k ∧ (1 ∈ d.suspected ↔ k % 2 = 1)) ∧
      about 1 (s.called 0) = [.failure 1, .recovery 1, .failure 1] ∧
      1 ∉ d.alive ∧ Overdue [0, 1] (fun _ => true) suspectedTwice 0 d 1 := by
  have hend : (run (step [0, 1] fun _ => true) new suspectedTwice).bind (fun s =>
      (s.detectors.node 0).map fun d => decide (1 ∈ d.suspected ∧
        about 1 (s.called 0) = [.failure 1, .recovery 1, .failure 1])) =
        some true := by
    decide +kernel
  obtain ⟨s, hs, hmap⟩ := Option.bind_eq_some_iff.mp hend
  obtain ⟨d, hd, hdec⟩ := Option.map_eq_some_iff.mp hmap
  obtain ⟨hin, hcalled⟩ := of_decide_eq_true hdec
  obtain ⟨hturns, halive, hoverdue⟩ := run_notices [0, 1] (fun _ => true)
    suspectedTwice s hs 0 d hd 1 (by decide)
  exact ⟨s, d, hs, hd, by decide, hin, hturns, hcalled,
    fun h => halive.mp h hin, hoverdue hin⟩

/-! ## A node that has stopped -/

end NodeSystem

namespace NodeAction

/-- `n` is not stopped, and `nid` not started. -/
def spares (n nid : NodeId) : NodeAction → Bool
  | .detect (.stop m) => m ≠ n
  | .detect (.start m _) => m ≠ nid
  | _ => true

def keepsLeader (n : NodeId) : NodeAction → Bool
  | .lead m _ => m ≠ n
  | _ => true

end NodeAction

private theorem FailureSystem.dead_step {nodes : List NodeId} {s s' : FailureSystem}
    {a : FailureAction} {n nid : NodeId} (hdead : s.node nid = none)
    (hsilent : Silent s nid n) (ha : ∀ now, a ≠ .start nid now)
    (hstep : s.step nodes a = some s') :
    s'.node nid = none ∧ Silent s' nid n := by
  cases a with
  | start m now =>
      obtain ⟨s₁, hact, rfl⟩ := Option.map_eq_some_iff.mp hstep
      obtain ⟨-, heq⟩ := Option.ite_none_right_eq_some.mp hact
      obtain rfl := Option.some.inj heq
      have hm : nid ≠ m := fun heq => ha now (heq ▸ rfl)
      exact ⟨(Function.update_of_ne hm _ _).trans hdead, hsilent⟩
  | stop m =>
      obtain rfl := Option.some.inj hstep
      refine ⟨?_, fun message hmem => hsilent message (List.mem_of_mem_filter hmem)⟩
      by_cases hm : nid = m
      · subst hm
        exact Function.update_self _ _ _
      · exact (Function.update_of_ne hm _ _).trans hdead
  | sendHeartbeats m =>
      obtain ⟨d, hd, rfl⟩ := step_sendHeartbeats hstep
      refine ⟨hdead, fun message hmem hsender => ?_⟩
      rcases List.mem_append.mp hmem with hmem | hmem
      · exact hsilent message hmem hsender
      · obtain ⟨target, -, rfl⟩ := List.mem_map.mp hmem
        obtain rfl : m = nid := hsender
        rw [hdead] at hd
        cases hd
  | checkTimeouts m now =>
      obtain ⟨s₁, hact, rfl⟩ := Option.map_eq_some_iff.mp hstep
      obtain ⟨d, hd, rfl⟩ := Option.map_eq_some_iff.mp hact
      have hm : nid ≠ m := by
        rintro rfl
        rw [hdead] at hd
        cases hd
      exact ⟨(Function.update_of_ne hm _ _).trans hdead, hsilent⟩
  | handle i now =>
      obtain ⟨message, rest, hpick, rfl⟩ := step_handle hstep
      have hrest : Silent { s with network := rest } nid n :=
        fun m hm => hsilent m ((mem_pick hpick).mpr (.inr hm))
      constructor
      · have hnode := node_handle { s with network := rest } message now nid
        simp only [hdead, Option.map_none, ite_self] at hnode
        exact hnode
      · by_cases hreceiver : message.receiverId = nid
        · have hsame : ({ s with network := rest } : FailureSystem).handle
              message now = { s with network := rest } := by
            simp only [handle, hreceiver, hdead]
          intro m hm
          rw [hsame] at hm
          exact hrest m hm
        · obtain ⟨acks, hnetwork, hacks⟩ :=
            network_handle { s with network := rest } message now
          intro m hm hsender
          simp only [hnetwork, List.mem_append] at hm
          rcases hm with hm | hm
          · exact hrest m hm hsender
          · rcases hacks with rfl | ⟨-, rfl⟩
            · cases hm
            · obtain rfl := List.mem_singleton.mp hm
              exact absurd hsender hreceiver
  | lose i =>
      obtain ⟨s₁, hact, rfl⟩ := Option.map_eq_some_iff.mp hstep
      obtain ⟨⟨message, rest⟩, hpick, rfl⟩ := Option.map_eq_some_iff.mp hact
      exact ⟨hdead, fun m hm => hsilent m ((mem_pick hpick).mpr (.inr hm))⟩

namespace NodeSystem

section Stopped

variable {nodes : List NodeId} {elects : NodeId → Bool} {s t t' : NodeSystem}
  {n nid : NodeId} {d d' : FailureDetector}

/-- From `s` to `t` node `n` has run on while `nid` has not: `d` and `d'` are the states
of its detector. -/
structure Outlives (n nid : NodeId) (s : NodeSystem) (d : FailureDetector)
    (t : NodeSystem) (d' : FailureDetector) : Prop where
  after : t.detectors.node n = some d'
  dead : t.detectors.node nid = none
  silent : Silent t.detectors nid n
  lastSeen : d'.lastSeen.get? nid = d.lastSeen.get? nid
  kept : nid ∈ d.suspected → nid ∈ d'.suspected
  notices : about nid (t.called n) = about nid (s.called n) ++
    if nid ∈ d'.suspected ∧ nid ∉ d.suspected then [.failure nid] else []

theorem Outlives.step {a : NodeAction} (h : Outlives n nid s d t d')
    (ha : a.spares n nid = true) (hstep : t.step nodes elects a = some t') :
    ∃ d'', Outlives n nid s d t' d'' ∧
      (nid ∈ d'.suspected → nid ∈ d''.suspected) := by
  by_cases hdetect : ∃ b, a = .detect b
  · obtain ⟨b, rfl⟩ := hdetect
    have hruns : b ≠ .stop n := by
      rintro rfl
      simp [NodeAction.spares] at ha
    have hstarts : ∀ now, b ≠ .start nid now := by
      rintro now rfl
      simp [NodeAction.spares] at ha
    obtain ⟨d'', notices, hw⟩ := watches_detect h.after hruns hstep
    obtain ⟨detectors, hdetectors, rfl⟩ := Option.map_eq_some_iff.mp hstep
    obtain ⟨hdead, hsilent⟩ := FailureSystem.dead_step h.dead h.silent hstarts
      hdetectors
    have hstays := hw.unheard nid h.silent
    refine ⟨d'', ⟨hw.after, hdead, hsilent,
      (hw.lastSeen nid (.inr h.silent)).trans h.lastSeen,
      fun hin => hstays (h.kept hin), ?_⟩, hstays⟩
    rw [hw.called, about_append, h.notices]
    cases hw.toggles nid with
    | same quiet kept => simp only [quiet, List.append_nil, kept]
    | failed before after notice =>
        have hnot : nid ∉ d.suspected := fun hin => before (h.kept hin)
        simp [before, after, hnot, notice]
    | recovered before after notice => exact absurd (hstays before) after
  · obtain ⟨hdetectors, hcalled⟩ :=
      detectors_of_step (fun b hb => hdetect ⟨b, hb⟩) hstep
    refine ⟨d', ⟨?_, ?_, ?_, h.lastSeen, h.kept, ?_⟩, id⟩
    · rw [hdetectors]
      exact h.after
    · rw [hdetectors]
      exact h.dead
    · rw [hdetectors]
      exact h.silent
    · rw [hcalled]
      exact h.notices

private theorem node_checkTimeouts {now : Int}
    (hstep : t.step nodes elects (.detect (.checkTimeouts n now)) = some t')
    (hd' : t.detectors.node n = some d') : t'.detectors.node n =
      some (d'.checkTimeouts (allOtherNodes nodes n) now) := by
  obtain ⟨detectors, hdetectors, rfl⟩ := Option.map_eq_some_iff.mp hstep
  obtain ⟨s₁, hact, rfl⟩ := Option.map_eq_some_iff.mp hdetectors
  obtain ⟨d₁, hd₁, rfl⟩ := Option.map_eq_some_iff.mp hact
  obtain rfl : d' = d₁ := Option.some.inj (hd'.symm.trans hd₁)
  exact Function.update_self _ _ _

theorem Outlives.check {now : Int} (h : Outlives n nid s d t d')
    (hnid : nid ∈ allOtherNodes nodes n)
    (hlate : heartbeatTimeout < now - (d.lastSeen.get? nid).getD 0)
    (hstep : t.step nodes elects (.detect (.checkTimeouts n now)) = some t') :
    ∃ d'', Outlives n nid s d t' d'' ∧ nid ∈ d''.suspected := by
  obtain ⟨d'', h', -⟩ := h.step (by rfl) hstep
  refine ⟨d'', h', ?_⟩
  obtain rfl : d'.checkTimeouts (allOtherNodes nodes n) now = d'' :=
    Option.some.inj ((node_checkTimeouts hstep h.after).symm.trans h'.after)
  rw [FailureDetector.mem_suspected_checkTimeouts]
  by_cases hin : nid ∈ d'.suspected
  · exact .inl hin
  · refine .inr ⟨hnid, ?_, hin⟩
    rw [h.lastSeen]
    exact hlate

/-- While `nid` is the leader at `n`, each thread about its failure leads to an
election. -/
structure Leads (n nid : NodeId) (s t : NodeSystem) (k : Nat) : Prop where
  leaderId : t.leaderId n = some nid
  elections : t.elections n = s.elections n ++ List.replicate k nid
  balance : k + t.threads.count (n, .failure nid) +
      (s.called n).count (.failure nid) =
    (t.called n).count (.failure nid) + s.threads.count (n, .failure nid)

theorem Leads.detect {b : FailureAction} {k : Nat} (h : Leads n nid s t k)
    (hd' : t.detectors.node n = some d') (hruns : b ≠ .stop n)
    (hstep : t.step nodes elects (.detect b) = some t') : Leads n nid s t' k := by
  obtain ⟨d'', notices, hw⟩ := watches_detect hd' hruns hstep
  have hbalance := h.balance
  have hthreads := hw.threads (.failure nid)
  refine ⟨hw.leaderId.trans h.leaderId, ?_, ?_⟩
  · rw [hw.elections]
    exact h.elections
  · rw [hw.called, List.count_append]
    omega

theorem Leads.resume {k i : Nat} (h : Leads n nid s t k) (helects : elects n = true)
    (hstep : t.step nodes elects (.resume i) = some t') :
    ∃ k', Leads n nid s t' k' := by
  obtain ⟨⟨⟨m, notice⟩, rest⟩, hpick, rfl⟩ := Option.map_eq_some_iff.mp hstep
  have hcount := (pick_perm hpick).count_eq (n, Notice.failure nid)
  rw [List.count_cons] at hcount
  have hbalance := h.balance
  by_cases hown : m = n ∧ notice = .failure nid
  · obtain ⟨rfl, rfl⟩ := hown
    have hgoes : t.leaderId m = some nid ∧ elects m = true := ⟨h.leaderId, helects⟩
    refine ⟨k + 1, ?_⟩
    simp only [handleNotice, if_pos hgoes]
    refine ⟨h.leaderId, ?_, ?_⟩
    · simp only [Function.update_self, h.elections, List.replicate_succ',
        List.append_assoc]
    · simp only [beq_self_eq_true, if_true] at hcount
      simp only
      omega
  · have hother : ((m, notice) == (n, Notice.failure nid)) = false := by
      simpa using hown
    rw [hother, if_neg (by simp), Nat.add_zero] at hcount
    rw [hcount] at hbalance
    refine ⟨k, ?_⟩
    cases notice with
    | recovery x => exact ⟨h.leaderId, h.elections, hbalance⟩
    | failure x =>
        simp only [handleNotice]
        split
        · next hgoes =>
          have hm : n ≠ m := by
            rintro rfl
            have hx : nid = x := Option.some.inj (h.leaderId.symm.trans hgoes.1)
            exact hown ⟨rfl, hx ▸ rfl⟩
          exact ⟨h.leaderId, (Function.update_of_ne hm _ _).trans h.elections,
            hbalance⟩
        · exact ⟨h.leaderId, h.elections, hbalance⟩

theorem Leads.step {a : NodeAction} {k : Nat} (h : Leads n nid s t k)
    (hd' : t.detectors.node n = some d') (helects : elects n = true)
    (hspares : a.spares n nid = true) (hkeeps : a.keepsLeader n = true)
    (hstep : t.step nodes elects a = some t') : ∃ k', Leads n nid s t' k' := by
  cases a with
  | detect b =>
      refine ⟨k, h.detect hd' ?_ hstep⟩
      rintro rfl
      simp [NodeAction.spares] at hspares
  | resume i => exact h.resume helects hstep
  | lead m leader =>
      obtain ⟨-, heq⟩ := Option.ite_none_right_eq_some.mp hstep
      obtain rfl := Option.some.inj heq
      have hm : n ≠ m := by
        rintro rfl
        simp [NodeAction.keepsLeader] at hkeeps
      exact ⟨k, (Function.update_of_ne hm _ _).trans h.leaderId, h.elections,
        h.balance⟩

theorem run_outlives {actions : List NodeAction}
    (hspares : ∀ a ∈ actions, a.spares n nid = true)
    (h : Outlives n nid s d t d')
    (hrun : run (step nodes elects) t actions = some t') :
    ∃ d'', Outlives n nid s d t' d'' ∧
      (nid ∈ d'.suspected → nid ∈ d''.suspected) := by
  refine run_invariant
    (I := fun u : NodeSystem => ∃ d'', Outlives n nid s d u d'' ∧
      (nid ∈ d'.suspected → nid ∈ d''.suspected))
    (fun u a u' hu ha hstep => ?_) ⟨d', h, id⟩
    (along_of_forall_mem hspares t) hrun
  obtain ⟨d₁, h₁, hstays⟩ := hu
  obtain ⟨d₂, h₂, hstays'⟩ := h₁.step ha hstep
  exact ⟨d₂, h₂, fun hin => hstays' (hstays hin)⟩

private theorem run_leads {actions : List NodeAction} (h : Outlives n nid s d s d)
    (helects : elects n = true) (hleader : s.leaderId n = some nid)
    (hspares : ∀ a ∈ actions, a.spares n nid = true)
    (hkeeps : ∀ a ∈ actions, a.keepsLeader n = true)
    (hrun : run (step nodes elects) s actions = some t) :
    ∃ k, Leads n nid s t k := by
  have hboth : ∀ a ∈ actions, a.spares n nid = true ∧ a.keepsLeader n = true :=
    fun a ha => ⟨hspares a ha, hkeeps a ha⟩
  have hstart : Leads n nid s s 0 := by
    refine ⟨hleader, ?_, by omega⟩
    rw [List.replicate_zero, List.append_nil]
  have hend := run_invariant
    (I := fun u : NodeSystem => (∃ d', Outlives n nid s d u d') ∧
      ∃ k, Leads n nid s u k)
    (fun u a u' hu ha hstep => ?_) ⟨⟨d, h⟩, 0, hstart⟩
    (along_of_forall_mem hboth s) hrun
  · exact hend.2
  · obtain ⟨⟨d₁, h₁⟩, k, hk⟩ := hu
    obtain ⟨d₂, h₂, -⟩ := h₁.step ha.1 hstep
    exact ⟨⟨d₂, h₂⟩, hk.step h₁.after helects ha.1 ha.2 hstep⟩

end Stopped

/--
A node `nid` does not run, and nothing of it is on its way to the running node `n`.  In
every run in which `n` is not stopped and `nid` not started, one check at `n` that comes
more than the timeout after it last saw `nid` is enough: from then on `n` suspects `nid`,
and it has been told so once if it did not suspect `nid` before.  If `n` has an election
algorithm, `nid` is the leader for `n` throughout and all threads about it have run, `n`
has called `start_election` once for each of them.
-/
theorem run_leaderReplaced (nodes : List NodeId) (elects : NodeId → Bool)
    (actions : List NodeAction) (s t : NodeSystem)
    (hrun : run (step nodes elects) s actions = some t) (n nid : NodeId)
    (d : FailureDetector) (hd : s.detectors.node n = some d)
    (hnid : nid ∈ allOtherNodes nodes n) (hdead : s.detectors.node nid = none)
    (hsilent : Silent s.detectors nid n)
    (hspares : ∀ a ∈ actions, a.spares n nid = true) (now : Int)
    (hcheck : .detect (.checkTimeouts n now) ∈ actions)
    (hlate : heartbeatTimeout < now - (d.lastSeen.get? nid).getD 0) :
    ∃ d', t.detectors.node n = some d' ∧ nid ∈ d'.suspected ∧
      about nid (t.called n) = about nid (s.called n) ++
        (if nid ∈ d.suspected then [] else [.failure nid]) ∧
      (s.leaderId n = some nid → elects n = true →
        (∀ a ∈ actions, a.keepsLeader n = true) →
        (n, .failure nid) ∉ t.threads →
        t.elections n = s.elections n ++
          List.replicate (s.threads.count (n, .failure nid) +
            if nid ∈ d.suspected then 0 else 1) nid) := by
  have hstart : Outlives n nid s d s d :=
    ⟨hd, hdead, hsilent, rfl, id, by simp⟩
  obtain ⟨before, after, rfl⟩ := List.append_of_mem hcheck
  simp only [List.mem_append, List.mem_cons] at hspares
  obtain ⟨s₁, hbefore, hrest⟩ := run_append.mp hrun
  obtain ⟨s₂, hstep, hafter⟩ := run_cons.mp hrest
  obtain ⟨d₁, h₁, -⟩ := run_outlives (fun a ha => hspares a (.inl ha)) hstart hbefore
  obtain ⟨d₂, h₂, hin⟩ := h₁.check hnid hlate hstep
  obtain ⟨d₃, h₃, hstays⟩ :=
    run_outlives (fun a ha => hspares a (.inr (.inr ha))) h₂ hafter
  have hnotices : about nid (t.called n) = about nid (s.called n) ++
      if nid ∈ d.suspected then [] else [.failure nid] := by
    rw [h₃.notices]
    by_cases h : nid ∈ d.suspected
    · simp [h]
    · simp [h, hstays hin]
  refine ⟨d₃, h₃.after, hstays hin, hnotices, fun hleader helects hkeeps hrun' => ?_⟩
  obtain ⟨k, hk⟩ := run_leads hstart helects hleader
    (by simpa only [List.mem_append, List.mem_cons] using hspares) hkeeps hrun
  have hcount (l : List Notice) :
      l.count (.failure nid) = (about nid l).count (.failure nid) :=
    (List.count_filter (by simp [Notice.about])).symm
  have hbalance := hk.balance
  rw [List.count_eq_zero.mpr hrun', hcount (t.called n), hcount (s.called n),
    hnotices, List.count_append] at hbalance
  have hk' : k = s.threads.count (n, .failure nid) +
      if nid ∈ d.suspected then 0 else 1 := by
    by_cases hin : nid ∈ d.suspected
    · simp only [if_pos hin, List.count_nil] at hbalance ⊢
      omega
    · simp only [if_neg hin, List.count_singleton_self] at hbalance ⊢
      omega
  exact hk' ▸ hk.elections

/-- Node 1, which node 0 takes for the leader, stops. -/
def leaderStopped : List NodeAction :=
  [.detect (.start 0 0), .detect (.start 1 0), .lead 0 1, .detect (.stop 1)]

def detected : List NodeAction :=
  [.detect (.checkTimeouts 0 4000), .resume 0]

theorem leaderStopped_leaderReplaced :
    ∃ s t d', run (step [0, 1] fun _ => true) new leaderStopped = some s ∧
      run (step [0, 1] fun _ => true) s detected = some t ∧
      t.detectors.node 0 = some d' ∧ 1 ∈ d'.suspected ∧
      about 1 (t.called 0) = [.failure 1] ∧ t.elections 0 = [1] := by
  have hend : (run (step [0, 1] fun _ => true) new leaderStopped).bind (fun s =>
      (s.detectors.node 0).bind fun d =>
        (run (step [0, 1] fun _ => true) s detected).map fun t =>
          decide ((s.detectors.network = [] ∧
            (s.detectors.node 1).isNone = true ∧ s.leaderId 0 = some 1 ∧
            s.called 0 = [] ∧ s.elections 0 = [] ∧ s.threads = []) ∧
            1 ∉ d.suspected ∧ d.lastSeen.get? 1 = some 0 ∧ t.threads = [])) =
        some true := by
    decide +kernel
  obtain ⟨s, hs, hbind⟩ := Option.bind_eq_some_iff.mp hend
  obtain ⟨d, hd, hmap⟩ := Option.bind_eq_some_iff.mp hbind
  obtain ⟨t, ht, hdec⟩ := Option.map_eq_some_iff.mp hmap
  obtain ⟨⟨hnetwork, hstopped, hleader, hcalled, helections, hthreads⟩, hout, hseen,
    hdone⟩ := of_decide_eq_true hdec
  have hlate : heartbeatTimeout < 4000 - (d.lastSeen.get? 1).getD 0 := by
    rw [hseen]
    decide
  obtain ⟨d', hd', hin, hnotices, hreplaced⟩ :=
    run_leaderReplaced [0, 1] (fun _ => true) detected s t ht 0 1 d hd (by decide)
      (Option.isNone_iff_eq_none.mp hstopped) (by simp [Silent, hnetwork])
      (by decide) 4000 (by decide) hlate
  refine ⟨s, t, d', hs, ht, hd', hin, ?_, ?_⟩
  · rw [hnotices, hcalled, if_neg hout]
    rfl
  · rw [hreplaced hleader rfl (by decide) (by simp [hdone]), helections, hthreads,
      if_neg hout]
    rfl

end NodeSystem

end DistributedMemory.Consensus
