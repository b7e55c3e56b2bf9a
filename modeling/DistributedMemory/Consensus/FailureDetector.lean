import DistributedMemory.Library.Bag
import DistributedMemory.Library.Dict
import DistributedMemory.Library.Run
import DistributedMemory.Network.Clock
import Mathlib.Data.Finset.Basic

/-!
# The failure detectors

Each node sends heartbeats to the nodes that it does not suspect and suspects a
node that it has not heard of for too long.  A message from a suspected node ends
the suspicion.

Times are what `time.time()` returns, in milliseconds.  A node that stops loses
its connections and what was on its way to it; one that starts has a new detector.
`steps` counts the steps made so far, and `sentAt` says in which one a message was
sent; neither is a field of the source.
-/

namespace DistributedMemory.Consensus

open DistributedMemory.Library
open DistributedMemory.Network (NodeId)

/-- `HEARTBEAT_TIMEOUT` -/
def heartbeatTimeout : Int := 3000

structure FailureDetector where
  lastSeen : Dict NodeId Int
  suspected : Finset NodeId
  alive : Finset NodeId

namespace FailureDetector

/-- `others` is `get_all_other_nodes` of the node. -/
def new (others : List NodeId) (now : Int) : FailureDetector :=
  others.foldl
    (fun d nid => { d with
      lastSeen := d.lastSeen.set nid now
      alive := insert nid d.alive })
    ⟨.empty, ∅, ∅⟩

def markAlive (d : FailureDetector) (nid : NodeId) (now : Int) :
    FailureDetector :=
  let d := { d with lastSeen := d.lastSeen.set nid now }
  if nid ∈ d.suspected then
    { d with
      suspected := d.suspected.erase nid
      alive := insert nid d.alive }
  else d

/-- One round of the loop of `_check_timeouts`. -/
def checkTimeout (now : Int) (d : FailureDetector) (nid : NodeId) :
    FailureDetector :=
  let elapsed := now - (d.lastSeen.get? nid).getD 0
  if heartbeatTimeout < elapsed ∧ nid ∉ d.suspected then
    { d with
      suspected := insert nid d.suspected
      alive := d.alive.erase nid }
  else d

def checkTimeouts (d : FailureDetector) (others : List NodeId) (now : Int) :
    FailureDetector :=
  others.foldl (checkTimeout now) d

end FailureDetector

inductive HeartbeatType where
  | heartbeat
  | heartbeatAck
  deriving DecidableEq

structure Heartbeat where
  type : HeartbeatType
  senderId : NodeId
  receiverId : NodeId
  sentAt : Nat
  deriving DecidableEq

/-- `node n` is `none` while `n` does not run. -/
structure FailureSystem where
  node : NodeId → Option FailureDetector
  network : List Heartbeat
  steps : Nat

inductive FailureAction where
  | start (n : NodeId) (now : Int)
  | stop (n : NodeId)
  | sendHeartbeats (n : NodeId)
  | checkTimeouts (n : NodeId) (now : Int)
  | handle (i : Nat) (now : Int)
  | lose (i : Nat)
  deriving DecidableEq

def FailureAction.undisturbed : FailureAction → Bool
  | .sendHeartbeats _ => true
  | .handle _ _ => true
  | _ => false

/-- `get_all_other_nodes`; `nodes` are the keys of `NODES`. -/
def allOtherNodes (nodes : List NodeId) (n : NodeId) : List NodeId :=
  nodes.filter (· ≠ n)

namespace FailureSystem

def new : FailureSystem := ⟨fun _ => none, [], 0⟩

def post (s : FailureSystem) (type : HeartbeatType) (n : NodeId)
    (targets : List NodeId) : FailureSystem :=
  { s with
    network := s.network ++
      (targets.filter fun target => (s.node target).isSome).map fun target =>
        ⟨type, n, target, s.steps⟩ }

/-- `_handle_heartbeat` and `_handle_heartbeat_ack`; a node that does not run
ignores the message. -/
def handle (s : FailureSystem) (message : Heartbeat) (now : Int) :
    FailureSystem :=
  match s.node message.receiverId with
  | none => s
  | some d =>
      let s := { s with
        node := Function.update s.node message.receiverId
          (some (d.markAlive message.senderId now)) }
      match message.type with
      | .heartbeat => s.post .heartbeatAck message.receiverId [message.senderId]
      | .heartbeatAck => s

def act (nodes : List NodeId) (s : FailureSystem) :
    FailureAction → Option FailureSystem
  | .start n now =>
      if n ∈ nodes ∧ s.node n = none then
        some { s with
          node := Function.update s.node n
            (some (.new (allOtherNodes nodes n) now)) }
      else none
  | .stop n =>
      some { s with
        node := Function.update s.node n none
        network := s.network.filter (·.receiverId ≠ n) }
  | .sendHeartbeats n =>
      (s.node n).map fun d => s.post .heartbeat n
        ((allOtherNodes nodes n).filter (· ∉ d.suspected))
  | .checkTimeouts n now =>
      (s.node n).map fun d => { s with
        node := Function.update s.node n
          (some (d.checkTimeouts (allOtherNodes nodes n) now)) }
  | .handle i now =>
      (pick s.network i).map fun (message, rest) =>
        { s with network := rest }.handle message now
  | .lose i =>
      (pick s.network i).map fun (_, rest) => { s with network := rest }

def step (nodes : List NodeId) (s : FailureSystem) (a : FailureAction) :
    Option FailureSystem :=
  (s.act nodes a).map fun s' => { s' with steps := s.steps + 1 }

/-- Every running node trusts every other running node. -/
def Trusting (s : FailureSystem) : Prop :=
  ∀ i j d, i ≠ j → s.node i = some d → (s.node j).isSome →
    j ∉ d.suspected ∧ j ∈ d.alive

/-- Of two running nodes at most one suspects the other. -/
def OneSided (s : FailureSystem) : Prop :=
  ∀ i j di dj, i ≠ j → s.node i = some di → s.node j = some dj →
    j ∈ di.suspected → i ∉ dj.suspected

/-- From `s` every running node sends its heartbeats once, and the messages that
result are handled; none is lost, and no timeout is checked meanwhile. -/
structure Round (nodes : List NodeId) (s : FailureSystem)
    (actions : List FailureAction) (t : FailureSystem) : Prop where
  reaches : run (step nodes) s actions = some t
  undisturbed : ∀ a ∈ actions, a.undisturbed = true
  sends : ∀ n, (s.node n).isSome → actions.count (.sendHeartbeats n) = 1
  handled : ∀ message ∈ t.network, message.sentAt < s.steps

end FailureSystem

/-! ## One detector -/

namespace FailureDetector

def Classifies (others : List NodeId) (d : FailureDetector) : Prop :=
  ∀ nid ∈ others, nid ∈ d.alive ↔ nid ∉ d.suspected

theorem suspected_markAlive (d : FailureDetector) (nid : NodeId) (now : Int) :
    (d.markAlive nid now).suspected = d.suspected.erase nid := by
  unfold markAlive
  dsimp only
  split
  · rfl
  · next hnot => exact (Finset.erase_eq_of_notMem hnot).symm

private theorem classifies_new (others : List NodeId) (now : Int) :
    Classifies others (new others now) := by
  have hfold : ∀ (ids : List NodeId) (d : FailureDetector),
      let d' := ids.foldl (fun d nid =>
        { d with
          lastSeen := d.lastSeen.set nid now
          alive := insert nid d.alive }) d
      d'.suspected = d.suspected ∧ ∀ nid, nid ∈ d'.alive ↔
        nid ∈ ids ∨ nid ∈ d.alive := by
    intro ids
    induction ids with
    | nil => simp
    | cons id rest ih =>
        intro d
        obtain ⟨hsuspected, halive⟩ := ih { d with
          lastSeen := d.lastSeen.set id now
          alive := insert id d.alive }
        refine ⟨hsuspected, fun nid => (halive nid).trans ?_⟩
        simp only [Finset.mem_insert, List.mem_cons]
        tauto
  intro nid hnid
  obtain ⟨hsuspected, halive⟩ := hfold others ⟨.empty, ∅, ∅⟩
  have hnone : nid ∉ (new others now).suspected := by
    rw [new, hsuspected]
    exact Finset.notMem_empty nid
  exact iff_of_true ((halive nid).mpr (.inl hnid)) hnone

theorem Classifies.markAlive {others : List NodeId} {d : FailureDetector}
    (h : d.Classifies others) (nid : NodeId) (now : Int) :
    (d.markAlive nid now).Classifies others := by
  intro other hother
  unfold FailureDetector.markAlive
  dsimp only
  split
  · simp only [Finset.mem_insert, Finset.mem_erase, h other hother]
    tauto
  · exact h other hother

theorem Classifies.checkTimeouts {others : List NodeId} {d : FailureDetector}
    (h : d.Classifies others) (ids : List NodeId) (now : Int) :
    (d.checkTimeouts ids now).Classifies others := by
  induction ids generalizing d with
  | nil => exact h
  | cons id rest ih =>
      apply ih
      intro other hother
      unfold checkTimeout
      dsimp only
      split
      · simp only [Finset.mem_insert, Finset.mem_erase, h other hother]
        tauto
      · exact h other hother

end FailureDetector

/-! ## The steps of a round -/

namespace FailureSystem

theorem node_handle (s : FailureSystem) (message : Heartbeat) (now : Int)
    (n : NodeId) : (s.handle message now).node n =
      if n = message.receiverId then
        (s.node n).map fun d => d.markAlive message.senderId now
      else s.node n := by
  unfold handle
  split
  · next hnone =>
    split
    · next heq => rw [heq, hnone, Option.map_none]
    · rfl
  · next d hd =>
    have hnode : ∀ s' : FailureSystem, s'.node = Function.update s.node
        message.receiverId (some (d.markAlive message.senderId now)) →
        s'.node n = if n = message.receiverId then
          (s.node n).map fun d => d.markAlive message.senderId now
        else s.node n := by
      intro s' hs'
      rw [hs', Function.update_apply]
      split
      · next heq => rw [heq, hd, Option.map_some]
      · rfl
    dsimp only
    split
    · exact hnode _ rfl
    · exact hnode _ rfl

theorem network_handle (s : FailureSystem) (message : Heartbeat) (now : Int) :
    ∃ acks, (s.handle message now).network = s.network ++ acks ∧
      (acks = [] ∨ message.type = .heartbeat ∧
        acks = [⟨.heartbeatAck, message.receiverId, message.senderId,
          s.steps⟩]) := by
  unfold handle
  split
  · exact ⟨[], (List.append_nil _).symm, .inl rfl⟩
  · dsimp only
    split
    · next htype =>
      refine ⟨_, rfl, ?_⟩
      rw [List.filter_singleton, Bool.cond_eq_ite]
      split
      · exact .inr ⟨htype, rfl⟩
      · exact .inl rfl
    · exact ⟨[], (List.append_nil _).symm, .inl rfl⟩

section Round

variable {nodes : List NodeId} {s s' : FailureSystem} {a : FailureAction}

theorem step_sendHeartbeats {n : NodeId}
    (hstep : s.step nodes (.sendHeartbeats n) = some s') :
    ∃ d, s.node n = some d ∧ s' = { s.post .heartbeat n
      ((allOtherNodes nodes n).filter (· ∉ d.suspected)) with
        steps := s.steps + 1 } := by
  obtain ⟨s₁, hact, rfl⟩ := Option.map_eq_some_iff.mp hstep
  obtain ⟨d, hd, rfl⟩ := Option.map_eq_some_iff.mp hact
  exact ⟨d, hd, rfl⟩

theorem step_handle {i : Nat} {now : Int}
    (hstep : s.step nodes (.handle i now) = some s') :
    ∃ message rest, pick s.network i = some (message, rest) ∧
      s' = { { s with network := rest }.handle message now with
        steps := s.steps + 1 } := by
  obtain ⟨s₁, hact, rfl⟩ := Option.map_eq_some_iff.mp hstep
  obtain ⟨⟨message, rest⟩, hpick, rfl⟩ := Option.map_eq_some_iff.mp hact
  exact ⟨message, rest, hpick, rfl⟩

private theorem steps_step (hstep : s.step nodes a = some s') :
    s'.steps = s.steps + 1 := by
  obtain ⟨s₁, -, rfl⟩ := Option.map_eq_some_iff.mp hstep
  rfl

theorem calm_step (ha : a.undisturbed = true)
    (hstep : s.step nodes a = some s') (n : NodeId) :
    (s.node n = none ∧ s'.node n = none) ∨ ∃ d d', s.node n = some d ∧
      s'.node n = some d' ∧ d'.suspected ⊆ d.suspected := by
  have hsame : s'.node n = s.node n →
      (s.node n = none ∧ s'.node n = none) ∨ ∃ d d', s.node n = some d ∧
        s'.node n = some d' ∧ d'.suspected ⊆ d.suspected := by
    intro heq
    rw [heq]
    cases hn : s.node n with
    | none => exact .inl ⟨rfl, rfl⟩
    | some d => exact .inr ⟨d, d, rfl, rfl, Finset.Subset.refl _⟩
  cases a with
  | sendHeartbeats m =>
      obtain ⟨d, -, rfl⟩ := step_sendHeartbeats hstep
      exact hsame rfl
  | handle i now =>
      obtain ⟨message, rest, -, rfl⟩ := step_handle hstep
      have hnode := node_handle { s with network := rest } message now n
      by_cases hn : n = message.receiverId
      · rw [if_pos hn] at hnode
        cases hd : s.node n with
        | none =>
            refine .inl ⟨rfl, hnode.trans ?_⟩
            rw [hd, Option.map_none]
        | some d =>
            refine .inr ⟨d, d.markAlive message.senderId now, rfl,
              hnode.trans ?_, ?_⟩
            · rw [hd, Option.map_some]
            · rw [FailureDetector.suspected_markAlive]
              exact Finset.erase_subset _ _
      · rw [if_neg hn] at hnode
        exact hsame hnode
  | start m now => cases ha
  | stop m => cases ha
  | checkTimeouts m now => cases ha
  | lose i => cases ha

def Trusts (s : FailureSystem) (n m : NodeId) : Prop :=
  ∀ d, s.node n = some d → m ∉ d.suspected

theorem Trusts.step {n m : NodeId} (h : s.Trusts n m)
    (ha : a.undisturbed = true) (hstep : s.step nodes a = some s') :
    s'.Trusts n m := by
  intro d' hd' hm
  rcases calm_step ha hstep n with ⟨-, hnone⟩ | ⟨d, d'', hd, hd'', hsub⟩
  · rw [hnone] at hd'
    cases hd'
  · rw [hd''] at hd'
    cases hd'
    exact h d hd (hsub hm)

/-- Node `m` trusts `n`, or is about to hear from it in a heartbeat sent since
step `k`. -/
def Hears (s : FailureSystem) (k : Nat) (n m : NodeId) : Prop :=
  s.Trusts m n ∨ ∃ message ∈ s.network, message.type = .heartbeat ∧
    message.senderId = n ∧ message.receiverId = m ∧ k ≤ message.sentAt

theorem Hears.step {k : Nat} {n m : NodeId} (h : s.Hears k n m)
    (ha : a.undisturbed = true) (hstep : s.step nodes a = some s') :
    s'.Hears k n m := by
  rcases h with htrusts | ⟨message, hmem, hmessage⟩
  · exact .inl (htrusts.step ha hstep)
  · cases a with
    | sendHeartbeats x =>
        obtain ⟨d, -, rfl⟩ := step_sendHeartbeats hstep
        exact .inr ⟨message, List.mem_append_left _ hmem, hmessage⟩
    | handle i now =>
        obtain ⟨handled, rest, hpick, rfl⟩ := step_handle hstep
        rcases (mem_pick hpick).mp hmem with rfl | hrest
        · left
          intro d' hd'
          have hnode := node_handle { s with network := rest } message now m
          rw [if_pos hmessage.2.2.1.symm] at hnode
          obtain ⟨d, -, rfl⟩ := Option.map_eq_some_iff.mp (hnode.symm.trans hd')
          rw [FailureDetector.suspected_markAlive, hmessage.2.1]
          exact Finset.notMem_erase n _
        · obtain ⟨acks, hnetwork, -⟩ :=
            network_handle { s with network := rest } handled now
          refine .inr ⟨message, ?_, hmessage⟩
          exact hnetwork ▸ List.mem_append_left _ hrest
    | start x now => cases ha
    | stop x => cases ha
    | checkTimeouts x now => cases ha
    | lose i => cases ha

private theorem hears_of_sendHeartbeats {k : Nat} {n m : NodeId} (hne : m ≠ n)
    (hm : m ∈ nodes) (hk : k ≤ s.steps) (htrusts : s.Trusts n m)
    (hstep : s.step nodes (.sendHeartbeats n) = some s') : s'.Hears k n m := by
  obtain ⟨d, hd, rfl⟩ := step_sendHeartbeats hstep
  cases hrunning : s.node m with
  | none =>
      left
      intro d' hd'
      rw [show s.node m = some d' from hd'] at hrunning
      cases hrunning
  | some d' =>
      refine .inr ⟨⟨.heartbeat, n, m, s.steps⟩, ?_, rfl, rfl, rfl, hk⟩
      refine List.mem_append_right _ (List.mem_map.mpr ⟨m, ?_, rfl⟩)
      simp [allOtherNodes, hm, hne, htrusts d hd, hrunning]

end Round

/-! ## Trust comes back -/

theorem run_calm {nodes : List NodeId} {I : FailureSystem → Prop}
    (hI : ∀ s a s', I s → a.undisturbed = true → step nodes s a = some s' →
      I s')
    {s t : FailureSystem} {actions : List FailureAction}
    (hcalm : ∀ a ∈ actions, a.undisturbed = true) (hinit : I s)
    (hrun : run (step nodes) s actions = some t) : I t := by
  have hall : Along (step nodes) (fun _ _ => True) s actions :=
    along_of_forall (fun _ _ => trivial) s actions
  have hok := along_and hcalm hall
  exact run_invariant (fun s a s' h hok => hI s a s' h hok.1) hinit hok hrun

private theorem Round.trusts {nodes : List NodeId} {s t : FailureSystem}
    {actions : List FailureAction} (h : Round nodes s actions t)
    {n m : NodeId} (hne : m ≠ n) (hm : m ∈ nodes)
    (hn : (s.node n).isSome) (htrusts : s.Trusts n m) : t.Trusts m n := by
  have hsent : FailureAction.sendHeartbeats n ∈ actions := by
    apply List.count_pos_iff.mp
    rw [h.sends n hn]
    exact Nat.one_pos
  obtain ⟨before, after, rfl⟩ := List.append_of_mem hsent
  have hcalm := h.undisturbed
  simp only [List.mem_append, List.mem_cons] at hcalm
  obtain ⟨s₁, hbefore, hrest⟩ := run_append.mp h.reaches
  obtain ⟨s₂, hstep, hafter⟩ := run_cons.mp hrest
  have hfirst : s.steps ≤ s₁.steps ∧ s₁.Trusts n m := by
    refine run_calm (I := fun s' => s.steps ≤ s'.steps ∧ s'.Trusts n m)
      (fun s' a s'' h' ha hs => ?_) (fun a ha => hcalm a (.inl ha))
      ⟨Nat.le_refl _, htrusts⟩ hbefore
    rw [steps_step hs]
    exact ⟨Nat.le_succ_of_le h'.1, h'.2.step ha hs⟩
  have hhears : t.Hears s.steps n m := by
    refine run_calm (I := fun s' => s'.Hears s.steps n m)
      (fun s' a s'' h' ha hs => h'.step ha hs)
      (fun a ha => hcalm a (.inr (.inr ha))) ?_ hafter
    exact hears_of_sendHeartbeats hne hm hfirst.1 hfirst.2 hstep
  rcases hhears with htrusts' | ⟨message, hmem, -, -, -, hsentAt⟩
  · exact htrusts'
  · exact absurd (h.handled message hmem) (Nat.not_lt.mpr hsentAt)

structure Inv (nodes : List NodeId) (s : FailureSystem) : Prop where
  configured : ∀ n, (s.node n).isSome → n ∈ nodes
  classifies : ∀ n d, s.node n = some d →
    d.Classifies (allOtherNodes nodes n)
  past : ∀ message ∈ s.network, message.sentAt < s.steps

theorem inv_new (nodes : List NodeId) : new.Inv nodes where
  configured := by simp [new]
  classifies := by simp [new]
  past := by simp [new]

theorem Inv.update {nodes : List NodeId} {s : FailureSystem} (h : s.Inv nodes)
    {n : NodeId} {d : FailureDetector} (hn : n ∈ nodes)
    (hd : d.Classifies (allOtherNodes nodes n)) {network : List Heartbeat}
    (hnetwork : ∀ message ∈ network, message.sentAt ≤ s.steps) :
    Inv nodes ⟨Function.update s.node n (some d), network, s.steps + 1⟩ := by
  refine ⟨fun m hm => ?_, fun m d' hd' => ?_, fun message hmessage =>
    Nat.lt_succ_of_le (hnetwork message hmessage)⟩
  · simp only [Function.update_apply] at hm
    split at hm
    · next heq => exact heq ▸ hn
    · exact h.configured m hm
  · simp only [Function.update_apply] at hd'
    split at hd'
    · next heq =>
      cases hd'
      exact heq ▸ hd
    · exact h.classifies m d' hd'

theorem Inv.step {nodes : List NodeId} {s s' : FailureSystem}
    {a : FailureAction} (h : s.Inv nodes)
    (hstep : s.step nodes a = some s') : s'.Inv nodes := by
  have hpast : ∀ message ∈ s.network, message.sentAt ≤ s.steps :=
    fun message hmessage => Nat.le_of_lt (h.past message hmessage)
  cases a with
  | start n now =>
      obtain ⟨s₁, hact, rfl⟩ := Option.map_eq_some_iff.mp hstep
      simp only [act] at hact
      split at hact
      · next hn =>
        cases hact
        exact h.update hn.1 (FailureDetector.classifies_new _ now) hpast
      · cases hact
  | stop n =>
      cases hstep
      refine ⟨fun m hm => ?_, fun m d hd => ?_, fun message hmessage => ?_⟩
      · simp only [Function.update_apply] at hm
        split at hm
        · cases hm
        · exact h.configured m hm
      · simp only [Function.update_apply] at hd
        split at hd
        · cases hd
        · exact h.classifies m d hd
      · exact Nat.lt_succ_of_lt (h.past message (List.mem_of_mem_filter hmessage))
  | sendHeartbeats n =>
      obtain ⟨d, -, rfl⟩ := step_sendHeartbeats hstep
      refine ⟨h.configured, h.classifies, fun message hmessage => ?_⟩
      rcases List.mem_append.mp hmessage with hmessage | hmessage
      · exact Nat.lt_succ_of_lt (h.past message hmessage)
      · obtain ⟨target, -, rfl⟩ := List.mem_map.mp hmessage
        exact Nat.lt_succ_self _
  | checkTimeouts n now =>
      obtain ⟨s₁, hact, rfl⟩ := Option.map_eq_some_iff.mp hstep
      obtain ⟨d, hd, rfl⟩ := Option.map_eq_some_iff.mp hact
      have hn := h.configured n (by rw [hd]; rfl)
      exact h.update hn ((h.classifies n d hd).checkTimeouts _ now) hpast
  | handle i now =>
      obtain ⟨message, rest, hpick, rfl⟩ := step_handle hstep
      have hrest : ∀ m ∈ rest, m.sentAt ≤ s.steps :=
        fun m hm => hpast m ((mem_pick hpick).mpr (.inr hm))
      refine ⟨fun n hn => ?_, fun n d hd => ?_, fun m hm => ?_⟩
      · rw [node_handle] at hn
        split at hn
        · rw [Option.isSome_map] at hn
          exact h.configured n hn
        · exact h.configured n hn
      · rw [node_handle] at hd
        split at hd
        · obtain ⟨d₀, hd₀, rfl⟩ := Option.map_eq_some_iff.mp hd
          exact (h.classifies n d₀ hd₀).markAlive _ now
        · exact h.classifies n d hd
      · obtain ⟨acks, hnetwork, hacks⟩ :=
          network_handle { s with network := rest } message now
        simp only [hnetwork, List.mem_append] at hm
        apply Nat.lt_succ_of_le
        rcases hm with hm | hm
        · exact hrest m hm
        · rcases hacks with rfl | ⟨-, rfl⟩
          · cases hm
          · rw [List.mem_singleton.mp hm]
  | lose i =>
      obtain ⟨s₁, hact, rfl⟩ := Option.map_eq_some_iff.mp hstep
      obtain ⟨⟨message, rest⟩, hpick, rfl⟩ := Option.map_eq_some_iff.mp hact
      refine ⟨h.configured, h.classifies, fun m hm => ?_⟩
      exact Nat.lt_succ_of_lt (h.past m ((mem_pick hpick).mpr (.inr hm)))

theorem Round.isSome {nodes : List NodeId} {s t : FailureSystem}
    {actions : List FailureAction} (h : Round nodes s actions t) (n : NodeId) :
    (t.node n).isSome = (s.node n).isSome := by
  refine run_calm (I := fun s' => (s'.node n).isSome = (s.node n).isSome)
    (fun s' a s'' h' ha hs => ?_) h.undisturbed rfl h.reaches
  rcases calm_step ha hs n with ⟨hn, hn'⟩ | ⟨d, d', hd, hd', -⟩
  · rw [hn', ← h', hn]
  · rw [hd', ← h', hd]
    rfl

theorem Round.trusting {nodes : List NodeId} {s t : FailureSystem}
    {actions : List FailureAction} (h : Round nodes s actions t)
    (hs : s.Inv nodes) (honeSided : s.OneSided) : t.Trusting := by
  have ht : t.Inv nodes :=
    run_preserves (fun _ _ _ h hstep => h.step hstep) hs h.reaches
  intro i j d hij hi hj
  have hi' : (s.node i).isSome := by
    rw [← h.isSome i, hi]
    rfl
  have hj' : (s.node j).isSome := h.isSome j ▸ hj
  obtain ⟨di, hdi⟩ := Option.isSome_iff_exists.mp hi'
  obtain ⟨dj, hdj⟩ := Option.isSome_iff_exists.mp hj'
  have htrusts : t.Trusts i j := by
    by_cases hsuspects : j ∈ di.suspected
    · -- Then `j` does not suspect `i`, and its heartbeat ends the suspicion.
      apply h.trusts hij (hs.configured i hi') hj'
      intro d' hd'
      rw [hdj] at hd'
      cases hd'
      exact honeSided i j di dj hij hdi hdj hsuspects
    · refine run_calm (I := fun s' => s'.Trusts i j)
        (fun s' a s'' h' ha hs => h'.step ha hs) h.undisturbed ?_ h.reaches
      intro d' hd'
      rw [hdi] at hd'
      cases hd'
      exact hsuspects
  refine ⟨htrusts d hi, (ht.classifies i d hi j ?_).mpr (htrusts d hi)⟩
  simp [allOtherNodes, hs.configured j hj', hij.symm]

/-! ## Mutual suspicion stays -/

/-- Node `n` suspects `m`, and nothing sent by `m` since step `k` is on its way to
`n`. -/
def Shuns (s : FailureSystem) (k : Nat) (n m : NodeId) : Prop :=
  (∃ d, s.node n = some d ∧ m ∈ d.suspected) ∧
    ∀ message ∈ s.network, k ≤ message.sentAt → message.senderId = m →
      message.receiverId ≠ n

theorem Shuns.sendHeartbeats {nodes : List NodeId} {s s' : FailureSystem}
    {k : Nat} {n m : NodeId} (hnm : s.Shuns k n m) (hmn : s.Shuns k m n)
    {x : NodeId} (hstep : s.step nodes (.sendHeartbeats x) = some s') :
    s'.Shuns k n m := by
  obtain ⟨d, hd, rfl⟩ := step_sendHeartbeats hstep
  refine ⟨hnm.1, fun message hmessage hk hsender => ?_⟩
  rcases List.mem_append.mp hmessage with hmessage | hmessage
  · exact hnm.2 message hmessage hk hsender
  · obtain ⟨target, htarget, rfl⟩ := List.mem_map.mp hmessage
    rintro rfl
    obtain rfl : x = m := hsender
    obtain ⟨dm, hdm, hsuspects⟩ := hmn.1
    rw [hd] at hdm
    cases hdm
    have htrusted := (List.mem_filter.mp (List.mem_of_mem_filter htarget)).2
    exact absurd hsuspects (of_decide_eq_true htrusted)

theorem Shuns.handle {nodes : List NodeId} {s s' : FailureSystem} {k : Nat}
    {n m : NodeId} (hnm : s.Shuns k n m) (hmn : s.Shuns k m n) {i : Nat}
    {now : Int} {message : Heartbeat} (hi : s.network[i]? = some message)
    (hk : k ≤ message.sentAt)
    (hstep : s.step nodes (.handle i now) = some s') : s'.Shuns k n m := by
  obtain ⟨_, rest, hpick, rfl⟩ := step_handle hstep
  obtain ⟨rfl, -⟩ := Prod.mk.inj
    (Option.some.inj ((pick_of_getElem? hi).symm.trans hpick))
  have hmem := mem_of_pick hpick
  obtain ⟨d, hd, hsuspects⟩ := hnm.1
  constructor
  · have hnode := node_handle { s with network := rest } message now n
    by_cases hn : n = message.receiverId
    · have hne : m ≠ message.senderId := fun heq =>
        hnm.2 message hmem hk heq.symm hn.symm
      rw [if_pos hn, show ({ s with network := rest } : FailureSystem).node n =
        some d from hd, Option.map_some] at hnode
      refine ⟨_, hnode, ?_⟩
      rw [FailureDetector.suspected_markAlive]
      exact Finset.mem_erase.mpr ⟨hne, hsuspects⟩
    · rw [if_neg hn] at hnode
      exact ⟨d, hnode.trans hd, hsuspects⟩
  · obtain ⟨acks, hnetwork, hacks⟩ :=
      network_handle { s with network := rest } message now
    intro later hlater hk' hsender
    simp only [hnetwork, List.mem_append] at hlater
    rcases hlater with hlater | hlater
    · exact hnm.2 later ((mem_pick hpick).mpr (.inr hlater)) hk' hsender
    · rcases hacks with rfl | ⟨-, rfl⟩
      · cases hlater
      · obtain rfl := List.mem_singleton.mp hlater
        exact fun hreceiver => hmn.2 message hmem hk hreceiver hsender

private theorem exists_sends (nodes : List NodeId) {k : Nat} {n m : NodeId}
    (senders : List NodeId) {s : FailureSystem}
    (hsenders : ∀ x ∈ senders, (s.node x).isSome) (hnm : s.Shuns k n m)
    (hmn : s.Shuns k m n) :
    ∃ t, run (step nodes) s (senders.map .sendHeartbeats) = some t ∧
      t.Shuns k n m ∧ t.Shuns k m n := by
  induction senders generalizing s with
  | nil => exact ⟨s, rfl, hnm, hmn⟩
  | cons x rest ih =>
      obtain ⟨d, hd⟩ := Option.isSome_iff_exists.mp (hsenders x (by simp))
      have hstep : ∃ s', s.step nodes (.sendHeartbeats x) = some s' ∧
          s'.node = s.node := by
        simp only [step, act, hd, Option.map_some]
        exact ⟨_, rfl, rfl⟩
      obtain ⟨s', hstep, hnode⟩ := hstep
      obtain ⟨t, ht, hend⟩ := ih
        (fun y hy => hnode ▸ hsenders y (List.mem_cons_of_mem x hy))
        (hnm.sendHeartbeats hmn hstep) (hmn.sendHeartbeats hnm hstep)
      exact ⟨t, run_cons.mpr ⟨s', hstep, ht⟩, hend⟩

/-- The messages sent since step `k`; a heartbeat counts twice, since it will be
acknowledged. -/
def backlog (k : Nat) (network : List Heartbeat) : Nat :=
  network.countP (fun message => k ≤ message.sentAt) +
    network.countP fun message =>
      k ≤ message.sentAt ∧ message.type = .heartbeat

private theorem backlog_handle {nodes : List NodeId} {s s' : FailureSystem} {k i : Nat}
    {now : Int} {message : Heartbeat} (hi : s.network[i]? = some message)
    (hk : k ≤ message.sentAt)
    (hstep : s.step nodes (.handle i now) = some s') :
    backlog k s'.network < backlog k s.network := by
  obtain ⟨_, rest, hpick, rfl⟩ := step_handle hstep
  obtain ⟨rfl, -⟩ := Prod.mk.inj
    (Option.some.inj ((pick_of_getElem? hi).symm.trans hpick))
  have hperm := pick_perm hpick
  obtain ⟨acks, hnetwork, hacks⟩ :=
    network_handle { s with network := rest } message now
  simp only [backlog, hnetwork, hperm.countP_eq, List.countP_append,
    List.countP_cons, hk]
  rcases hacks with rfl | ⟨htype, rfl⟩
  · simp only [List.countP_nil]
    simp
    omega
  · simp [htype, List.countP_cons]
    split <;> omega

private theorem exists_handles (nodes : List NodeId) {k : Nat} {n m : NodeId} (b : Nat)
    {s : FailureSystem} (hb : backlog k s.network ≤ b) (hnm : s.Shuns k n m)
    (hmn : s.Shuns k m n) :
    ∃ (is : List Nat) (t : FailureSystem),
      run (step nodes) s (is.map fun i => .handle i 0) = some t ∧
        t.Shuns k n m ∧ ∀ message ∈ t.network, message.sentAt < k := by
  induction b generalizing s with
  | zero =>
      refine ⟨[], s, rfl, hnm, fun message hmessage => ?_⟩
      have hzero : s.network.countP (fun message => k ≤ message.sentAt) = 0 := by
        rw [backlog] at hb
        omega
      have hnot := List.countP_eq_zero.mp hzero message hmessage
      simpa using hnot
  | succ b ih =>
      by_cases hall : ∀ message ∈ s.network, message.sentAt < k
      · exact ⟨[], s, rfl, hnm, hall⟩
      · push Not at hall
        obtain ⟨message, hmessage, hk⟩ := hall
        obtain ⟨i, hi⟩ := List.mem_iff_getElem?.mp hmessage
        have hstep : ∃ s', s.step nodes (.handle i 0) = some s' := by
          simp only [step, act, pick_of_getElem? hi, Option.map_some]
          exact ⟨_, rfl⟩
        obtain ⟨s', hstep⟩ := hstep
        have hlt := backlog_handle hi hk hstep
        obtain ⟨is, t, ht, hend⟩ := ih (by omega)
          (hnm.handle hmn hi hk hstep) (hmn.handle hnm hi hk hstep)
        exact ⟨i :: is, t, run_cons.mpr ⟨s', hstep, ht⟩, hend⟩

theorem exists_round {nodes : List NodeId} (hnodes : nodes.Nodup)
    {s : FailureSystem} (h : s.Inv nodes) {n m : NodeId} (hne : n ≠ m)
    {dn dm : FailureDetector} (hn : s.node n = some dn)
    (hm : s.node m = some dm) (hnm : m ∈ dn.suspected)
    (hmn : n ∈ dm.suspected) :
    ∃ actions t, Round nodes s actions t ∧ ¬ t.Trusting := by
  have hfresh : ∀ x y, ∀ message ∈ s.network, s.steps ≤ message.sentAt →
      message.senderId = x → message.receiverId ≠ y := by
    intro x y message hmessage hk
    exact absurd (h.past message hmessage) (Nat.not_lt.mpr hk)
  obtain ⟨s₁, hsends, hnm₁, hmn₁⟩ := exists_sends nodes (k := s.steps)
    (n := n) (m := m) (nodes.filter fun x => (s.node x).isSome)
    (fun x hx => by simpa using (List.mem_filter.mp hx).2)
    ⟨⟨dn, hn, hnm⟩, hfresh m n⟩ ⟨⟨dm, hm, hmn⟩, hfresh n m⟩
  obtain ⟨is, t, hhandles, hnm₂, hdone⟩ := exists_handles nodes
    (backlog s.steps s₁.network) (Nat.le_refl _) hnm₁ hmn₁
  have hround : Round nodes s
      ((nodes.filter fun x => (s.node x).isSome).map .sendHeartbeats ++
        is.map fun i => .handle i 0) t := by
    refine ⟨run_append.mpr ⟨s₁, hsends, hhandles⟩, fun a ha => ?_,
      fun x hx => ?_, hdone⟩
    · rcases List.mem_append.mp ha with ha | ha
      · obtain ⟨x, -, rfl⟩ := List.mem_map.mp ha
        rfl
      · obtain ⟨i, -, rfl⟩ := List.mem_map.mp ha
        rfl
    · have hhandle : FailureAction.sendHeartbeats x ∉
          is.map fun i => FailureAction.handle i 0 := by
        simp
      have hinj : Function.Injective FailureAction.sendHeartbeats :=
        fun a b hab => FailureAction.sendHeartbeats.inj hab
      rw [List.count_append, List.count_eq_zero_of_not_mem hhandle,
        List.count_map_of_injective _ _ hinj, Nat.add_zero]
      apply List.count_eq_one_of_mem (hnodes.filter _)
      exact List.mem_filter.mpr ⟨h.configured x hx, hx⟩
  refine ⟨_, t, hround, fun htrusting => ?_⟩
  obtain ⟨d, hd, hsuspects⟩ := hnm₂.1
  refine (htrusting n m d hne hd ?_).1 hsuspects
  rw [hround.isSome m, hm]
  rfl

/--
After every round that starts in a given reachable state the running nodes trust
each other, if and only if no two of them suspect each other in that state.
-/
theorem run_trusting_iff {nodes : List NodeId} (hnodes : nodes.Nodup)
    (past : List FailureAction) (s : FailureSystem)
    (hrun : run (step nodes) new past = some s) :
    (∀ actions t, Round nodes s actions t → t.Trusting) ↔ s.OneSided := by
  have h : s.Inv nodes :=
    run_preserves (fun _ _ _ h hstep => h.step hstep) (inv_new nodes) hrun
  constructor
  · intro hall n m dn dm hne hn hm hnm hmn
    obtain ⟨actions, t, hround, hnot⟩ :=
      exists_round hnodes h hne hn hm hnm hmn
    exact hnot (hall actions t hround)
  · intro honeSided actions t hround
    exact hround.trusting h honeSided

/-- Neither node hears from the other until it suspects it. -/
def partition : List FailureAction :=
  [.start 0 0, .start 1 0, .checkTimeouts 0 4000, .checkTimeouts 1 4000]

theorem partition_not_healed :
    ∃ s t, run (step [0, 1]) new partition = some s ∧
      Round [0, 1] s [.sendHeartbeats 0, .sendHeartbeats 1] t ∧
      ¬ t.Trusting := by
  have hend : (run (step [0, 1]) new partition).bind (fun s =>
      (run (step [0, 1]) s [.sendHeartbeats 0, .sendHeartbeats 1]).map fun t =>
        decide (t.network = [] ∧ (t.node 1).isSome = true ∧
          (t.node 0).map FailureDetector.suspected = some {1})) =
        some true := by
    decide +kernel
  obtain ⟨s, hs, hmap⟩ := Option.bind_eq_some_iff.mp hend
  obtain ⟨t, ht, hdec⟩ := Option.map_eq_some_iff.mp hmap
  obtain ⟨hempty, hrunning, hsuspected⟩ := of_decide_eq_true hdec
  have hinv : s.Inv [0, 1] :=
    run_preserves (fun _ _ _ h hstep => h.step hstep) (inv_new [0, 1]) hs
  refine ⟨s, t, hs, ⟨ht, by decide, fun n hn => ?_, by simp [hempty]⟩, ?_⟩
  · have hn' := hinv.configured n hn
    simp only [List.mem_cons, List.not_mem_nil, or_false] at hn'
    rcases hn' with rfl | rfl <;> decide
  · intro htrusting
    obtain ⟨d, hd, hone⟩ := Option.map_eq_some_iff.mp hsuspected
    apply (htrusting 0 1 d (by decide) hd hrunning).1
    rw [hone]
    exact Finset.mem_singleton_self 1

/-- Only node 0 has come to suspect the other one. -/
def silence : List FailureAction :=
  [.start 0 0, .start 1 0, .checkTimeouts 0 4000]

theorem silence_healed :
    ∃ s, run (step [0, 1]) new silence = some s ∧
      ∀ actions t, Round [0, 1] s actions t → t.Trusting := by
  have hend : (run (step [0, 1]) new silence).map (fun s =>
      decide ((s.node 1).map FailureDetector.suspected = some ∅)) =
        some true := by
    decide +kernel
  obtain ⟨s, hs, hdec⟩ := Option.map_eq_some_iff.mp hend
  obtain ⟨d, hd, hempty⟩ := Option.map_eq_some_iff.mp (of_decide_eq_true hdec)
  refine ⟨s, hs, (run_trusting_iff (by decide) silence s hs).mpr ?_⟩
  have hinv : s.Inv [0, 1] :=
    run_preserves (fun _ _ _ h hstep => h.step hstep) (inv_new [0, 1]) hs
  intro i j di dj hne hi hj hsuspects hback
  have hi' := hinv.configured i (by rw [hi]; rfl)
  have hj' := hinv.configured j (by rw [hj]; rfl)
  simp only [List.mem_cons, List.not_mem_nil, or_false] at hi' hj'
  rcases hi' with rfl | rfl
  · obtain rfl : j = 1 := hj'.resolve_left hne.symm
    rw [hd] at hj
    cases hj
    simp [hempty] at hback
  · rw [hd] at hi
    cases hi
    simp [hempty] at hsuspects

end FailureSystem

end DistributedMemory.Consensus
