import DistributedMemory.Mutex.MutexStep
import Mathlib.Data.Finset.Max
import Mathlib.Data.Prod.Lex

/-!
# No deadlock

A node defers an answer only while it is HELD, or while it is WANTED with an earlier
request.  When no message is in flight, the earliest of the waiting nodes has been
answered by all the others, or one of them is HELD.
-/

namespace DistributedMemory.Mutex

open DistributedMemory.Library DistributedMemory.Network

namespace MutexSystem

variable {nodes : List NodeId} {s s' : MutexSystem}

/-- A message is in flight from the moment that a thread has decided to send it
until its handler has run. -/
structure NoneInFlight (s : MutexSystem) : Prop where
  requests : ∀ i, (s.node i).targets = []
  packets : s.packets = []

/-- Node `j` is HELD and can release, or it is WANTED, signalled, and can enter. -/
inductive CanAdvance (nodes : List NodeId) (s : MutexSystem) (j : NodeId) : Prop
  | release (hheld : (s.node j).mutex.state = .held)
      (hstep : (s.step nodes (.releaseCs j)).isSome = true)
  | enter (hwanted : (s.node j).mutex.state = .wanted)
      (hevent : (s.node j).mutex.csEvent = true)
      (hstep : (s.step nodes (.wake j)).isSome = true)

inductive CanProceed (nodes : List NodeId) (s : MutexSystem) (j : NodeId) : Prop
  | advance (hadvance : s.CanAdvance nodes j)
  | ask (hunsent : (s.node j).targets ≠ [])
      (hstep : (s.step nodes (.sendRequest j)).isSome = true)

/-- Why the answer to `i` is deferred at `j`. -/
def Precedes (s : MutexSystem) (j i : NodeId) : Prop :=
  (s.node j).mutex.state = .held ∨ (s.node j).mutex.state = .wanted ∧
    Before (s.node j).mutex.requestTs j (s.node i).mutex.requestTs i

/-- A waiting node is in `request_cs`, and it is signalled with the last answer. -/
structure Attends (n : MutexNode) : Prop where
  waits : n.mutex.state = .wanted → n.call.isSome = true
  signalled : 0 < n.mutex.repliesReceived →
    n.mutex.repliesNeeded ≤ n.mutex.repliesReceived → n.mutex.csEvent = true

structure Live (nodes : List NodeId) (s : MutexSystem) : Prop where
  inv : s.Inv nodes
  configured : ∀ i, (s.node i).mutex.state ≠ .released → i ∈ nodes
  attends : ∀ i, Attends (s.node i)
  deferred : ∀ j, ∀ d ∈ (s.node j).mutex.deferred, s.Precedes j d.1

theorem live_new (nodes : List NodeId) : new.Live nodes where
  inv := inv_new nodes
  configured i hactive := absurd rfl hactive
  attends i := by constructor <;> simp [new, RicartAgrawala.new]
  deferred j d hd := by cases hd

/-! ## One step -/

theorem Attends.step {packets : List MutexPacket} {i : NodeId} {n x : MutexNode}
    (h : Attends n) (hstep : NodeStep nodes packets i n x) : Attends x := by
  cases hstep with
  | request resource hi hreleased =>
      exact ⟨fun _ => rfl, fun hpos => absurd hpos (Nat.lt_irrefl 0)⟩
  | send hcall => exact ⟨fun _ => rfl, h.signalled⟩
  | clock c hc => exact ⟨h.waits, h.signalled⟩
  | defer hp hmsg hstage hreceiver hdefer => exact ⟨h.waits, h.signalled⟩
  | count sender =>
      refine ⟨h.waits, fun _ hle => ?_⟩
      simp only [RicartAgrawala.handleReply, Bool.or_eq_true, decide_eq_true_eq]
      exact .inr hle
  | wake hwanted hevent =>
      refine ⟨fun hstate => ?_, h.signalled⟩
      cases hstate
  | release hheld =>
      refine ⟨fun hstate => ?_, h.signalled⟩
      cases hstate

private theorem Inv.moves_nodeStep (h : s.Inv nodes) {i : NodeId} {x : MutexNode}
    (hstep : NodeStep nodes s.packets i (s.node i) x)
    (packets : List MutexPacket) :
    Moves s ⟨Function.update s.node i x, packets⟩ := by
  cases hstep with
  | request resource hi hreleased =>
      apply moves_update (Nat.le_succ _)
      · exact fun _ => .inr (Nat.le_succ _)
      · exact .inl ⟨(h.quiet_of_released hreleased).1, rfl⟩
  | send hcall => exact moves_kept (Nat.le_succ _) Iff.rfl rfl rfl
  | clock c hc => exact moves_kept hc Iff.rfl rfl rfl
  | defer hp hmsg hstage hreceiver hdefer =>
      exact moves_kept (Nat.le_refl _) Iff.rfl rfl rfl
  | count sender => exact moves_kept (Nat.le_refl _) Iff.rfl rfl rfl
  | wake hwanted hevent =>
      refine moves_kept (Nat.le_refl _) ?_ rfl rfl
      simp [hwanted]
  | release hheld =>
      have hle : (s.node i).clock.time ≤ (s.node i).clock.time := Nat.le_refl _
      refine moves_update hle ?_ ?_
      · exact fun hactive => absurd rfl hactive
      · exact .inl ⟨h.quiet_of_held hheld, rfl⟩

theorem Inv.asker_ne_asked (h : s.Inv nodes) {i j : NodeId}
    (hpos : 0 < s.underway i j) : i ≠ j := by
  rintro rfl
  have htokens := h.tokens i i
  rw [MutexSystem.tokens, if_neg] at htokens
  · omega
  · rintro ⟨-, -, hne, -⟩
    exact hne rfl

private theorem Inv.precedes_of_defer (h : s.Inv nodes) {p : MutexPacket}
    (hp : p ∈ s.packets) {resource : Resource} {reqTs : Nat}
    (hmsg : p.msg = .request resource reqTs)
    (hdefer : (s.node p.receiver).mutex.sendsReply p.receiver p.sender resource
      reqTs = false) : s.Precedes p.receiver p.sender := by
  have hne : p.sender ≠ p.receiver := by
    have hpos := underway_pos_of_packet hp
    simp only [MutexPacket.asker, MutexPacket.asked, hmsg] at hpos
    exact h.asker_ne_asked hpos
  have hsound := h.packets p hp
  simp only [Sound, hmsg] at hsound
  obtain ⟨rfl, -⟩ := hsound
  unfold RicartAgrawala.sendsReply at hdefer
  split at hdefer
  · cases hdefer
  · next hheld => exact .inl hheld
  · next hwanted =>
    refine .inr ⟨hwanted, ?_⟩
    split at hdefer
    · cases hdefer
    · simp only [Bool.or_eq_false_iff, Bool.and_eq_false_iff,
        decide_eq_false_iff_not] at hdefer
      obtain ⟨hle, hother | hlast⟩ := hdefer
      · exact .inl (Nat.lt_of_le_of_ne (Nat.le_of_not_lt hle) (Ne.symm hother))
      · have hlt := Nat.lt_of_le_of_ne (Nat.le_of_not_lt hlast) (Ne.symm hne)
        unfold Before
        omega

private theorem Live.deferred_step (h : s.Live nodes) {i : NodeId} {x : MutexNode}
    (hstep : NodeStep nodes s.packets i (s.node i) x)
    {d : NodeId × Resource} (hd : d ∈ x.mutex.deferred) :
    x.mutex.state = .held ∨ x.mutex.state = .wanted ∧
      Before x.mutex.requestTs i (s.node d.1).mutex.requestTs d.1 := by
  have hold := h.deferred i d
  cases hstep with
  | request resource hi hreleased =>
      rcases hold hd with hheld | ⟨hwanted, -⟩
      · rw [hreleased] at hheld
        cases hheld
      · rw [hreleased] at hwanted
        cases hwanted
  | send hcall => exact hold hd
  | clock c hc => exact hold hd
  | defer hp hmsg hstage hreceiver hdefer =>
      rcases List.mem_append.mp hd with hd | hd
      · exact hold hd
      · obtain rfl := List.mem_singleton.mp hd
        subst hreceiver
        exact h.inv.precedes_of_defer hp hmsg hdefer
  | count sender => exact hold hd
  | wake hwanted hevent => exact .inl rfl
  | release hheld => cases hd

theorem Live.step (h : s.Live nodes) (hnodup : nodes.Nodup) {a : MutexAction}
    (hok : s.wellBehaved a = true) (hstep : s.step nodes a = some s') :
    s'.Live nodes := by
  obtain ⟨i, x, hx, hnode, -⟩ := h.inv.exists_nodeStep hok hstep
  have hinv := h.inv.step hnodup hok hstep
  obtain ⟨node, packets⟩ := s'
  obtain rfl : node = Function.update s.node i x := hnode
  have hmoves := h.inv.moves_nodeStep hx packets
  refine ⟨hinv, fun k => ?_, fun k => ?_, fun j d hd => ?_⟩
  · dsimp only
    by_cases hk : k = i
    · subst hk
      rw [Function.update_self]
      exact hx.configured (h.configured k)
    · rw [Function.update_of_ne hk]
      exact h.configured k
  · dsimp only
    by_cases hk : k = i
    · subst hk
      rw [Function.update_self]
      exact (h.attends k).step hx
    · rw [Function.update_of_ne hk]
      exact h.attends k
  · have hne := hinv.asker_ne_asked (underway_pos_of_deferred hd)
    unfold Precedes
    dsimp only at hd ⊢
    by_cases hj : j = i
    · subst hj
      rw [Function.update_self] at hd ⊢
      rw [Function.update_of_ne hne]
      exact h.deferred_step hx hd
    · rw [Function.update_of_ne hj] at hd ⊢
      have hts := (hmoves.not_quiet (underway_pos_of_deferred hd)).1
      dsimp only at hts
      rw [hts]
      exact h.deferred j d hd

/-! ## When no packet is on its way -/

/-- The state of a node that has asked everybody and waits for an answer. -/
structure Stuck (n : MutexNode) : Prop where
  wanted : n.mutex.state = .wanted
  event : n.mutex.csEvent = false
  targets : n.targets = []

theorem others_length_add (hnodup : nodes.Nodup) {i : NodeId} (hi : i ∈ nodes) :
    (others nodes i).length + 1 = nodes.length := by
  rw [others, ← List.countP_eq_length_filter,
    List.length_eq_countP_add_countP (· ≠ i)]
  congr 1
  have hone := List.count_eq_one_of_mem hnodup hi
  simpa [List.count, beq_eq_decide] using hone.symm

private theorem Live.exists_missing (h : s.Live nodes) (hnodup : nodes.Nodup)
    (htwo : 2 ≤ nodes.length) {i : NodeId} (hi : Stuck (s.node i)) :
    ∃ j ∈ nodes, i ≠ j ∧ j ∉ (s.node i).granted := by
  have hactive : (s.node i).mutex.state ≠ .released := by
    rw [hi.wanted]
    decide
  have hmem := h.configured i hactive
  obtain ⟨hreceived, hneeded⟩ := (h.inv.node i).counted hactive
  by_contra hall
  push Not at hall
  have hsub : others nodes i ⊆ (s.node i).granted := by
    intro j hj
    obtain ⟨hj, hne⟩ := List.mem_filter.mp hj
    exact hall j hj (Ne.symm (of_decide_eq_true hne))
  have hle : (others nodes i).length ≤ (s.node i).granted.length :=
    (List.subperm_of_subset (hnodup.filter _) hsub).length_le
  have hcount := others_length_add hnodup hmem
  have hevent : (s.node i).mutex.csEvent = true := by
    apply (h.attends i).signalled <;> omega
  rw [hi.event] at hevent
  cases hevent

private theorem Live.exists_precedes (h : s.Live nodes) (hnodup : nodes.Nodup)
    (htwo : 2 ≤ nodes.length) (hempty : s.packets = []) {i : NodeId}
    (hi : Stuck (s.node i)) : ∃ j ∈ nodes, s.Precedes j i := by
  obtain ⟨j, hj, hne, hmissing⟩ := h.exists_missing hnodup htwo hi
  have hactive : (s.node i).mutex.state ≠ .released := by
    rw [hi.wanted]
    decide
  have htokens := h.inv.tokens i j
  rw [if_pos ⟨h.configured i hactive, hj, hne, hactive⟩, MutexSystem.tokens,
    underway, hi.targets, hempty, List.count_eq_zero.mpr hmissing] at htokens
  have hpos : 0 < (s.node j).mutex.defers i := by
    simp only [List.count_nil, List.countP_nil] at htokens
    omega
  obtain ⟨d, hd, heq⟩ := List.countP_pos_iff.mp hpos
  refine ⟨j, hj, ?_⟩
  rw [← of_decide_eq_true heq]
  exact h.deferred j d hd

private theorem Live.stuck_or_proceeds (h : s.Live nodes) {i : NodeId}
    (hwanted : (s.node i).mutex.state = .wanted) :
    Stuck (s.node i) ∨ s.CanProceed nodes i := by
  obtain ⟨⟨resource, targets⟩, hcall⟩ :=
    Option.isSome_iff_exists.mp ((h.attends i).waits hwanted)
  cases targets with
  | cons target rest =>
      refine .inr (.ask ?_ ?_)
      · rw [MutexNode.targets, hcall]
        exact List.cons_ne_nil target rest
      · simp only [MutexSystem.step, hcall, Option.isSome_some]
  | nil =>
      cases hevent : (s.node i).mutex.csEvent with
      | false =>
          refine .inl ⟨hwanted, hevent, ?_⟩
          simp only [MutexNode.targets, hcall]
      | true =>
          refine .inr (.advance (.enter hwanted hevent ?_))
          simp only [MutexSystem.step, hcall, hevent, if_true, Option.isSome_some]

theorem Live.advance_of_held (h : s.Live nodes) {i : NodeId}
    (hheld : (s.node i).mutex.state = .held) : s.CanAdvance nodes i := by
  have hcall : (s.node i).call = none := by
    cases hsome : (s.node i).call with
    | none => rfl
    | some call =>
        have hwanted := ((h.inv.node i).calling call hsome).1
        rw [hheld] at hwanted
        cases hwanted
  apply CanAdvance.release hheld
  simp only [MutexSystem.step, hcall, Option.isNone_none, if_true,
    Option.isSome_some]

theorem Live.mem_of_call (h : s.Live nodes) {i : NodeId} {call : MutexCall}
    (hcall : (s.node i).call = some call) :
    (s.node i).mutex.state = .wanted ∧ i ∈ nodes := by
  have hwanted := ((h.inv.node i).calling call hcall).1
  refine ⟨hwanted, h.configured i ?_⟩
  rw [hwanted]
  decide

private theorem Live.mem_of_targets (h : s.Live nodes) {i : NodeId}
    (hunsent : (s.node i).targets ≠ []) : i ∈ nodes := by
  cases hcall : (s.node i).call with
  | none => exact absurd (by rw [MutexNode.targets, hcall]) hunsent
  | some call => exact (h.mem_of_call hcall).2

private theorem exists_earliest {waiting : Finset NodeId} (hne : waiting.Nonempty)
    (s : MutexSystem) : ∃ i ∈ waiting, ∀ j ∈ waiting,
      ¬ Before (s.node j).mutex.requestTs j (s.node i).mutex.requestTs i := by
  obtain ⟨i, hi, hmin⟩ := waiting.exists_min_image
    (fun i => toLex ((s.node i).mutex.requestTs, i)) hne
  refine ⟨i, hi, fun j hj hbefore => ?_⟩
  have hle := Prod.Lex.toLex_le_toLex.mp (hmin j hj)
  rcases hbefore with hlt | ⟨heq, hlt⟩ <;> rcases hle with hlt' | ⟨heq', hle'⟩
  · exact Nat.lt_asymm hlt hlt'
  · exact Nat.ne_of_lt hlt heq'.symm
  · exact Nat.ne_of_lt hlt' heq.symm
  · exact Nat.not_le_of_lt hlt hle'

theorem Live.exists_proceeds (h : s.Live nodes) (hnodup : nodes.Nodup)
    (htwo : 2 ≤ nodes.length) (hempty : s.packets = []) {i : NodeId}
    (hi : (s.node i).mutex.state = .wanted) :
    ∃ j ∈ nodes, s.CanProceed nodes j := by
  have hmem : ∀ j, (s.node j).mutex.state = .wanted → j ∈ nodes := by
    intro j hj
    apply h.configured j
    rw [hj]
    decide
  have hwaiting : i ∈ nodes.toFinset.filter fun j =>
      (s.node j).mutex.state = .wanted :=
    Finset.mem_filter.mpr ⟨List.mem_toFinset.mpr (hmem i hi), hi⟩
  obtain ⟨k, hk, hearliest⟩ := exists_earliest ⟨i, hwaiting⟩ s
  have hwanted := (Finset.mem_filter.mp hk).2
  rcases h.stuck_or_proceeds hwanted with hstuck | hproceeds
  · obtain ⟨j, hj, hheld | ⟨hwaits, hbefore⟩⟩ :=
      h.exists_precedes hnodup htwo hempty hstuck
    · exact ⟨j, hj, .advance (h.advance_of_held hheld)⟩
    · refine absurd hbefore (hearliest j ?_)
      exact Finset.mem_filter.mpr ⟨List.mem_toFinset.mpr hj, hwaits⟩
  · exact ⟨k, hmem k hwanted, hproceeds⟩

/-- When no message is in flight and a node is WANTED, some node is HELD or has been
signalled; and a node that is RELEASED has deferred nobody. -/
theorem run_noDeadlock (nodes : List NodeId) (hnodup : nodes.Nodup)
    (htwo : 2 ≤ nodes.length) (actions : List MutexAction) (s : MutexSystem)
    (hrun : run (step nodes) new actions = some s)
    (hbehaved : Along (step nodes) (fun s a => s.wellBehaved a = true) new
      actions) :
    (s.NoneInFlight → (∃ i, (s.node i).mutex.state = .wanted) →
      ∃ j ∈ nodes, s.CanAdvance nodes j) ∧
    ∀ i, (s.node i).mutex.state = .released →
      (s.node i).mutex.deferred = [] := by
  have h : s.Live nodes :=
    run_invariant (fun _ _ _ h hok hstep => h.step hnodup hok hstep)
      (live_new nodes) hbehaved hrun
  constructor
  · rintro hnone ⟨i, hi⟩
    obtain ⟨j, hj, hadvance | ⟨hunsent, -⟩⟩ :=
      h.exists_proceeds hnodup htwo hnone.packets hi
    · exact ⟨j, hj, hadvance⟩
    · exact absurd (hnone.requests j) hunsent
  · intro i hreleased
    apply List.eq_nil_iff_forall_not_mem.mpr
    intro d hd
    rcases h.deferred i d hd with hheld | ⟨hwanted, -⟩
    · rw [hreleased] at hheld
      cases hheld
    · rw [hreleased] at hwanted
      cases hwanted

-- A node is WANTED from the start of `request_cs` on, with its requests unsent.
example : (run (step [1, 2]) new [.requestCs 1 "x"]).map (fun s =>
    (s.packets, (s.node 1).mutex.state, (s.node 1).mutex.csEvent,
      (s.node 1).targets)) = some ([], .wanted, false, [2]) := by
  decide +kernel

theorem crossingRequests_proceeds :
    ∃ s, run (step [1, 2]) new crossingRequests = some s ∧
      (s.node 2).mutex.state = .wanted ∧ (s.node 2).mutex.csEvent = false ∧
      ∃ j ∈ [1, 2], s.CanAdvance [1, 2] j := by
  have hview : (run (step [1, 2]) new crossingRequests).map (fun s =>
      decide (s.packets = [] ∧ (s.node 2).mutex.state = .wanted ∧
        (s.node 2).mutex.csEvent = false ∧
        (s.node 1).targets = [] ∧ (s.node 2).targets = [])) = some true := by
    decide +kernel
  have hbehaved : Along (step [1, 2]) (fun s a => s.wellBehaved a = true) new
      crossingRequests := by
    decide +kernel
  obtain ⟨s, hs, hdec⟩ := Option.map_eq_some_iff.mp hview
  obtain ⟨hempty, hwanted, hevent, hone, htwo⟩ := of_decide_eq_true hdec
  have hlive : s.Live [1, 2] :=
    run_invariant (fun _ _ _ h hok hstep => h.step (by decide) hok hstep)
      (live_new [1, 2]) hbehaved hs
  have hrequests : ∀ i, (s.node i).targets = [] := by
    intro i
    by_contra hunsent
    have hmem := hlive.mem_of_targets hunsent
    simp only [List.mem_cons, List.not_mem_nil, or_false] at hmem
    rcases hmem with rfl | rfl
    · exact hunsent hone
    · exact hunsent htwo
  exact ⟨s, hs, hwanted, hevent, (run_noDeadlock [1, 2] (by decide) (by decide)
    crossingRequests s hs hbehaved).1 ⟨hrequests, hempty⟩ ⟨2, hwanted⟩⟩

end MutexSystem

end DistributedMemory.Mutex
