import DistributedMemory.Library.Budget
import DistributedMemory.Mutex.NoDeadlock

/-!
# Every request is served

A call of `request_cs` brings a request and an answer for every other node, each
of which is sent, dispatched and handled once, and one entry and one release.  So
a run with a given number of calls has a bounded number of steps, and where no
further step is possible everybody has entered and left.
-/

namespace DistributedMemory.Mutex

open DistributedMemory.Library DistributedMemory.Network

structure Prices where
  ask : Nat
  answer : Nat
  deliver : Nat
  handle : Nat
  enter : Nat
  leave : Nat

namespace MutexAction

def calls : MutexAction → Bool
  | requestCs _ _ => true
  | _ => false

def callsAt (i : NodeId) : MutexAction → Bool
  | requestCs j _ => i = j
  | _ => false

def entersAt (i : NodeId) : MutexAction → Bool
  | wake j => i = j
  | _ => false

def sends : MutexAction → Bool
  | sendRequest _ | sendReply _ => true
  | _ => false

/-- Neither a new call nor the clock. -/
def progresses : MutexAction → Bool
  | sendRequest _ | sendReply _ | dispatch _ | handle _ => true
  | wake _ | releaseCs _ => true
  | requestCs _ _ | timeout _ | tick _ _ => false

end MutexAction

namespace Prices

def reply (c : Prices) : Stage → Nat
  | .outgoing => c.answer + c.deliver + c.handle
  | .sent _ => c.deliver + c.handle
  | .received => c.handle

/-- What is still to be paid for a request and its answer. -/
def request (c : Prices) : Stage → Nat
  | .outgoing => c.ask + c.deliver + c.handle + c.reply .outgoing
  | .sent _ => c.deliver + c.handle + c.reply .outgoing
  | .received => c.handle + c.reply .outgoing

def packet (c : Prices) (p : MutexPacket) : Nat :=
  match p.msg with
  | .request _ _ => c.request p.stage
  | .reply _ => c.reply p.stage

def stay (c : Prices) : MutexState → Nat
  | .released => 0
  | .wanted => c.enter + c.leave
  | .held => c.leave

def node (c : Prices) (n : MutexNode) : Nat :=
  c.stay n.mutex.state + n.targets.length * c.request .outgoing +
    n.mutex.deferred.length * c.reply .outgoing

def price (c : Prices) : MutexAction → Nat
  | .sendRequest _ => c.ask
  | .sendReply _ => c.answer
  | .dispatch _ => c.deliver
  | .handle _ => c.handle
  | .wake _ => c.enter
  | .releaseCs _ => c.leave
  | .requestCs _ _ | .timeout _ | .tick _ _ => 0

/-- One call of `request_cs` among `count` nodes. -/
def call (c : Prices) (count : Nat) : Nat :=
  (count - 1) * c.request .outgoing + c.enter + c.leave

def income (c : Prices) (nodes : List NodeId) : MutexAction → Nat
  | .requestCs _ _ => c.call nodes.length
  | _ => 0

def balance (c : Prices) (nodes : List NodeId) (s : MutexSystem) : Nat :=
  (nodes.map fun i => c.node (s.node i)).sum + (s.packets.map c.packet).sum

/-- Every step but the calls of `request_cs` and the clock counts. -/
def steps : Prices := ⟨1, 1, 1, 1, 1, 1⟩

def messages : Prices := ⟨1, 1, 0, 0, 0, 0⟩

end Prices

namespace MutexSystem

variable {nodes : List NodeId} {s s' : MutexSystem} {c : Prices}

private theorem sum_nodes_update (hnodup : nodes.Nodup) (s : MutexSystem) {i : NodeId}
    {x : MutexNode} (hi : i ∈ nodes ∨ c.node x = c.node (s.node i)) :
    (nodes.map fun j => c.node (Function.update s.node i x j)).sum +
        c.node (s.node i) =
      (nodes.map fun j => c.node (s.node j)).sum + c.node x := by
  rcases hi with hi | hsame
  · exact sum_map_update hnodup hi c.node s.node x
  · have hall : ∀ j ∈ nodes, c.node (Function.update s.node i x j) =
        c.node (s.node j) := by
      intro j _
      by_cases hj : j = i
      · rw [hj, Function.update_self, hsame]
      · rw [Function.update_of_ne hj]
    rw [List.map_congr_left hall, hsame]

theorem sum_swap (p q : MutexPacket) (hp : p ∈ s.packets) :
    ((s.swap p q).packets.map c.packet).sum + c.packet p =
      (s.packets.map c.packet).sum + c.packet q := by
  have herase := sum_map_erase hp c.packet
  rw [swap, List.map_append, List.sum_append, List.map_singleton,
    List.sum_singleton]
  omega

private theorem Live.mem_of_packet (h : s.Live nodes) {p : MutexPacket}
    (hp : p ∈ s.packets) : p.asker ∈ nodes ∧ p.asked ∈ nodes := by
  have hpos := underway_pos_of_packet hp
  have htokens := h.inv.tokens p.asker p.asked
  unfold MutexSystem.tokens at htokens
  split at htokens
  · next hasks => exact ⟨hasks.1, hasks.2.1⟩
  · omega

theorem balance_update (hnodup : nodes.Nodup) {i : NodeId} {x : MutexNode}
    {packets : List MutexPacket} {price income : Nat}
    (hs' : s' = ⟨Function.update s.node i x, packets⟩)
    (hi : i ∈ nodes ∨ c.node x = c.node (s.node i))
    (hpays : c.node x + (packets.map c.packet).sum + price =
      c.node (s.node i) + (s.packets.map c.packet).sum + income) :
    c.balance nodes s' + price = c.balance nodes s + income := by
  have hnodes := sum_nodes_update hnodup s hi
  subst hs'
  unfold Prices.balance
  dsimp only
  omega

private theorem Live.msg_of_outgoing (h : s.Live nodes) {p : MutexPacket}
    (hp : p ∈ s.packets) (hstage : p.stage = .outgoing) :
    ∃ resource, p.msg = .reply resource := by
  have hsound := h.inv.packets p hp
  cases hmsg : p.msg with
  | request resource reqTs =>
      simp only [Sound, hmsg, hstage] at hsound
      exact hsound.2.2.elim
  | reply resource => exact ⟨resource, rfl⟩

theorem Live.balance_step (h : s.Live nodes) (hnodup : nodes.Nodup)
    {a : MutexAction} (hok : s.wellBehaved a = true)
    (hstep : s.step nodes a = some s') :
    c.balance nodes s' + c.price a = c.balance nodes s + c.income nodes a := by
  cases a with
  | requestCs i resource =>
      obtain ⟨⟨hi, hcall⟩, heq⟩ := Option.ite_none_right_eq_some.mp hstep
      cases heq
      have hreleased : (s.node i).mutex.state = .released := by
        simpa [wellBehaved] using hok
      have htargets : (s.node i).targets = [] := by
        simp [MutexNode.targets, Option.isNone_iff_eq_none.mp hcall]
      have hcount : (others nodes i).length = nodes.length - 1 := by
        have := others_length_add hnodup hi
        omega
      refine balance_update hnodup rfl (.inl hi) ?_
      have hold : c.node (s.node i) =
          (s.node i).mutex.deferred.length * c.reply .outgoing := by
        simp [Prices.node, hreleased, htargets, Prices.stay]
      rw [hold, Prices.price, Prices.income, Prices.call, ← hcount]
      simp only [Prices.node, Prices.stay, MutexNode.targets,
        RicartAgrawala.requestCs]
      omega
  | sendRequest i =>
      simp only [MutexSystem.step] at hstep
      split at hstep
      · next resource target rest hcall =>
        cases hstep
        refine balance_update hnodup rfl (.inl (h.mem_of_call hcall).2) ?_
        simp only [Prices.node, MutexNode.targets, hcall, List.length_cons,
          Nat.add_mul, Nat.one_mul, List.map_append, List.sum_append,
          List.map_singleton, List.sum_singleton, Prices.packet, Prices.request,
          Prices.price, Prices.income]
        omega
      · cases hstep
  | sendReply p =>
      obtain ⟨⟨hp, hstage⟩, heq⟩ := Option.ite_none_right_eq_some.mp hstep
      cases heq
      obtain ⟨resource, hmsg⟩ := h.msg_of_outgoing hp hstage
      refine balance_update hnodup rfl (.inr rfl) ?_
      have hswap := sum_swap (c := c) p
        { p with stage := .sent (s.node p.sender).clock.increment.time } hp
      have hpacket : c.packet p = c.packet { p with
          stage := .sent (s.node p.sender).clock.increment.time } + c.answer := by
        simp only [Prices.packet, hmsg, hstage, Prices.reply]
        omega
      simp only [Prices.node, MutexNode.targets, Prices.price, Prices.income]
      omega
  | dispatch p =>
      simp only [MutexSystem.step] at hstep
      split at hstep
      · next timestamp hstage =>
        obtain ⟨hp, heq⟩ := Option.ite_none_right_eq_some.mp hstep
        cases heq
        refine balance_update hnodup rfl (.inr rfl) ?_
        have hswap := sum_swap (c := c) p { p with stage := .received } hp
        have hpacket : c.packet p =
            c.packet { p with stage := .received } + c.deliver := by
          cases hmsg : p.msg <;>
            simp only [Prices.packet, hmsg, hstage, Prices.request, Prices.reply]
          all_goals omega
        simp only [Prices.node, MutexNode.targets, Prices.price, Prices.income]
        omega
      · cases hstep
  | handle p =>
      obtain ⟨⟨hp, hstage⟩, heq⟩ := Option.ite_none_right_eq_some.mp hstep
      cases hmsg : p.msg with
      | request resource reqTs =>
          simp only [hmsg] at heq
          cases heq
          unfold MutexSystem.handleRequest
          dsimp only
          cases hreply : (s.node p.receiver).mutex.sendsReply p.receiver
            p.sender resource reqTs with
          | true =>
              have hsame : s.swap p
                  ⟨p.receiver, p.sender, .reply resource, .outgoing⟩ =
                ⟨Function.update s.node p.receiver (s.node p.receiver), (s.swap p
                  ⟨p.receiver, p.sender, .reply resource, .outgoing⟩).packets⟩ := by
                rw [Function.update_eq_self]
                rfl
              refine balance_update hnodup hsame (.inr rfl) ?_
              have hswap := sum_swap (c := c) p
                ⟨p.receiver, p.sender, .reply resource, .outgoing⟩ hp
              have hpacket : c.packet p = c.packet
                  ⟨p.receiver, p.sender, .reply resource, .outgoing⟩ +
                    c.handle := by
                simp only [Prices.packet, hmsg, hstage, Prices.request]
                omega
              simp only [Prices.price, Prices.income]
              omega
          | false =>
              refine balance_update hnodup rfl (.inl ?_) ?_
              · have hmem := (h.mem_of_packet hp).2
                rw [MutexPacket.asked, hmsg] at hmem
                exact hmem
              · have herase := sum_map_erase hp c.packet
                have hpacket : c.packet p = c.reply .outgoing + c.handle := by
                  simp only [Prices.packet, hmsg, hstage, Prices.request]
                  omega
                simp only [Prices.node, MutexNode.targets, RicartAgrawala.defer,
                  List.length_append, List.length_singleton, Nat.add_mul,
                  Nat.one_mul, MutexSystem.drop, Prices.price, Prices.income]
                omega
      | reply resource =>
          simp only [hmsg] at heq
          cases heq
          refine balance_update hnodup rfl (.inr rfl) ?_
          have herase := sum_map_erase hp c.packet
          have hpacket : c.packet p = c.handle := by
            simp only [Prices.packet, hmsg, hstage, Prices.reply]
          simp only [Prices.node, MutexNode.targets, RicartAgrawala.handleReply,
            MutexSystem.drop, Prices.price, Prices.income]
          omega
  | wake i =>
      obtain ⟨hevent, heq⟩ := Option.ite_none_right_eq_some.mp hstep
      split at heq
      · next resource hcall =>
        cases heq
        obtain ⟨hwanted, hi⟩ := h.mem_of_call hcall
        refine balance_update hnodup rfl (.inl hi) ?_
        simp only [Prices.node, MutexNode.targets, hcall, hwanted, Prices.stay,
          List.length_nil, Prices.price, Prices.income]
        omega
      · cases heq
  | timeout i => cases hok
  | releaseCs i =>
      obtain ⟨hcall, heq⟩ := Option.ite_none_right_eq_some.mp hstep
      cases heq
      have hheld : (s.node i).mutex.state = .held := by
        simpa [wellBehaved] using hok
      have hi : i ∈ nodes := h.configured i (by rw [hheld]; decide)
      refine balance_update hnodup rfl (.inl hi) ?_
      have hanswers : ((s.node i).mutex.deferred.map fun d =>
          c.packet ⟨i, d.1, .reply d.2, .outgoing⟩).sum =
          (s.node i).mutex.deferred.length * c.reply .outgoing := by
        simp only [Prices.packet]
        rw [List.map_const', List.sum_replicate_nat]
      simp only [Prices.node, MutexNode.targets, RicartAgrawala.releaseCs, hheld,
        Prices.stay, List.length_nil, List.map_append, List.sum_append,
        List.map_map, Function.comp_def, hanswers, Prices.price, Prices.income]
      omega
  | tick i receivedTime =>
      cases hstep
      refine balance_update hnodup rfl (.inr rfl) ?_
      simp only [Prices.node, MutexNode.targets, Prices.price, Prices.income]

/-! ## Whole runs -/

theorem balance_new (c : Prices) (nodes : List NodeId) :
    c.balance nodes new = 0 := by
  have hzero : ∀ i, c.node (new.node i) = 0 := by
    intro i
    simp [new, Prices.node, MutexNode.targets, RicartAgrawala.new, Prices.stay]
  have hsum : (nodes.map fun i => c.node (new.node i)).sum = 0 := by
    simp only [hzero, List.map_const', List.sum_replicate_nat, Nat.mul_zero]
  rw [Prices.balance, hsum]
  rfl

/-- The prices of a run are paid by its calls of `request_cs`. -/
theorem run_prices (hnodup : nodes.Nodup) (c : Prices)
    {actions : List MutexAction}
    (hrun : run (step nodes) new actions = some s)
    (hbehaved : Along (step nodes) (fun s a => s.wellBehaved a = true) new
      actions) :
    c.balance nodes s + (actions.map c.price).sum =
      c.call nodes.length * actions.countP MutexAction.calls := by
  have hpays := run_balance (I := Live nodes) (c.balance nodes) c.price
    (c.income nodes)
    (fun s a s' h hok hstep => ⟨h.step hnodup hok hstep,
      h.balance_step hnodup hok hstep⟩) (live_new nodes) hbehaved hrun
  have hincome : c.income nodes = fun a =>
      if MutexAction.calls a then c.call nodes.length else 0 := by
    funext a
    cases a <;> rfl
  rw [hpays, balance_new, Nat.zero_add, hincome, sum_map_ite]

/-- No message is in flight, and nobody has an answer to give. -/
structure Settled (s : MutexSystem) : Prop extends s.NoneInFlight where
  deferred : ∀ i, (s.node i).mutex.deferred = []

/--
A call of `request_cs` costs two messages for every other node: in every run of
well-behaved callers without a timeout at most so many have been sent, and exactly
so many once the system is `Settled`.
-/
theorem run_messageCount (nodes : List NodeId) (hnodup : nodes.Nodup)
    (actions : List MutexAction) (s : MutexSystem)
    (hrun : run (step nodes) new actions = some s)
    (hbehaved : Along (step nodes) (fun s a => s.wellBehaved a = true) new
      actions) :
    actions.countP MutexAction.sends ≤
        2 * (nodes.length - 1) * actions.countP MutexAction.calls ∧
      (s.Settled → actions.countP MutexAction.sends =
        2 * (nodes.length - 1) * actions.countP MutexAction.calls) := by
  have hpays := run_prices hnodup .messages hrun hbehaved
  have hprice : Prices.messages.price = fun a =>
      if MutexAction.sends a then 1 else 0 := by
    funext a
    cases a <;> rfl
  have hcall : Prices.messages.call nodes.length = 2 * (nodes.length - 1) := by
    simp only [Prices.call, Prices.messages, Prices.request, Prices.reply]
    omega
  rw [hprice, sum_map_ite, Nat.one_mul, hcall] at hpays
  refine ⟨hpays ▸ Nat.le_add_left _ _, fun hsettled => ?_⟩
  have hzero : ∀ i, Prices.messages.node (s.node i) = 0 := by
    intro i
    simp only [Prices.node, hsettled.requests i, hsettled.deferred i,
      List.length_nil]
    cases (s.node i).mutex.state <;> rfl
  have hbalance : Prices.messages.balance nodes s = 0 := by
    simp only [Prices.balance, hzero, hsettled.packets, List.map_const',
      List.sum_replicate_nat, Nat.mul_zero]
    rfl
  rw [← hpays, hbalance, Nat.zero_add]

/-- No step that is not a new call is possible for well-behaved callers. -/
def Finished (nodes : List NodeId) (s : MutexSystem) : Prop :=
  ∀ a, a.progresses = true → s.wellBehaved a = true → s.step nodes a = none

theorem Live.settled_of_finished (h : s.Live nodes) (hnodup : nodes.Nodup)
    (htwo : 2 ≤ nodes.length) (hfinished : s.Finished nodes) :
    s.Settled ∧ ∀ i, (s.node i).mutex.state = .released := by
  have hpackets : s.packets = [] := by
    apply List.eq_nil_iff_forall_not_mem.mpr
    intro p hp
    cases hstage : p.stage with
    | outgoing =>
        have hnone := hfinished (.sendReply p) rfl rfl
        simp [MutexSystem.step, hp, hstage] at hnone
    | sent timestamp =>
        have hnone := hfinished (.dispatch p) rfl rfl
        simp [MutexSystem.step, hp, hstage] at hnone
    | received =>
        have hnone := hfinished (.handle p) rfl rfl
        simp only [MutexSystem.step, hp, hstage, and_self, if_true] at hnone
        cases hmsg : p.msg <;> simp [hmsg] at hnone
  have hstays : ∀ j, ¬ s.CanProceed nodes j := by
    rintro j ((⟨hheld, hstep⟩ | ⟨-, -, hstep⟩) | ⟨-, hstep⟩)
    · rw [hfinished (.releaseCs j) rfl (by simpa [wellBehaved] using hheld)] at hstep
      cases hstep
    · rw [hfinished (.wake j) rfl rfl] at hstep
      cases hstep
    · rw [hfinished (.sendRequest j) rfl rfl] at hstep
      cases hstep
  have hreleased : ∀ i, (s.node i).mutex.state = .released := by
    intro i
    cases hstate : (s.node i).mutex.state with
    | released => rfl
    | wanted =>
        obtain ⟨j, -, hproceeds⟩ := h.exists_proceeds hnodup htwo hpackets hstate
        exact absurd hproceeds (hstays j)
    | held => exact absurd (.advance (h.advance_of_held hstate)) (hstays i)
  refine ⟨⟨⟨fun i => ?_, hpackets⟩, fun i => ?_⟩, hreleased⟩
  · cases hcall : (s.node i).call with
    | none => simp [MutexNode.targets, hcall]
    | some call =>
        have hwanted := (h.mem_of_call hcall).1
        rw [hreleased i] at hwanted
        cases hwanted
  · apply List.eq_nil_iff_forall_not_mem.mpr
    intro d hd
    rcases h.deferred i d hd with hheld | ⟨hwanted, -⟩
    · rw [hreleased i] at hheld
      cases hheld
    · rw [hreleased i] at hwanted
      cases hwanted

private theorem Live.finished_of_released (h : s.Live nodes) (hpackets : s.packets = [])
    (hreleased : ∀ i, (s.node i).mutex.state = .released) : s.Finished nodes := by
  have hcall : ∀ i, (s.node i).call = none := by
    intro i
    cases hcall : (s.node i).call with
    | none => rfl
    | some call =>
        have hwanted := (h.mem_of_call hcall).1
        rw [hreleased i] at hwanted
        cases hwanted
  intro a hprogresses hok
  cases a with
  | sendRequest i => simp [MutexSystem.step, hcall i]
  | sendReply p => simp [MutexSystem.step, hpackets]
  | dispatch p => cases hstage : p.stage <;> simp [MutexSystem.step, hstage, hpackets]
  | handle p => simp [MutexSystem.step, hpackets]
  | wake i => simp [MutexSystem.step, hcall i]
  | releaseCs i => simp [wellBehaved, hreleased i] at hok
  | requestCs i resource => cases hprogresses
  | timeout i => cases hprogresses
  | tick i receivedTime => cases hprogresses

theorem state_of_step {a : MutexAction} (hstep : s.step nodes a = some s')
    (hcalls : a.calls = false)
    (hmoves : ∀ j, a ≠ .wake j ∧ a ≠ .releaseCs j) (i : NodeId) :
    (s'.node i).mutex.state = (s.node i).mutex.state := by
  obtain ⟨k, x, heffect, hnode⟩ := step_effect hstep
  rw [hnode]
  by_cases hi : i = k
  · subst hi
    rw [Function.update_self]
    cases heffect with
    | request => cases hcalls
    | wake => exact absurd rfl (hmoves i).1
    | release => exact absurd rfl (hmoves i).2
    | _ => rfl
  · rw [Function.update_of_ne hi]

private theorem Live.wake_step (h : s.Live nodes) (i : NodeId) {a : MutexAction}
    (hok : s.wellBehaved a = true) (hstep : s.step nodes a = some s') :
    (if (s'.node i).mutex.state = .wanted then 1 else 0) +
        (if MutexAction.entersAt i a then 1 else 0) =
      (if (s.node i).mutex.state = .wanted then 1 else 0) +
        if MutexAction.callsAt i a then 1 else 0 := by
  cases a with
  | requestCs j resource =>
      obtain ⟨-, heq⟩ := Option.ite_none_right_eq_some.mp hstep
      cases heq
      have hreleased : (s.node j).mutex.state = .released := by
        simpa [wellBehaved] using hok
      by_cases hi : i = j
      · subst hi
        simp [hreleased, setNode, RicartAgrawala.requestCs,
          MutexAction.entersAt, MutexAction.callsAt]
      · simp [setNode, hi, MutexAction.entersAt, MutexAction.callsAt]
  | wake j =>
      obtain ⟨hevent, heq⟩ := Option.ite_none_right_eq_some.mp hstep
      split at heq
      · next resource hcall =>
        cases heq
        by_cases hi : i = j
        · subst hi
          simp [(h.mem_of_call hcall).1, setNode, MutexAction.entersAt,
            MutexAction.callsAt]
        · simp [setNode, hi, MutexAction.entersAt, MutexAction.callsAt]
      · cases heq
  | releaseCs j =>
      obtain ⟨-, heq⟩ := Option.ite_none_right_eq_some.mp hstep
      cases heq
      have hheld : (s.node j).mutex.state = .held := by
        simpa [wellBehaved] using hok
      by_cases hi : i = j
      · subst hi
        simp [hheld, setNode, RicartAgrawala.releaseCs, MutexAction.entersAt,
          MutexAction.callsAt]
      · simp [setNode, hi, MutexAction.entersAt, MutexAction.callsAt]
  | timeout j => cases hok
  | sendRequest j =>
      rw [state_of_step hstep rfl (by simp)]
      rfl
  | sendReply p =>
      rw [state_of_step hstep rfl (by simp)]
      rfl
  | dispatch p =>
      rw [state_of_step hstep rfl (by simp)]
      rfl
  | handle p =>
      rw [state_of_step hstep rfl (by simp)]
      rfl
  | tick j receivedTime =>
      rw [state_of_step hstep rfl (by simp)]
      rfl

/--
In every run of two or more nodes with well-behaved callers and without a timeout
the steps that are neither a call nor a clock's are at most six for every other
node and two more for each call of `request_cs`; and where no further one is
possible, everybody is RELEASED, the system is `Settled`, and every node has
entered as often as it called.
-/
theorem run_allServed (nodes : List NodeId) (hnodup : nodes.Nodup)
    (htwo : 2 ≤ nodes.length) (actions : List MutexAction) (s : MutexSystem)
    (hrun : run (step nodes) new actions = some s)
    (hbehaved : Along (step nodes) (fun s a => s.wellBehaved a = true) new
      actions) :
    actions.countP MutexAction.progresses ≤
        (6 * (nodes.length - 1) + 2) * actions.countP MutexAction.calls ∧
      (s.Finished nodes → s.Settled ∧
        ∀ i, (s.node i).mutex.state = .released ∧
          actions.countP (MutexAction.entersAt i) =
            actions.countP (MutexAction.callsAt i)) := by
  have hlive : s.Live nodes :=
    run_invariant (fun _ _ _ h hok hstep => h.step hnodup hok hstep)
      (live_new nodes) hbehaved hrun
  constructor
  · have hpays := run_prices hnodup .steps hrun hbehaved
    have hprice : Prices.steps.price = fun a =>
        if MutexAction.progresses a then 1 else 0 := by
      funext a
      cases a <;> rfl
    have hcall : Prices.steps.call nodes.length =
        6 * (nodes.length - 1) + 2 := by
      simp only [Prices.call, Prices.steps, Prices.request, Prices.reply]
      omega
    rw [hprice, sum_map_ite, Nat.one_mul, hcall] at hpays
    exact hpays ▸ Nat.le_add_left _ _
  · intro hfinished
    obtain ⟨hsettled, hreleased⟩ :=
      hlive.settled_of_finished hnodup htwo hfinished
    refine ⟨hsettled, fun i => ⟨hreleased i, ?_⟩⟩
    have hpays := run_balance (I := Live nodes)
      (fun s => if (s.node i).mutex.state = .wanted then 1 else 0)
      (fun a => if MutexAction.entersAt i a then 1 else 0)
      (fun a => if MutexAction.callsAt i a then 1 else 0)
      (fun s a s' h hok hstep => ⟨h.step hnodup hok hstep,
        h.wake_step i hok hstep⟩) (live_new nodes) hbehaved hrun
    rw [sum_map_ite, sum_map_ite, Nat.one_mul, Nat.one_mul] at hpays
    simpa [hreleased i, new, RicartAgrawala.new] using hpays

/-- Two requests with one timestamp cross; node 2 is answered when node 1 leaves. -/
def bothServed : List MutexAction :=
  [.requestCs 1 "x", .requestCs 2 "x", .sendRequest 1, .sendRequest 2,
    .dispatch ⟨1, 2, .request "x" 1, .sent 2⟩,
    .dispatch ⟨2, 1, .request "x" 1, .sent 2⟩,
    .handle ⟨2, 1, .request "x" 1, .received⟩,
    .handle ⟨1, 2, .request "x" 1, .received⟩,
    .sendReply ⟨2, 1, .reply "x", .outgoing⟩,
    .dispatch ⟨2, 1, .reply "x", .sent 4⟩, .handle ⟨2, 1, .reply "x", .received⟩,
    .wake 1, .releaseCs 1, .sendReply ⟨1, 2, .reply "x", .outgoing⟩,
    .dispatch ⟨1, 2, .reply "x", .sent 6⟩, .handle ⟨1, 2, .reply "x", .received⟩,
    .wake 2, .releaseCs 2]

theorem bothServed_ends :
    ∃ s, run (step [1, 2]) new bothServed = some s ∧
      Along (step [1, 2]) (fun s a => s.wellBehaved a = true) new bothServed ∧
      s.Finished [1, 2] ∧ s.Settled := by
  have hbehaved : Along (step [1, 2]) (fun s a => s.wellBehaved a = true) new
      bothServed := by
    decide +kernel
  have hend : (run (step [1, 2]) new bothServed).map (fun s =>
      decide (s.packets = [] ∧ (s.node 1).mutex.state = .released ∧
        (s.node 2).mutex.state = .released)) = some true := by
    decide +kernel
  obtain ⟨s, hs, hdec⟩ := Option.map_eq_some_iff.mp hend
  obtain ⟨hpackets, hone, htwo⟩ := of_decide_eq_true hdec
  have hlive : s.Live [1, 2] :=
    run_invariant (fun _ _ _ h hok hstep => h.step (by decide) hok hstep)
      (live_new [1, 2]) hbehaved hs
  have hreleased : ∀ i, (s.node i).mutex.state = .released := by
    intro i
    by_contra hactive
    have hi := hlive.configured i hactive
    simp only [List.mem_cons, List.not_mem_nil, or_false] at hi
    rcases hi with rfl | rfl
    · exact hactive hone
    · exact hactive htwo
  have hfinished := hlive.finished_of_released hpackets hreleased
  exact ⟨s, hs, hbehaved, hfinished,
    (hlive.settled_of_finished (by decide) (by decide) hfinished).1⟩

theorem bothServed_messageCount :
    bothServed.countP MutexAction.sends =
      2 * (([1, 2] : List NodeId).length - 1) *
        bothServed.countP MutexAction.calls := by
  obtain ⟨s, hs, hbehaved, -, hsettled⟩ := bothServed_ends
  exact (run_messageCount [1, 2] (by decide) bothServed s hs hbehaved).2 hsettled

theorem bothServed_allServed :
    bothServed.countP (MutexAction.entersAt 2) =
      bothServed.countP (MutexAction.callsAt 2) := by
  obtain ⟨s, hs, hbehaved, hfinished, -⟩ := bothServed_ends
  exact (((run_allServed [1, 2] (by decide) (by decide) bothServed s hs
    hbehaved).2 hfinished).2 2).2

end MutexSystem

end DistributedMemory.Mutex
