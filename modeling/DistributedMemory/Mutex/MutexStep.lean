import DistributedMemory.Mutex.Exclusion

/-!
# One node at a time

Every step of the Ricart-Agrawala system changes at most one node.
-/

namespace DistributedMemory.Mutex

open DistributedMemory.Library DistributedMemory.Network

/-- What a step of any run can make of the node `n` at `i`. -/
inductive NodeEffect (nodes : List NodeId) (packets : List MutexPacket)
    (i : NodeId) (n : MutexNode) : MutexAction → MutexNode → Prop
  | request (resource : Resource) (hi : i ∈ nodes) :
      NodeEffect nodes packets i n (.requestCs i resource)
        { clock := n.clock.increment
          mutex := n.mutex.requestCs resource n.clock.increment.time
            (MutexSystem.others nodes i).length
          call := some ⟨resource, MutexSystem.others nodes i⟩
          granted := [] }
  | send {resource : Resource} {target : NodeId} {rest : List NodeId}
      (hcall : n.call = some ⟨resource, target :: rest⟩) :
      NodeEffect nodes packets i n (.sendRequest i)
        { n with clock := n.clock.increment, call := some ⟨resource, rest⟩ }
  | clock {a : MutexAction} (c : LamportClock) (hc : n.clock.time ≤ c.time)
      (hhandle : ∀ p, a ≠ .handle p) (hwake : ∀ j, a ≠ .wake j) :
      NodeEffect nodes packets i n a { n with clock := c }
  | answer {p : MutexPacket} {resource : Resource} {reqTs : Nat}
      (hmsg : p.msg = .request resource reqTs) (hreceiver : p.receiver = i)
      (hreply : n.mutex.sendsReply i p.sender resource reqTs = true) :
      NodeEffect nodes packets i n (.handle p) n
  | defer {p : MutexPacket} {resource : Resource} {reqTs : Nat}
      (hp : p ∈ packets) (hstage : p.stage = .received)
      (hmsg : p.msg = .request resource reqTs) (hreceiver : p.receiver = i)
      (hreply : n.mutex.sendsReply i p.sender resource reqTs = false) :
      NodeEffect nodes packets i n (.handle p)
        { n with mutex := n.mutex.defer p.sender resource }
  | count {p : MutexPacket} {resource : Resource}
      (hmsg : p.msg = .reply resource) (hreceiver : p.receiver = i) :
      NodeEffect nodes packets i n (.handle p)
        { n with
          mutex := n.mutex.handleReply
          granted := n.granted ++ [p.sender] }
  | wake {resource : Resource} (hcall : n.call = some ⟨resource, []⟩)
      (hevent : n.mutex.csEvent = true) :
      NodeEffect nodes packets i n (.wake i)
        { n with mutex := { n.mutex with state := .held }, call := none }
  | timeout {resource : Resource} (hcall : n.call = some ⟨resource, []⟩) :
      NodeEffect nodes packets i n (.timeout i) { n with call := none }
  | release (hcall : n.call = none) :
      NodeEffect nodes packets i n (.releaseCs i)
        { n with mutex := n.mutex.releaseCs, granted := [] }

/-- What a step of a well-behaved run can make of the node `n` at `i`. -/
inductive NodeStep (nodes : List NodeId) (packets : List MutexPacket)
    (i : NodeId) (n : MutexNode) : MutexNode → Prop
  | request (resource : Resource) (hi : i ∈ nodes)
      (hreleased : n.mutex.state = .released) :
      NodeStep nodes packets i n
        { clock := n.clock.increment
          mutex := n.mutex.requestCs resource n.clock.increment.time
            (MutexSystem.others nodes i).length
          call := some ⟨resource, MutexSystem.others nodes i⟩
          granted := [] }
  | send {resource : Resource} {target : NodeId} {rest : List NodeId}
      (hcall : n.call = some ⟨resource, target :: rest⟩) :
      NodeStep nodes packets i n
        { n with clock := n.clock.increment, call := some ⟨resource, rest⟩ }
  | clock (c : LamportClock) (hc : n.clock.time ≤ c.time) :
      NodeStep nodes packets i n { n with clock := c }
  | defer {p : MutexPacket} {resource : Resource} {reqTs : Nat}
      (hp : p ∈ packets) (hmsg : p.msg = .request resource reqTs)
      (hstage : p.stage = .received) (hreceiver : p.receiver = i)
      (hdefer : n.mutex.sendsReply i p.sender resource reqTs = false) :
      NodeStep nodes packets i n
        { n with mutex := n.mutex.defer p.sender resource }
  | count (sender : NodeId) :
      NodeStep nodes packets i n
        { n with
          mutex := n.mutex.handleReply
          granted := n.granted ++ [sender] }
  | wake (hwanted : n.mutex.state = .wanted) (hevent : n.mutex.csEvent = true) :
      NodeStep nodes packets i n
        { n with mutex := { n.mutex with state := .held }, call := none }
  | release (hheld : n.mutex.state = .held) :
      NodeStep nodes packets i n
        { n with mutex := n.mutex.releaseCs, granted := [] }

theorem NodeStep.configured {nodes : List NodeId} {packets : List MutexPacket}
    {i : NodeId} {n x : MutexNode} (h : NodeStep nodes packets i n x)
    (hbefore : n.mutex.state ≠ .released → i ∈ nodes)
    (hactive : x.mutex.state ≠ .released) : i ∈ nodes := by
  cases h with
  | request resource hi hreleased => exact hi
  | send hcall => exact hbefore hactive
  | clock c hc => exact hbefore hactive
  | defer hp hmsg hstage hreceiver hdefer => exact hbefore hactive
  | count sender => exact hbefore hactive
  | wake hwanted hevent =>
      apply hbefore
      rw [hwanted]
      decide
  | release hheld => exact absurd rfl hactive

namespace MutexSystem

variable {nodes : List NodeId} {s s' : MutexSystem}

theorem step_effect {a : MutexAction} (hstep : s.step nodes a = some s') :
    ∃ i x, NodeEffect nodes s.packets i (s.node i) a x ∧
      s'.node = Function.update s.node i x := by
  cases a with
  | requestCs i resource =>
      obtain ⟨⟨hi, -⟩, heq⟩ := Option.ite_none_right_eq_some.mp hstep
      cases heq
      exact ⟨i, _, .request resource hi, rfl⟩
  | sendRequest i =>
      simp only [MutexSystem.step] at hstep
      split at hstep
      · next resource target rest hcall =>
        cases hstep
        exact ⟨i, _, .send hcall, rfl⟩
      · cases hstep
  | sendReply p =>
      obtain ⟨-, heq⟩ := Option.ite_none_right_eq_some.mp hstep
      cases heq
      exact ⟨p.sender, _, .clock _ (Nat.le_succ _) (by simp) (by simp), rfl⟩
  | dispatch p =>
      simp only [MutexSystem.step] at hstep
      split at hstep
      · obtain ⟨-, heq⟩ := Option.ite_none_right_eq_some.mp hstep
        cases heq
        exact ⟨p.receiver, _, .clock _ (LamportClock.le_update _ _) (by simp)
          (by simp), rfl⟩
      · cases hstep
  | handle p =>
      obtain ⟨⟨hp, hstage⟩, heq⟩ := Option.ite_none_right_eq_some.mp hstep
      cases hmsg : p.msg with
      | request resource reqTs =>
          simp only [hmsg] at heq
          cases heq
          unfold MutexSystem.handleRequest
          dsimp only
          cases hreply : (s.node p.receiver).mutex.sendsReply p.receiver
            p.sender resource reqTs with
          | true =>
              exact ⟨p.receiver, _, .answer hmsg rfl hreply,
                (Function.update_eq_self _ _).symm⟩
          | false =>
              exact ⟨p.receiver, _, .defer hp hstage hmsg rfl hreply, rfl⟩
      | reply resource =>
          simp only [hmsg] at heq
          cases heq
          exact ⟨p.receiver, _, .count hmsg rfl, rfl⟩
  | wake i =>
      obtain ⟨hevent, heq⟩ := Option.ite_none_right_eq_some.mp hstep
      split at heq
      · next resource hcall =>
        cases heq
        exact ⟨i, _, .wake hcall hevent, rfl⟩
      · cases heq
  | timeout i =>
      simp only [MutexSystem.step] at hstep
      split at hstep
      · next resource hcall =>
        cases hstep
        exact ⟨i, _, .timeout hcall, rfl⟩
      · cases hstep
  | releaseCs i =>
      obtain ⟨hcall, heq⟩ := Option.ite_none_right_eq_some.mp hstep
      cases heq
      exact ⟨i, _, .release (Option.isNone_iff_eq_none.mp hcall), rfl⟩
  | tick i receivedTime =>
      cases hstep
      exact ⟨i, _, .clock _ (LamportClock.le_update _ _) (by simp) (by simp), rfl⟩

theorem Inv.exists_nodeStep (h : s.Inv nodes) {a : MutexAction}
    (hok : s.wellBehaved a = true) (hstep : s.step nodes a = some s') :
    ∃ i x, NodeStep nodes s.packets i (s.node i) x ∧
      s'.node = Function.update s.node i x ∧
      ((∀ j, a ≠ .wake j) ∨ a = .wake i ∧ (s.node i).mutex.state = .wanted ∧
        (s.node i).mutex.csEvent = true ∧ x.clock = (s.node i).clock ∧
        x.mutex.state = .held) := by
  obtain ⟨i, x, heffect, hnode⟩ := step_effect hstep
  refine ⟨i, x, ?_⟩
  cases heffect with
  | request resource hi =>
      have hreleased : (s.node i).mutex.state = .released := by
        simpa [wellBehaved] using hok
      exact ⟨.request resource hi hreleased, hnode, .inl (by simp)⟩
  | send hcall => exact ⟨.send hcall, hnode, .inl (by simp)⟩
  | clock c hc hhandle hwake => exact ⟨.clock c hc, hnode, .inl hwake⟩
  | answer => exact ⟨.clock _ (Nat.le_refl _), hnode, .inl (by simp)⟩
  | defer hp hstage hmsg hreceiver hreply =>
      exact ⟨.defer hp hmsg hstage hreceiver hreply, hnode, .inl (by simp)⟩
  | @count p => exact ⟨.count p.sender, hnode, .inl (by simp)⟩
  | wake hcall hevent =>
      obtain ⟨hwanted, -⟩ := (h.node i).calling _ hcall
      exact ⟨.wake hwanted hevent, hnode,
        .inr ⟨rfl, hwanted, hevent, rfl, rfl⟩⟩
  | timeout => cases hok
  | release =>
      have hheld : (s.node i).mutex.state = .held := by
        simpa [wellBehaved] using hok
      exact ⟨.release hheld, hnode, .inl (by simp)⟩

end MutexSystem

end DistributedMemory.Mutex
