import DistributedMemory.Library.Dict
import DistributedMemory.Library.Run
import DistributedMemory.Network.Clock

/-!
# Totally ordered delivery

One fixed sequencer numbers the messages; every node delivers them in the order
of their numbers and buffers what comes early.  A handler thread of the sequencer
takes a number, sends it to the other nodes one by one and delivers it locally in
separate steps, so the numbers reach a node, the sequencer included, in any
order.  The network may hand an assignment over any number of times or never.

`delivered` lists the calls of the delivery callback.  `assigned` and `arrived`
are no fields of the source: they record the numbers handed out and the
assignments that each node has handled, for use in statements about a run.
-/

namespace DistributedMemory.Network

open DistributedMemory.Library

universe u

abbrev ThreadId := Nat

variable {α : Type u}

/-- The payload of `TOTAL_SEQ_ASSIGN`. -/
structure Assign (α : Type u) where
  globalSeq : Nat
  origin : NodeId
  data : α
  deriving DecidableEq

structure TotalOrdering (α : Type u) where
  globalSeq : Nat
  expectedSeq : Nat
  buffer : Dict Nat (NodeId × α)
  delivered : List (Assign α)

namespace TotalOrdering

def new : TotalOrdering α := ⟨0, 1, .empty, []⟩

/-- `_deliver`, and `_expected_seq += 1` after it. -/
def deliverNext (o : TotalOrdering α) (origin : NodeId) (data : α) :
    TotalOrdering α :=
  { o with
    delivered := o.delivered ++ [⟨o.expectedSeq, origin, data⟩]
    expectedSeq := o.expectedSeq + 1 }

/-- `_flush_buffer`; each round takes one item, so the number of items is enough
fuel. -/
def flushBuffer : Nat → TotalOrdering α → TotalOrdering α
  | 0, o => o
  | fuel + 1, o =>
      match o.buffer.get? o.expectedSeq with
      | none => o
      | some (origin, data) =>
          flushBuffer fuel
            ({ o with buffer := o.buffer.pop o.expectedSeq }.deliverNext origin
              data)

/-- `_handle_seq_assign_internal` -/
def handleSeqAssign (o : TotalOrdering α) (p : Assign α) : TotalOrdering α :=
  if p.globalSeq = o.expectedSeq then
    let o := o.deliverNext p.origin p.data
    flushBuffer o.buffer.items.length o
  else { o with buffer := o.buffer.set p.globalSeq (p.origin, p.data) }

end TotalOrdering

/-- A thread in `_handle_total_msg`: the numbered message and the nodes that it
still has to be sent to. -/
structure Handling (α : Type u) where
  payload : Assign α
  targets : List NodeId

structure TotalSystem (α : Type u) where
  node : NodeId → TotalOrdering α
  handling : ThreadId → Option (Handling α)
  requests : List (NodeId × α)
  network : List (NodeId × Assign α)
  assigned : List (Assign α)
  arrived : NodeId → List (Assign α)

inductive TotalAction (α : Type u) where
  | send (origin : NodeId) (data : α)
  | request (i : ThreadId) (origin : NodeId) (data : α)
  | broadcast (i : ThreadId)
  | deliver (i : ThreadId)
  | arrive (target : NodeId) (p : Assign α)

namespace TotalSystem

def new : TotalSystem α :=
  ⟨fun _ => .new, fun _ => none, [], [], [], fun _ => []⟩

def handle (s : TotalSystem α) (n : NodeId) (p : Assign α) : TotalSystem α :=
  { s with
    node := Function.update s.node n ((s.node n).handleSeqAssign p)
    arrived := Function.update s.arrived n (s.arrived n ++ [p]) }

variable [DecidableEq α]

/-- `peers` are the nodes that the sequencer broadcasts to, in its order. -/
def step (sequencer : NodeId) (peers : List NodeId) (s : TotalSystem α) :
    TotalAction α → Option (TotalSystem α)
  | .send origin data =>
      some { s with requests := s.requests ++ [(origin, data)] }
  | .request i origin data =>
      if (origin, data) ∈ s.requests ∧ (s.handling i).isNone then
        let o := s.node sequencer
        let p : Assign α := ⟨o.globalSeq + 1, origin, data⟩
        some { s with
          node := Function.update s.node sequencer
            { o with globalSeq := o.globalSeq + 1 }
          handling := Function.update s.handling i (some ⟨p, peers⟩)
          assigned := s.assigned ++ [p] }
      else none
  | .broadcast i =>
      match s.handling i with
      | some ⟨p, target :: rest⟩ =>
          some { s with
            handling := Function.update s.handling i (some ⟨p, rest⟩)
            network := s.network ++ [(target, p)] }
      | _ => none
  | .deliver i =>
      match s.handling i with
      | some ⟨p, []⟩ =>
          some { s.handle sequencer p with
            handling := Function.update s.handling i none }
      | _ => none
  | .arrive target p =>
      if (target, p) ∈ s.network then some (s.handle target p) else none

end TotalSystem

/-! ## One node -/

/-- The numbers are handed out in order, from one on. -/
def Numbered (assigned : List (Assign α)) : Prop :=
  ∀ (i : Nat) (p : Assign α), assigned[i]? = some p → p.globalSeq = i + 1

theorem Numbered.getElem? {assigned : List (Assign α)} (h : Numbered assigned)
    {p : Assign α} (hp : p ∈ assigned) {k : Nat} (hk : p.globalSeq = k + 1) :
    assigned[k]? = some p := by
  obtain ⟨i, hi⟩ := List.mem_iff_getElem?.mp hp
  have := h i p hi
  obtain rfl : i = k := by omega
  exact hi

theorem Numbered.eq {assigned : List (Assign α)} (h : Numbered assigned)
    {p p' : Assign α} (hp : p ∈ assigned) (hp' : p' ∈ assigned)
    (heq : p.globalSeq = p'.globalSeq) : p = p' := by
  obtain ⟨i, hi⟩ := List.mem_iff_getElem?.mp hp
  have hseq := h i p hi
  have := h.getElem? hp' (heq ▸ hseq)
  rw [hi] at this
  exact Option.some.inj this

theorem Numbered.concat {assigned : List (Assign α)} (h : Numbered assigned)
    {p : Assign α} (hp : p.globalSeq = assigned.length + 1) :
    Numbered (assigned ++ [p]) := by
  intro i q hq
  rw [List.getElem?_append] at hq
  split at hq
  · exact h i q hq
  · next hi =>
    rw [List.getElem?_singleton] at hq
    split at hq
    · cases hq
      omega
    · cases hq

namespace TotalOrdering

/-- What a node has delivered and buffered, given the assignments made and those
that it has handled. -/
structure InOrder (assigned arrived : List (Assign α)) (o : TotalOrdering α) :
    Prop where
  delivered : ∃ k, o.expectedSeq = k + 1 ∧ k ≤ assigned.length ∧
    o.delivered = assigned.take k
  buffered : ∀ seq origin data, o.buffer.get? seq = some (origin, data) →
    ⟨seq, origin, data⟩ ∈ assigned
  handled : ∀ p ∈ arrived, p.globalSeq < o.expectedSeq ∨
    o.buffer.get? p.globalSeq = some (p.origin, p.data)

theorem inOrder_new : InOrder ([] : List (Assign α)) [] new where
  delivered := ⟨0, rfl, Nat.le_refl 0, rfl⟩
  buffered := by simp [new]
  handled := by simp

section Node

variable {assigned arrived : List (Assign α)} {o : TotalOrdering α}

theorem InOrder.deliverNext (h : InOrder assigned arrived o)
    (hnumbered : Numbered assigned) {origin : NodeId} {data : α}
    (hnext : ⟨o.expectedSeq, origin, data⟩ ∈ assigned)
    {buffer : Dict Nat (NodeId × α)} (hbuffer : ∀ seq, buffer.get? seq =
      if seq = o.expectedSeq then none else o.buffer.get? seq) :
    InOrder assigned arrived
      ({ o with buffer := buffer }.deliverNext origin data) := by
  obtain ⟨k, hk, -, hdelivered⟩ := h.delivered
  have hget := hnumbered.getElem? hnext hk
  refine ⟨⟨k + 1, ?_, ?_, ?_⟩, fun seq origin' data' hsome => ?_,
    fun p hp => ?_⟩
  · simp only [TotalOrdering.deliverNext, hk]
  · exact (List.getElem?_eq_some_iff.mp hget).1
  · rw [List.take_add_one, hget, ← hdelivered]
    rfl
  · refine h.buffered seq origin' data' ?_
    simp only [TotalOrdering.deliverNext, hbuffer] at hsome
    split at hsome
    · cases hsome
    · exact hsome
  · simp only [TotalOrdering.deliverNext, hbuffer]
    rcases h.handled p hp with hlt | hsome
    · exact .inl (by omega)
    · by_cases hseq : p.globalSeq = o.expectedSeq
      · exact .inl (by omega)
      · exact .inr (by rw [if_neg hseq, hsome])

theorem InOrder.flushBuffer (h : InOrder assigned arrived o)
    (hnumbered : Numbered assigned) {fuel : Nat}
    (hfuel : o.buffer.items.length ≤ fuel) :
    InOrder assigned arrived (flushBuffer fuel o) ∧
      (TotalOrdering.flushBuffer fuel o).buffer.get?
        (TotalOrdering.flushBuffer fuel o).expectedSeq = none := by
  induction fuel generalizing o with
  | zero =>
      refine ⟨h, ?_⟩
      have hempty : o.buffer.items = [] :=
        List.length_eq_zero_iff.mp (Nat.le_zero.mp hfuel)
      rw [TotalOrdering.flushBuffer, Dict.get?_eq_none_iff, hempty]
      simp
  | succ fuel ih =>
      rw [TotalOrdering.flushBuffer]
      split
      · next hnone => exact ⟨h, hnone⟩
      · next origin data hsome =>
        have hlt := Dict.length_pop_lt hsome
        refine ih (h.deliverNext hnumbered (h.buffered _ _ _ hsome)
          (Dict.get?_pop _ _)) ?_
        simp only [TotalOrdering.deliverNext]
        omega

def Flushed (o : TotalOrdering α) : Prop := o.buffer.get? o.expectedSeq = none

theorem InOrder.handleSeqAssign (h : InOrder assigned arrived o)
    (hflushed : o.Flushed) (hnumbered : Numbered assigned)
    (harrived : ∀ p ∈ arrived, p ∈ assigned) {p : Assign α}
    (hp : p ∈ assigned) :
    InOrder assigned (arrived ++ [p]) (o.handleSeqAssign p) ∧
      (o.handleSeqAssign p).Flushed := by
  unfold TotalOrdering.handleSeqAssign
  split
  · next heq =>
    have hnext : InOrder assigned arrived (o.deliverNext p.origin p.data) := by
      have hbuffer : ∀ seq, o.buffer.get? seq =
          if seq = o.expectedSeq then none else o.buffer.get? seq := by
        intro seq
        split
        · next hseq => rw [hseq, hflushed]
        · rfl
      exact h.deliverNext hnumbered (heq ▸ hp) hbuffer
    have hnext : InOrder assigned (arrived ++ [p])
        (o.deliverNext p.origin p.data) := by
      refine ⟨hnext.delivered, hnext.buffered, fun q hq => ?_⟩
      rcases List.mem_append.mp hq with hq | hq
      · exact hnext.handled q hq
      · obtain rfl := List.mem_singleton.mp hq
        exact .inl (by simp only [TotalOrdering.deliverNext]; omega)
    exact hnext.flushBuffer hnumbered (Nat.le_refl _)
  · next hne =>
    refine ⟨⟨h.delivered, fun seq origin data hsome => ?_, fun q hq => ?_⟩, ?_⟩
    · rw [Dict.get?_set] at hsome
      split at hsome
      · next hseq =>
        cases hsome
        exact hseq ▸ hp
      · exact h.buffered seq origin data hsome
    · rw [Dict.get?_set]
      -- A buffered number can only be overwritten with the same assignment.
      by_cases hseq : q.globalSeq = p.globalSeq
      · have hqp : q = p := by
          rcases List.mem_append.mp hq with hq | hq
          · exact hnumbered.eq (harrived q hq) hp hseq
          · exact List.mem_singleton.mp hq
        exact .inr (by rw [if_pos hseq, hqp])
      · rw [if_neg hseq]
        refine h.handled q ((List.mem_append.mp hq).resolve_right fun hq => ?_)
        exact hseq (congrArg _ (List.mem_singleton.mp hq))
    · exact (Dict.get?_set_ne _ _ (Ne.symm hne)).trans hflushed

theorem InOrder.assign (h : InOrder assigned arrived o) (p : Assign α) :
    InOrder (assigned ++ [p]) arrived o := by
  obtain ⟨k, hk, hle, hdelivered⟩ := h.delivered
  refine ⟨⟨k, hk, ?_, ?_⟩, fun seq origin data hsome => ?_, h.handled⟩
  · simp only [List.length_append, List.length_singleton]
    omega
  · rw [hdelivered, List.take_append_of_le_length hle]
  · exact List.mem_append_left _ (h.buffered seq origin data hsome)

theorem InOrder.complete (h : InOrder assigned arrived o)
    (hflushed : o.Flushed) (hnumbered : Numbered assigned)
    (hall : ∀ p ∈ assigned, p ∈ arrived) : o.delivered = assigned := by
  obtain ⟨k, hk, -, hdelivered⟩ := h.delivered
  have hlength : assigned.length ≤ k := by
    by_contra hlt
    have hget := List.getElem?_eq_getElem (Nat.lt_of_not_le hlt)
    have hseq := hnumbered k _ hget
    rcases h.handled _ (hall _ (List.mem_of_getElem? hget)) with hlt | hsome
    · omega
    · rw [hseq, ← hk, hflushed] at hsome
      cases hsome
  rw [hdelivered, List.take_of_length_le hlength]

end Node

end TotalOrdering

/-! ## All nodes -/

namespace TotalSystem

structure Inv (sequencer : NodeId) (s : TotalSystem α) : Prop where
  numbered : Numbered s.assigned
  counter : (s.node sequencer).globalSeq = s.assigned.length
  handling : ∀ i h, s.handling i = some h → h.payload ∈ s.assigned
  network : ∀ target p, (target, p) ∈ s.network → p ∈ s.assigned
  arrived : ∀ n, ∀ p ∈ s.arrived n, p ∈ s.assigned
  order : ∀ n, (s.node n).InOrder s.assigned (s.arrived n)
  flushed : ∀ n, (s.node n).Flushed

theorem inv_new (sequencer : NodeId) : (new : TotalSystem α).Inv sequencer where
  numbered := by simp [new, Numbered]
  counter := rfl
  handling := by simp [new]
  network := by simp [new]
  arrived := by simp [new]
  order _ := TotalOrdering.inOrder_new
  flushed _ := rfl

private theorem globalSeq_flushBuffer (fuel : Nat) (o : TotalOrdering α) :
    (TotalOrdering.flushBuffer fuel o).globalSeq = o.globalSeq := by
  induction fuel generalizing o with
  | zero => rfl
  | succ fuel ih =>
      rw [TotalOrdering.flushBuffer]
      split
      · rfl
      · rw [ih]
        rfl

private theorem globalSeq_handleSeqAssign (o : TotalOrdering α) (p : Assign α) :
    (o.handleSeqAssign p).globalSeq = o.globalSeq := by
  unfold TotalOrdering.handleSeqAssign
  split
  · exact globalSeq_flushBuffer _ _
  · rfl

theorem Inv.handle {sequencer : NodeId} {s : TotalSystem α}
    (h : s.Inv sequencer) (n : NodeId) {p : Assign α} (hp : p ∈ s.assigned) :
    (s.handle n p).Inv sequencer := by
  have hnode := (h.order n).handleSeqAssign (h.flushed n) h.numbered
    (h.arrived n) hp
  refine ⟨h.numbered, ?_, h.handling, h.network, fun m q hq => ?_, fun m => ?_,
    fun m => ?_⟩
  · refine Eq.trans ?_ h.counter
    simp only [TotalSystem.handle, Function.update_apply]
    split
    · next heq => rw [globalSeq_handleSeqAssign, heq]
    · rfl
  · simp only [TotalSystem.handle, Function.update_apply] at hq
    split at hq
    · rcases List.mem_append.mp hq with hq | hq
      · exact h.arrived n q hq
      · exact List.mem_singleton.mp hq ▸ hp
    · exact h.arrived m q hq
  · simp only [TotalSystem.handle, Function.update_apply]
    split
    · exact hnode.1
    · exact h.order m
  · simp only [TotalSystem.handle, Function.update_apply]
    split
    · exact hnode.2
    · exact h.flushed m

variable [DecidableEq α]

theorem Inv.step {sequencer : NodeId} {peers : List NodeId}
    {s s' : TotalSystem α} {a : TotalAction α} (h : s.Inv sequencer)
    (hstep : s.step sequencer peers a = some s') : s'.Inv sequencer := by
  cases a with
  | send origin data =>
      cases hstep
      exact ⟨h.numbered, h.counter, h.handling, h.network, h.arrived, h.order,
        h.flushed⟩
  | request i origin data =>
      simp only [TotalSystem.step] at hstep
      split at hstep
      · cases hstep
        have hnode : ∀ n, (Function.update s.node sequencer
            { s.node sequencer with
              globalSeq := (s.node sequencer).globalSeq + 1 } n) =
            { s.node n with globalSeq := if n = sequencer then
                (s.node sequencer).globalSeq + 1 else (s.node n).globalSeq } := by
          intro n
          by_cases hn : n = sequencer
          · subst hn
            simp
          · simp [hn]
        refine ⟨h.numbered.concat (congrArg (· + 1) h.counter), ?_,
          fun j x hx => ?_, fun target p hp => ?_, fun n p hp => ?_,
          fun n => ?_, fun n => ?_⟩
        · simp [h.counter]
        · simp only [Function.update_apply] at hx
          split at hx
          · cases hx
            simp
          · exact List.mem_append_left _ (h.handling j x hx)
        · exact List.mem_append_left _ (h.network target p hp)
        · exact List.mem_append_left _ (h.arrived n p hp)
        · dsimp only
          rw [hnode]
          have hn := (h.order n).assign ⟨(s.node sequencer).globalSeq + 1,
            origin, data⟩
          exact ⟨hn.delivered, hn.buffered, hn.handled⟩
        · dsimp only
          rw [hnode]
          exact h.flushed n
      · cases hstep
  | broadcast i =>
      simp only [TotalSystem.step] at hstep
      split at hstep
      · next p target rest hi =>
        cases hstep
        have hp := h.handling i _ hi
        refine ⟨h.numbered, h.counter, fun j x hx => ?_, fun n q hq => ?_,
          h.arrived, h.order, h.flushed⟩
        · simp only [Function.update_apply] at hx
          split at hx
          · cases hx
            exact hp
          · exact h.handling j x hx
        · rcases List.mem_append.mp hq with hq | hq
          · exact h.network n q hq
          · cases List.mem_singleton.mp hq
            exact hp
      · cases hstep
  | deliver i =>
      simp only [TotalSystem.step] at hstep
      split at hstep
      · next p hi =>
        cases hstep
        have hs := h.handle sequencer (h.handling i _ hi)
        refine ⟨hs.numbered, hs.counter, fun j x hx => ?_, hs.network,
          hs.arrived, hs.order, hs.flushed⟩
        simp only [Function.update_apply] at hx
        split at hx
        · cases hx
        · exact h.handling j x hx
      · cases hstep
  | arrive target p =>
      simp only [TotalSystem.step] at hstep
      split at hstep
      · next hmem =>
        cases hstep
        exact h.handle target (h.network target p hmem)
      · cases hstep

/--
In every state, each node has delivered the first assignments of the sequencer,
so of any two nodes one is a prefix of the other; and a node that has handled
all assignments has delivered them all.
-/
theorem run_agreement (sequencer : NodeId) (peers : List NodeId)
    (actions : List (TotalAction α)) (s : TotalSystem α)
    (hrun : run (step sequencer peers) new actions = some s) :
    (∀ n, ∃ k, k ≤ s.assigned.length ∧
      (s.node n).delivered = s.assigned.take k) ∧
    (∀ m n, (s.node m).delivered <+: (s.node n).delivered ∨
      (s.node n).delivered <+: (s.node m).delivered) ∧
    ∀ n, (∀ p ∈ s.assigned, p ∈ s.arrived n) →
      (s.node n).delivered = s.assigned := by
  have h : s.Inv sequencer :=
    run_preserves (fun _ _ _ h hstep => h.step hstep) (inv_new sequencer) hrun
  have hfirst : ∀ n, ∃ k, k ≤ s.assigned.length ∧
      (s.node n).delivered = s.assigned.take k := by
    intro n
    obtain ⟨k, -, hle, hdelivered⟩ := (h.order n).delivered
    exact ⟨k, hle, hdelivered⟩
  refine ⟨hfirst, fun m n => ?_, fun n hall =>
    (h.order n).complete (h.flushed n) h.numbered hall⟩
  obtain ⟨j, -, hm⟩ := hfirst m
  obtain ⟨k, -, hn⟩ := hfirst n
  rw [hm, hn]
  rcases Nat.le_total j k with hjk | hkj
  · exact .inl (List.take_prefix_take_left hjk)
  · exact .inr (List.take_prefix_take_left hkj)

/-- The handler of the second request overtakes that of the first one, and its
assignment arrives first. -/
def overtaking : List (TotalAction String) :=
  [.send 2 "a", .send 3 "b", .request 1 2 "a", .request 2 3 "b", .broadcast 2,
    .broadcast 1, .deliver 2, .arrive 2 ⟨2, 3, "b"⟩, .arrive 2 ⟨1, 2, "a"⟩,
    .arrive 2 ⟨1, 2, "a"⟩]

theorem overtaking_agreement :
    ∃ s, run (step 1 [2]) new overtaking = some s ∧
      (s.node 2).delivered = s.assigned := by
  have hsome : (run (step 1 [2]) new overtaking).isSome = true := by
    decide +kernel
  obtain ⟨s, hs⟩ := Option.isSome_iff_exists.mp hsome
  have harrived : ((run (step 1 [2]) new overtaking).all fun s =>
      s.assigned.all (· ∈ s.arrived 2)) = true := by
    decide +kernel
  rw [hs] at harrived
  refine ⟨s, hs, (run_agreement 1 [2] overtaking s hs).2.2 2 ?_⟩
  simpa using harrived

end TotalSystem

end DistributedMemory.Network
