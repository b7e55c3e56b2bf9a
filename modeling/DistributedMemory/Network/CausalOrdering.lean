import DistributedMemory.Library.Run
import DistributedMemory.Network.Clock
import Mathlib.Data.List.Basic

/-!
# Causally ordered delivery

A message carries the vector of its sender.  A node delivers it when the entry of
the sender is the next one and no other entry is above the node's own; what comes
early waits in a buffer that is searched again after every delivery.

The thread that holds `_lock` moves in single steps: the test of a message, the
merge of its vector, the callback and the rounds of the flush loop.  `send` and
`broadcast` do not take `_lock`, so they come between any two of these steps.  A
message is sent when its vector is taken; the network may hand it over any number
of times or never.

`delivered` lists the calls of the delivery callback.  `sent` is no field of the
source: it records what every node has sent, to whom, and what it had delivered
by then.
-/

namespace DistributedMemory.Network

open DistributedMemory.Library

universe u

variable {α : Type u}

structure CausalMsg (α : Type u) where
  sender : NodeId
  vector : Vector
  data : α
  deriving DecidableEq

/-- One pass of the `for` loop of `_flush_buffer`. -/
structure FlushPass (α : Type u) where
  changed : Bool
  work : List (CausalMsg α)
  remaining : List (CausalMsg α)

/-- Where the thread that holds `_lock` is; the message that has just arrived is
delivered outside of any pass. -/
inductive Handler (α : Type u) where
  | idle
  | merge (m : CausalMsg α) (pass : Option (FlushPass α))
  | callback (m : CausalMsg α) (pass : Option (FlushPass α))
  | flush (pass : FlushPass α)

structure CausalOrdering (α : Type u) where
  vc : VectorClock
  buffer : List (CausalMsg α)
  handler : Handler α
  delivered : List (CausalMsg α)

namespace CausalOrdering

def new (nodeId : NodeId) (nodeIds : List NodeId) : CausalOrdering α :=
  ⟨.new nodeId nodeIds, [], .idle, []⟩

def canDeliver (o : CausalOrdering α) (m : CausalMsg α) : Bool :=
  m.vector.items.all fun item =>
    if item.1 = m.sender then item.2 = o.vc.clock.entry item.1 + 1
    else item.2 ≤ o.vc.clock.entry item.1

def handleCausal (o : CausalOrdering α) (m : CausalMsg α) : CausalOrdering α :=
  if o.canDeliver m then { o with handler := .merge m none }
  else { o with buffer := o.buffer ++ [m] }

/-- The next step of `_deliver` and `_flush_buffer`. -/
def advance (o : CausalOrdering α) : Option (CausalOrdering α) :=
  match o.handler with
  | .idle => none
  | .merge m pass =>
      some { o with vc := o.vc.merge m.vector, handler := .callback m pass }
  | .callback m none =>
      some { o with
        delivered := o.delivered ++ [m]
        handler := .flush ⟨false, o.buffer, []⟩ }
  | .callback m (some pass) =>
      some { o with
        delivered := o.delivered ++ [m]
        handler := .flush { pass with changed := true } }
  | .flush ⟨changed, m :: work, remaining⟩ =>
      some { o with
        handler :=
          if o.canDeliver m then .merge m (some ⟨changed, work, remaining⟩)
          else .flush ⟨changed, work, remaining ++ [m]⟩ }
  | .flush ⟨changed, [], remaining⟩ =>
      some { o with
        buffer := remaining
        handler := if changed then .flush ⟨false, remaining, []⟩ else .idle }

end CausalOrdering

structure Sent (α : Type u) where
  msg : CausalMsg α
  targets : List NodeId
  past : List (CausalMsg α)

structure CausalSystem (α : Type u) where
  node : NodeId → CausalOrdering α
  network : List (NodeId × CausalMsg α)
  sent : NodeId → List (Sent α)

inductive CausalAction (α : Type u) where
  | send (n target : NodeId) (data : α)
  | broadcast (n : NodeId) (data : α)
  | arrive (packet : Nat)
  | advance (n : NodeId)

namespace CausalSystem

def new (nodeIds : List NodeId) : CausalSystem α :=
  ⟨fun n => .new n nodeIds, [], fun _ => []⟩

def setNode (s : CausalSystem α) (n : NodeId) (o : CausalOrdering α) :
    CausalSystem α :=
  { s with node := Function.update s.node n o }

/-- `vc.increment()` and handing the message to the network. -/
def emit (s : CausalSystem α) (n : NodeId) (targets : List NodeId) (data : α) :
    Option (CausalSystem α) :=
  (s.node n).vc.increment.map fun vc =>
    let m : CausalMsg α := ⟨n, vc.clock, data⟩
    { node := Function.update s.node n { s.node n with vc := vc }
      network := s.network ++ targets.map fun target => (target, m)
      sent := Function.update s.sent n
        (s.sent n ++ [⟨m, targets, (s.node n).delivered⟩]) }

/-- `peers` are the nodes of the configuration; a node that broadcasts leaves
itself out. -/
def step (peers : List NodeId) (s : CausalSystem α) :
    CausalAction α → Option (CausalSystem α)
  | .send n target data => s.emit n [target] data
  | .broadcast n data => s.emit n (peers.filter (· ≠ n)) data
  | .arrive packet =>
      match s.network[packet]? with
      | none => none
      | some (n, m) =>
          match (s.node n).handler with
          | .idle => some (s.setNode n ((s.node n).handleCausal m))
          | _ => none
  | .advance n => (s.node n).advance.map fun o => s.setNode n o

end CausalSystem

/-! ## Causal precedence -/

/-- `m` is a message sent to node `n`. -/
def Addressed (sent : NodeId → List (Sent α)) (n : NodeId) (m : CausalMsg α) :
    Prop :=
  ∃ x ∈ sent m.sender, x.msg = m ∧ n ∈ x.targets

/-- The first message causally precedes the second one. -/
inductive Precedes (sent : NodeId → List (Sent α)) :
    CausalMsg α → CausalMsg α → Prop where
  | sentEarlier (q : NodeId) (i j : Nat) (x y : Sent α) (hlt : i < j)
      (hx : (sent q)[i]? = some x) (hy : (sent q)[j]? = some y) :
      Precedes sent x.msg y.msg
  | deliveredBefore (q : NodeId) (x : Sent α) (m : CausalMsg α)
      (hx : x ∈ sent q) (hm : m ∈ x.past) : Precedes sent m x.msg
  | trans (m₁ m₂ m₃ : CausalMsg α) (h₁₂ : Precedes sent m₁ m₂)
      (h₂₃ : Precedes sent m₂ m₃) : Precedes sent m₁ m₃

structure Stamps (nodeIds : List NodeId) (sent : NodeId → List (Sent α)) :
    Prop where
  numbered : ∀ (q : NodeId) (i : Nat) (x : Sent α), (sent q)[i]? = some x →
    x.msg.sender = q ∧ x.msg.vector.entry q = i + 1
  keys : ∀ q, ∀ x ∈ sent q, ∀ k, (x.msg.vector.get? k).isSome → k ∈ nodeIds
  increasing : ∀ (q : NodeId) (i j : Nat) (x y : Sent α), i < j →
    (sent q)[i]? = some x → (sent q)[j]? = some y → x.msg.vector.LE y.msg.vector
  past : ∀ q, ∀ x ∈ sent q, ∀ m ∈ x.past,
    m.vector.LE x.msg.vector ∧ m.vector.entry q < x.msg.vector.entry q
  apart : ∀ q, ∀ x ∈ sent q, q ∈ x.targets → x.targets = [q]

section Stamps

variable {nodeIds : List NodeId} {sent : NodeId → List (Sent α)}

theorem Stamps.sender (h : Stamps nodeIds sent) {q : NodeId} {x : Sent α}
    (hx : x ∈ sent q) : x.msg.sender = q := by
  obtain ⟨i, hi⟩ := List.mem_iff_getElem?.mp hx
  exact (h.numbered q i x hi).1

theorem Stamps.getElem? (h : Stamps nodeIds sent) {q : NodeId} {x : Sent α}
    (hx : x ∈ sent q) {i : Nat} (hi : x.msg.vector.entry q = i + 1) :
    (sent q)[i]? = some x := by
  obtain ⟨j, hj⟩ := List.mem_iff_getElem?.mp hx
  have := (h.numbered q j x hj).2
  obtain rfl : j = i := by omega
  exact hj

theorem Stamps.eq_of_msg (h : Stamps nodeIds sent) {q : NodeId} {x y : Sent α}
    (hx : x ∈ sent q) (hy : y ∈ sent q) (heq : x.msg = y.msg) : x = y := by
  obtain ⟨i, hi⟩ := List.mem_iff_getElem?.mp hx
  have hentry := (h.numbered q i x hi).2
  rw [heq] at hentry
  rw [h.getElem? hy hentry] at hi
  exact (Option.some.inj hi).symm

theorem Stamps.precedes (h : Stamps nodeIds sent) {m₁ m₂ : CausalMsg α}
    (hprec : Precedes sent m₁ m₂) : m₁.vector.LE m₂.vector ∧
      m₁.vector.entry m₂.sender < m₂.vector.entry m₂.sender := by
  induction hprec with
  | sentEarlier q i j x y hlt hx hy =>
      obtain ⟨-, hi⟩ := h.numbered q i x hx
      obtain ⟨hsender, hj⟩ := h.numbered q j y hy
      rw [hsender]
      exact ⟨h.increasing q i j x y hlt hx hy, by omega⟩
  | deliveredBefore q x m hx hm =>
      rw [h.sender hx]
      exact h.past q x hx m hm
  | trans m₁ m₂ m₃ _ _ ih₁₂ ih₂₃ =>
      exact ⟨fun k => Nat.le_trans (ih₁₂.1 k) (ih₂₃.1 k),
        Nat.lt_of_le_of_lt (ih₁₂.1 _) ih₂₃.2⟩

end Stamps

/-! ## One node -/

def sentBy (q : NodeId) (msgs : List (CausalMsg α)) : List (CausalMsg α) :=
  msgs.filter fun m => m.sender = q

@[simp] theorem sentBy_nil (q : NodeId) :
    sentBy q ([] : List (CausalMsg α)) = [] := rfl

theorem sentBy_append (q : NodeId) (l₁ l₂ : List (CausalMsg α)) :
    sentBy q (l₁ ++ l₂) = sentBy q l₁ ++ sentBy q l₂ :=
  List.filter_append _ _

private theorem sentBy_singleton (q : NodeId) (m : CausalMsg α) :
    sentBy q [m] = if m.sender = q then [m] else [] := by
  by_cases h : m.sender = q <;> simp [sentBy, h]

private theorem nodup_of_sentBy {msgs : List (CausalMsg α)}
    (h : ∀ q, (sentBy q msgs).Nodup) : msgs.Nodup := by
  induction msgs with
  | nil => exact List.nodup_nil
  | cons m rest ih =>
      refine List.nodup_cons.mpr ⟨fun hm => ?_, ih fun q => ?_⟩
      · have hdup := h m.sender
        rw [sentBy, List.filter_cons_of_pos (by simp)] at hdup
        exact (List.nodup_cons.mp hdup).1 (List.mem_filter.mpr ⟨hm, by simp⟩)
      · exact ((List.sublist_cons_self m rest).filter _).nodup (h q)

/-- The messages `accepted` by node `n`, in this order, and the clock that it has
after them: the entry of another node counts the messages accepted from there, and
these are the first ones that it sent. -/
structure InOrder (nodeIds : List NodeId) (sent : NodeId → List (Sent α))
    (n : NodeId) (vc : VectorClock) (accepted : List (CausalMsg α)) : Prop where
  keys : vc.Over nodeIds n
  own : vc.clock.entry n = (sent n).length
  bounded : ∀ q, vc.clock.entry q ≤ (sent q).length
  contiguous : ∀ q, q ≠ n →
    sentBy q accepted = ((sent q).take (vc.clock.entry q)).map Sent.msg
  addressed : ∀ m ∈ accepted, m.sender ≠ n ∧ Addressed sent n m
  below : ∀ m ∈ accepted, m.vector.LE vc.clock
  causal : ∀ earlier m later, accepted = earlier ++ m :: later →
    ∀ k, k ≠ n → m.vector.entry k ≤
      (sentBy k earlier).length + if k = m.sender then 1 else 0

/-- What `_can_deliver` tests, for a message from another node. -/
structure Ready (n : NodeId) (vc : VectorClock) (m : CausalMsg α) : Prop where
  foreign : m.sender ≠ n
  next : m.vector.entry m.sender = vc.clock.entry m.sender + 1
  seen : ∀ k, k ≠ m.sender → m.vector.entry k ≤ vc.clock.entry k

section Node

variable {nodeIds : List NodeId} {sent : NodeId → List (Sent α)} {n : NodeId}
  {vc : VectorClock} {accepted : List (CausalMsg α)}

theorem inOrder_new (nodeIds : List NodeId) (n : NodeId) :
    InOrder nodeIds (fun _ => ([] : List (Sent α))) n (.new n nodeIds) [] where
  keys := VectorClock.over_new nodeIds n
  own := VectorClock.entry_new nodeIds n n
  bounded q := Nat.le_of_eq (VectorClock.entry_new nodeIds n q)
  contiguous := by simp
  addressed := by simp
  below := by simp
  causal := by simp

private theorem InOrder.length_sentBy (h : InOrder nodeIds sent n vc accepted)
    {q : NodeId} (hq : q ≠ n) :
    (sentBy q accepted).length = vc.clock.entry q := by
  rw [h.contiguous q hq, List.length_map, List.length_take,
    Nat.min_eq_left (h.bounded q)]

theorem InOrder.mem_accepted (h : InOrder nodeIds sent n vc accepted)
    {q : NodeId} (hq : q ≠ n) {i : Nat} {x : Sent α}
    (hx : (sent q)[i]? = some x) (hi : i < vc.clock.entry q) :
    x.msg ∈ accepted := by
  have hmem : x ∈ (sent q).take (vc.clock.entry q) := by
    refine List.mem_of_getElem? (i := i) ?_
    rw [List.getElem?_take_of_lt hi, hx]
  have := List.mem_map_of_mem (f := Sent.msg) hmem
  rw [← h.contiguous q hq] at this
  exact List.mem_of_mem_filter this

theorem InOrder.nodup (h : InOrder nodeIds sent n vc accepted)
    (hstamps : Stamps nodeIds sent) : accepted.Nodup := by
  refine nodup_of_sentBy fun q => ?_
  by_cases hq : q = n
  · have hnone : sentBy q accepted = [] :=
      List.filter_eq_nil_iff.mpr fun m hm => by
        simpa [hq] using (h.addressed m hm).1
    rw [hnone]
    exact List.nodup_nil
  · rw [h.contiguous q hq]
    refine List.Nodup.map_on (fun x hx y hy => ?_) ?_
    · exact hstamps.eq_of_msg (List.mem_of_mem_take hx) (List.mem_of_mem_take hy)
    · refine (List.take_sublist _ _).nodup ?_
      refine List.nodup_iff_injective_getElem.mpr fun i j hij => Fin.ext ?_
      obtain ⟨-, hi⟩ := hstamps.numbered q i _ (List.getElem?_eq_getElem i.2)
      obtain ⟨-, hj⟩ := hstamps.numbered q j _ (List.getElem?_eq_getElem j.2)
      rw [show (sent q)[i.val] = (sent q)[j.val] from hij, hj] at hi
      omega

theorem InOrder.merge (h : InOrder nodeIds sent n vc accepted)
    (hstamps : Stamps nodeIds sent) {m : CausalMsg α}
    (haddressed : Addressed sent n m) (hready : Ready n vc m) :
    InOrder nodeIds sent n (vc.merge m.vector) (accepted ++ [m]) := by
  obtain ⟨x, hx, rfl, htarget⟩ := haddressed
  have hget := hstamps.getElem? hx hready.next
  have hentry : ∀ k, (vc.merge x.msg.vector).clock.entry k =
      if k = x.msg.sender then vc.clock.entry k + 1 else vc.clock.entry k := by
    intro k
    rw [h.keys.entry_merge (hstamps.keys _ x hx)]
    split
    · next hk =>
      rw [hk, hready.next]
      omega
    · next hk => exact Nat.max_eq_left (hready.seen k hk)
  refine ⟨h.keys.merge _, ?_, fun q => ?_, fun q hq => ?_, fun m hm => ?_,
    fun m hm k => ?_, fun earlier m later hsplit k hk => ?_⟩
  · rw [hentry, if_neg (Ne.symm hready.foreign), h.own]
  · rw [hentry]
    split
    · next hq => exact hq ▸ (List.getElem?_eq_some_iff.mp hget).1
    · exact h.bounded q
  · rw [sentBy_append, sentBy_singleton, h.contiguous q hq, hentry]
    by_cases hsender : x.msg.sender = q
    · subst hsender
      rw [if_pos rfl, if_pos rfl, List.take_add_one, hget, List.map_append]
      rfl
    · rw [if_neg hsender, if_neg (Ne.symm hsender), List.append_nil]
  · rcases List.mem_append.mp hm with hm | hm
    · exact h.addressed m hm
    · obtain rfl := List.mem_singleton.mp hm
      exact ⟨hready.foreign, x, hx, rfl, htarget⟩
  · rw [h.keys.entry_merge (hstamps.keys _ x hx)]
    rcases List.mem_append.mp hm with hm | hm
    · exact Nat.le_trans (h.below m hm k) (Nat.le_max_left _ _)
    · obtain rfl := List.mem_singleton.mp hm
      exact Nat.le_max_right _ _
  · rcases List.eq_nil_or_concat later with rfl | ⟨later, last, rfl⟩
    · obtain ⟨rfl, hm⟩ := List.append_inj' hsplit rfl
      obtain rfl := (List.cons.inj hm).1
      rw [h.length_sentBy hk]
      split
      · next heq => exact heq ▸ Nat.le_of_eq hready.next
      · next hne => exact hready.seen k hne
    · rw [List.concat_eq_append, ← List.cons_append, ← List.append_assoc]
        at hsplit
      exact h.causal earlier m later (List.append_inj' hsplit rfl).1 k hk

theorem InOrder.increment (h : InOrder nodeIds sent n vc accepted)
    {vc' : VectorClock} (hvc : vc.increment = some vc')
    {sent' : NodeId → List (Sent α)} {x : Sent α}
    (hsent : sent' = Function.update sent n (sent n ++ [x])) :
    InOrder nodeIds sent' n vc' accepted := by
  obtain ⟨-, hover, hentry⟩ := h.keys.increment hvc
  have hother : ∀ q, q ≠ n → sent' q = sent q := fun q hq => by
    rw [hsent, Function.update_of_ne hq]
  have hmine : sent' n = sent n ++ [x] := by
    rw [hsent, Function.update_self]
  refine ⟨hover, ?_, fun q => ?_, fun q hq => ?_, fun m hm => ?_,
    fun m hm k => Nat.le_trans (h.below m hm k) ?_, h.causal⟩
  · rw [hentry, if_pos rfl, hmine, h.own, List.length_append]
    rfl
  · rw [hentry]
    split
    · next hq =>
      subst hq
      rw [hmine, h.own, List.length_append]
      exact Nat.le_refl _
    · next hq => exact hother q hq ▸ h.bounded q
  · rw [hentry, if_neg hq, hother q hq, h.contiguous q hq]
  · obtain ⟨hne, haddressed⟩ := h.addressed m hm
    exact ⟨hne, by rwa [Addressed, hother _ hne]⟩
  · rw [hentry]
    split <;> omega

theorem InOrder.elsewhere (h : InOrder nodeIds sent n vc accepted) {q : NodeId}
    (hq : q ≠ n) (x : Sent α) :
    InOrder nodeIds (Function.update sent q (sent q ++ [x])) n vc accepted := by
  have hgrow : ∀ k, sent k <+:
      Function.update sent q (sent q ++ [x]) k := fun k => by
    by_cases hk : k = q
    · subst hk
      rw [Function.update_self]
      exact List.prefix_append _ _
    · simp [hk]
  refine ⟨h.keys, ?_, fun k => Nat.le_trans (h.bounded k) (hgrow k).length_le,
    fun k hk => ?_, fun m hm => ?_, h.below, h.causal⟩
  · rw [Function.update_of_ne (Ne.symm hq), h.own]
  · obtain ⟨extra, hextra⟩ := hgrow k
    rw [h.contiguous k hk, ← hextra,
      List.take_append_of_le_length (h.bounded k)]
  · obtain ⟨hne, y, hy, heq, htarget⟩ := h.addressed m hm
    exact ⟨hne, y, (hgrow _).subset hy, heq, htarget⟩

end Node

/-! ## The handler thread -/

def Handler.waiting : Handler α → List (CausalMsg α)
  | .idle => []
  | .merge m none => [m]
  | .merge m (some pass) => m :: (pass.work ++ pass.remaining)
  | .callback _ none => []
  | .callback _ (some pass) => pass.work ++ pass.remaining
  | .flush pass => pass.work ++ pass.remaining

namespace CausalOrdering

/-- The messages delivered, and the one whose callback is still to come. -/
def accepted (o : CausalOrdering α) : List (CausalMsg α) :=
  match o.handler with
  | .callback m _ => o.delivered ++ [m]
  | _ => o.delivered

theorem delivered_prefix_accepted (o : CausalOrdering α) :
    o.delivered <+: o.accepted := by
  unfold accepted
  split
  · exact List.prefix_append _ _
  · exact List.prefix_rfl

theorem canDeliver_iff {o : CausalOrdering α} {m : CausalMsg α} :
    o.canDeliver m = true ↔ ∀ k ts, m.vector.get? k = some ts →
      if k = m.sender then ts = o.vc.clock.entry k + 1
      else ts ≤ o.vc.clock.entry k := by
  simp only [canDeliver, List.all_eq_true, Prod.forall, ← Dict.mem_items_iff]
  refine forall_congr' fun k => forall_congr' fun ts => imp_congr_right ?_
  intro _
  split <;> simp

theorem canDeliver_congr {o o' : CausalOrdering α} (h : o'.vc = o.vc)
    (m : CausalMsg α) : o'.canDeliver m = o.canDeliver m := by
  unfold canDeliver
  rw [h]

structure Inv (nodeIds : List NodeId) (sent : NodeId → List (Sent α))
    (n : NodeId) (o : CausalOrdering α) : Prop where
  inOrder : InOrder nodeIds sent n o.vc o.accepted
  buffered : ∀ m ∈ o.buffer, Addressed sent n m
  waiting : ∀ m ∈ o.handler.waiting, Addressed sent n m
  ready : ∀ m pass, o.handler = .merge m pass → Ready n o.vc m

section Handler

variable {nodeIds : List NodeId} {sent : NodeId → List (Sent α)} {n : NodeId}
  {o : CausalOrdering α}

theorem Inv.ready_of_canDeliver (h : o.Inv nodeIds sent n)
    (hstamps : Stamps nodeIds sent) {m : CausalMsg α}
    (hm : Addressed sent n m) (hcan : o.canDeliver m) : Ready n o.vc m := by
  obtain ⟨x, hx, rfl, -⟩ := hm
  have htest := canDeliver_iff.mp hcan
  obtain ⟨i, hi⟩ := List.mem_iff_getElem?.mp hx
  have hseq := (hstamps.numbered _ i x hi).2
  have hnext : x.msg.vector.entry x.msg.sender =
      o.vc.clock.entry x.msg.sender + 1 := by
    cases hget : x.msg.vector.get? x.msg.sender with
    | none =>
        simp only [Vector.entry, hget, Option.getD_none] at hseq
        omega
    | some ts =>
        have := htest _ _ hget
        rw [if_pos rfl] at this
        simpa [Vector.entry, hget] using this
  refine ⟨fun hself => ?_, hnext, fun k hk => ?_⟩
  · have hlt := (List.getElem?_eq_some_iff.mp hi).1
    have hown := h.inOrder.own
    rw [hself] at hnext hlt hseq
    omega
  · cases hget : x.msg.vector.get? k with
    | none => simp [Vector.entry, hget]
    | some ts =>
        have := htest _ _ hget
        rw [if_neg hk] at this
        simpa [Vector.entry, hget] using this

theorem Inv.handleCausal (h : o.Inv nodeIds sent n)
    (hstamps : Stamps nodeIds sent) (hidle : o.handler = .idle)
    {m : CausalMsg α} (hm : Addressed sent n m) :
    (o.handleCausal m).Inv nodeIds sent n := by
  have hinOrder := h.inOrder
  simp only [accepted, hidle] at hinOrder
  unfold CausalOrdering.handleCausal
  split
  · next hcan =>
    refine ⟨hinOrder, h.buffered, ?_, ?_⟩
    · simpa [Handler.waiting] using hm
    · rintro m' pass ⟨⟩
      exact h.ready_of_canDeliver hstamps hm hcan
  · refine ⟨h.inOrder, fun m' hm' => ?_, h.waiting, h.ready⟩
    rcases List.mem_append.mp hm' with hm' | hm'
    · exact h.buffered m' hm'
    · exact List.mem_singleton.mp hm' ▸ hm

theorem Inv.advance (h : o.Inv nodeIds sent n) (hstamps : Stamps nodeIds sent)
    {o' : CausalOrdering α} (hstep : o.advance = some o') :
    o'.Inv nodeIds sent n ∧ o.vc.clock.LE o'.vc.clock := by
  obtain ⟨hinOrder, hbuffered, hwaiting, hready⟩ := h
  simp only [CausalOrdering.advance] at hstep
  split at hstep
  · cases hstep
  · next m pass hhandler =>
    cases hstep
    simp only [accepted, hhandler] at hinOrder
    rw [hhandler] at hwaiting
    have hm : Addressed sent n m := by
      refine hwaiting m ?_
      cases pass <;> simp [Handler.waiting]
    have hmerged := hinOrder.merge hstamps hm (hready m pass hhandler)
    refine ⟨⟨hmerged, hbuffered, fun m' hm' => ?_, by simp⟩, fun k => ?_⟩
    · refine hwaiting m' ?_
      cases pass with
      | none => cases hm'
      | some pass => exact List.mem_cons_of_mem _ hm'
    · obtain ⟨x, hx, rfl, -⟩ := hm
      rw [hinOrder.keys.entry_merge (hstamps.keys _ x hx)]
      exact Nat.le_max_left _ _
  · next m hhandler =>
    cases hstep
    simp only [accepted, hhandler] at hinOrder
    refine ⟨⟨hinOrder, hbuffered, ?_, by simp⟩, fun k => Nat.le_refl _⟩
    simpa [Handler.waiting] using hbuffered
  · next m pass hhandler =>
    cases hstep
    simp only [accepted, hhandler] at hinOrder
    rw [hhandler] at hwaiting
    exact ⟨⟨hinOrder, hbuffered, hwaiting, by simp⟩, fun k => Nat.le_refl _⟩
  · next changed m work remaining hhandler =>
    cases hstep
    simp only [accepted, hhandler] at hinOrder
    have hall := hwaiting
    rw [hhandler] at hall
    simp only [Handler.waiting, List.cons_append, List.mem_cons,
      List.mem_append] at hall
    split
    · next hcan =>
      have hrest : ∀ m' ∈ (Handler.merge m
          (some ⟨changed, work, remaining⟩)).waiting, Addressed sent n m' := by
        simpa [Handler.waiting] using hall
      refine ⟨⟨hinOrder, hbuffered, hrest, ?_⟩, fun k => Nat.le_refl _⟩
      rintro m' pass ⟨⟩
      have hinv : o.Inv nodeIds sent n :=
        ⟨by simpa only [accepted, hhandler] using hinOrder, hbuffered, hwaiting,
          hready⟩
      exact hinv.ready_of_canDeliver hstamps (hall m (.inl rfl)) hcan
    · refine ⟨⟨hinOrder, hbuffered, fun m' hm' => hall m' ?_, by simp⟩,
        fun k => Nat.le_refl _⟩
      simp only [Handler.waiting, List.mem_append, List.mem_singleton] at hm'
      tauto
  · next changed remaining hhandler =>
    cases hstep
    simp only [accepted, hhandler] at hinOrder
    rw [hhandler] at hwaiting
    simp only [Handler.waiting, List.nil_append] at hwaiting
    refine ⟨⟨?_, hwaiting, ?_, ?_⟩, fun k => Nat.le_refl _⟩
    · cases changed <;> exact hinOrder
    · cases changed
      · simp [Handler.waiting]
      · simpa [Handler.waiting] using hwaiting
    · cases changed <;> simp

end Handler

end CausalOrdering

/-! ## All nodes -/

theorem Addressed.emit {sent : NodeId → List (Sent α)} {n : NodeId}
    {m : CausalMsg α} (h : Addressed sent n m) (q : NodeId) (x : Sent α) :
    Addressed (Function.update sent q (sent q ++ [x])) n m := by
  obtain ⟨y, hy, heq, htarget⟩ := h
  refine ⟨y, ?_, heq, htarget⟩
  by_cases hq : m.sender = q
  · subst hq
    rw [Function.update_self]
    exact List.mem_append_left _ hy
  · rwa [Function.update_of_ne hq]

theorem Stamps.emit {nodeIds : List NodeId} {sent : NodeId → List (Sent α)}
    (h : Stamps nodeIds sent) {n : NodeId} {vc vc' : VectorClock}
    {accepted past : List (CausalMsg α)}
    (hnode : InOrder nodeIds sent n vc accepted)
    (hstamped : ∀ x ∈ sent n, x.msg.vector.LE vc.clock)
    (hvc : vc.increment = some vc') (hpast : past ⊆ accepted)
    {targets : List NodeId} (htargets : n ∈ targets → targets = [n])
    (data : α) :
    Stamps nodeIds (Function.update sent n
      (sent n ++ [⟨⟨n, vc'.clock, data⟩, targets, past⟩])) := by
  obtain ⟨-, hover, hentry⟩ := hnode.keys.increment hvc
  have hle : vc.clock.LE vc'.clock := fun k => by
    rw [hentry]
    split <;> omega
  have hlt : vc.clock.entry n < vc'.clock.entry n := by
    rw [hentry, if_pos rfl]
    exact Nat.lt_succ_self _
  -- A message is an old one or the new one.
  have hmem : ∀ {q x}, x ∈ Function.update sent n
      (sent n ++ [⟨⟨n, vc'.clock, data⟩, targets, past⟩]) q →
      x ∈ sent q ∨ q = n ∧ x = ⟨⟨n, vc'.clock, data⟩, targets, past⟩ := by
    intro q x hx
    by_cases hq : q = n
    · subst hq
      rw [Function.update_self] at hx
      exact (List.mem_append.mp hx).imp id fun hx =>
        ⟨rfl, List.mem_singleton.mp hx⟩
    · rw [Function.update_of_ne hq] at hx
      exact .inl hx
  have hget : ∀ {q i x}, (Function.update sent n
      (sent n ++ [⟨⟨n, vc'.clock, data⟩, targets, past⟩]) q)[i]? = some x →
      (sent q)[i]? = some x ∨ q = n ∧ i = (sent n).length ∧
        x = ⟨⟨n, vc'.clock, data⟩, targets, past⟩ := by
    intro q i x hx
    by_cases hq : q = n
    · subst hq
      rw [Function.update_self, List.getElem?_append] at hx
      split at hx
      · exact .inl hx
      · rw [List.getElem?_singleton] at hx
        split at hx
        · cases hx
          exact .inr ⟨rfl, by omega, rfl⟩
        · cases hx
    · rw [Function.update_of_ne hq] at hx
      exact .inl hx
  refine ⟨fun q i x hx => ?_, fun q x hx k hk => ?_,
    fun q i j x y hij hx hy => ?_, fun q x hx m hm => ?_, fun q x hx hq => ?_⟩
  · rcases hget hx with hx | ⟨rfl, rfl, rfl⟩
    · exact h.numbered q i x hx
    · refine ⟨rfl, ?_⟩
      rw [hentry, if_pos rfl, hnode.own]
  · rcases hmem hx with hx | ⟨rfl, rfl⟩
    · exact h.keys q x hx k hk
    · exact (hover.entries k).mp hk
  · rcases hget hy with hold | ⟨rfl, rfl, rfl⟩
    · rcases hget hx with hfirst | ⟨rfl, rfl, rfl⟩
      · exact h.increasing q i j x y hij hfirst hold
      · have := (List.getElem?_eq_some_iff.mp hold).1
        omega
    · rcases hget hx with hfirst | ⟨-, rfl, -⟩
      · have hstamp := hstamped x (List.mem_of_getElem? hfirst)
        exact fun k => Nat.le_trans (hstamp k) (hle k)
      · omega
  · rcases hmem hx with hx | ⟨rfl, rfl⟩
    · exact h.past q x hx m hm
    · have hm := hnode.below m (hpast hm)
      exact ⟨fun k => Nat.le_trans (hm k) (hle k),
        Nat.lt_of_le_of_lt (hm q) hlt⟩
  · rcases hmem hx with hx | ⟨rfl, rfl⟩
    · exact h.apart q x hx hq
    · exact htargets hq

namespace CausalSystem

structure Inv (nodeIds : List NodeId) (s : CausalSystem α) : Prop where
  stamps : Stamps nodeIds s.sent
  node : ∀ n, (s.node n).Inv nodeIds s.sent n
  network : ∀ n m, (n, m) ∈ s.network → Addressed s.sent n m
  stamped : ∀ n, ∀ x ∈ s.sent n, x.msg.vector.LE (s.node n).vc.clock

theorem inv_new (nodeIds : List NodeId) :
    (new nodeIds : CausalSystem α).Inv nodeIds where
  stamps := by constructor <;> simp [new]
  node n := ⟨inOrder_new nodeIds n, by simp [new, CausalOrdering.new],
    by simp [new, CausalOrdering.new, Handler.waiting],
    by simp [new, CausalOrdering.new]⟩
  network := by simp [new]
  stamped := by simp [new]

theorem Inv.setNode {nodeIds : List NodeId} {s : CausalSystem α}
    (h : s.Inv nodeIds) {n : NodeId} {o : CausalOrdering α}
    (ho : o.Inv nodeIds s.sent n) (hle : (s.node n).vc.clock.LE o.vc.clock) :
    (s.setNode n o).Inv nodeIds := by
  refine ⟨h.stamps, fun q => ?_, h.network, fun q x hx => ?_⟩
  · by_cases hq : q = n
    · subst hq
      simpa [CausalSystem.setNode] using ho
    · simpa [CausalSystem.setNode, hq] using h.node q
  · by_cases hq : q = n
    · subst hq
      have hold := h.stamped q x hx
      simp only [CausalSystem.setNode, Function.update_self]
      exact fun k => Nat.le_trans (hold k) (hle k)
    · simpa [CausalSystem.setNode, hq] using h.stamped q x hx

theorem Inv.emit {nodeIds : List NodeId} {s s' : CausalSystem α}
    (h : s.Inv nodeIds) {n : NodeId} {targets : List NodeId} {data : α}
    (htargets : n ∈ targets → targets = [n])
    (hstep : s.emit n targets data = some s') : s'.Inv nodeIds := by
  obtain ⟨vc, hvc, rfl⟩ := Option.map_eq_some_iff.mp hstep
  have hn := h.node n
  have hentry := (hn.inOrder.keys.increment hvc).2.2
  refine ⟨h.stamps.emit hn.inOrder (h.stamped n) hvc
      (s.node n).delivered_prefix_accepted.subset htargets data,
    fun q => ?_, fun q m hm => ?_, fun q x hx k => ?_⟩
  · by_cases hq : q = n
    · subst hq
      dsimp only
      rw [Function.update_self]
      refine ⟨hn.inOrder.increment hvc rfl,
        fun m hm => Addressed.emit (hn.buffered m hm) _ _,
        fun m hm => Addressed.emit (hn.waiting m hm) _ _, fun m pass hm => ?_⟩
      obtain ⟨hforeign, hnext, hseen⟩ := hn.ready m pass hm
      refine ⟨hforeign, ?_, fun k hk => Nat.le_trans (hseen k hk) ?_⟩
      · rw [hentry, if_neg hforeign, hnext]
      · rw [hentry]
        split <;> omega
    · dsimp only
      rw [Function.update_of_ne hq]
      have hq' := h.node q
      exact ⟨hq'.inOrder.elsewhere (Ne.symm hq) _,
        fun m hm => Addressed.emit (hq'.buffered m hm) _ _,
        fun m hm => Addressed.emit (hq'.waiting m hm) _ _, hq'.ready⟩
  · rcases List.mem_append.mp hm with hm | hm
    · exact Addressed.emit (h.network q m hm) _ _
    · obtain ⟨target, htarget, heq⟩ := List.mem_map.mp hm
      cases heq
      refine ⟨⟨⟨n, vc.clock, data⟩, targets, (s.node n).delivered⟩, ?_, rfl,
        htarget⟩
      simp
  · by_cases hq : q = n
    · subst hq
      dsimp only at hx ⊢
      rw [Function.update_self] at hx ⊢
      rcases List.mem_append.mp hx with hx | hx
      · have hold := h.stamped q x hx k
        rw [hentry]
        split <;> omega
      · obtain rfl := List.mem_singleton.mp hx
        exact Nat.le_refl _
    · dsimp only at hx ⊢
      rw [Function.update_of_ne hq] at hx ⊢
      exact h.stamped q x hx k

theorem Inv.step {nodeIds peers : List NodeId} {s s' : CausalSystem α}
    {a : CausalAction α} (h : s.Inv nodeIds) (hstep : s.step peers a = some s') :
    s'.Inv nodeIds := by
  cases a with
  | send n target data =>
      refine h.emit (fun hn => ?_) hstep
      rw [List.mem_singleton.mp hn]
  | broadcast n data =>
      refine h.emit (fun hn => ?_) hstep
      simp at hn
  | arrive packet =>
      simp only [CausalSystem.step] at hstep
      split at hstep
      · cases hstep
      · next n m hpacket =>
        split at hstep
        · next hidle =>
          cases hstep
          have hm := h.network n m (List.mem_of_getElem? hpacket)
          refine h.setNode ((h.node n).handleCausal h.stamps hidle hm) ?_
          unfold CausalOrdering.handleCausal
          split <;> exact fun k => Nat.le_refl _
        · cases hstep
  | advance n =>
      obtain ⟨o, ho, rfl⟩ := Option.map_eq_some_iff.mp hstep
      obtain ⟨hinv, hle⟩ := (h.node n).advance h.stamps ho
      exact h.setNode hinv hle

theorem Inv.causal {nodeIds : List NodeId} {s : CausalSystem α}
    (h : s.Inv nodeIds) {n : NodeId} {earlier later : List (CausalMsg α)}
    {m m' : CausalMsg α} (hsplit : (s.node n).accepted = earlier ++ m :: later)
    (hprec : Precedes s.sent m' m) (hm' : Addressed s.sent n m') :
    m' ∈ earlier := by
  obtain ⟨hle, hlt⟩ := h.stamps.precedes hprec
  obtain ⟨x, hx, rfl, htarget⟩ := hm'
  obtain ⟨i, hi⟩ := List.mem_iff_getElem?.mp hx
  have hseq := (h.stamps.numbered _ i x hi).2
  have hn := (h.node n).inOrder
  obtain ⟨hforeign, y, hy, hmsg, -⟩ := hn.addressed m (by simp [hsplit])
  by_cases hsender : x.msg.sender = n
  · -- A node that has accepted it as well is the only one it was sent to.
    have hcount : i < (s.node m.sender).vc.clock.entry x.msg.sender := by
      have hstamp := h.stamped _ y hy x.msg.sender
      have := hle x.msg.sender
      rw [hmsg] at hstamp
      omega
    have hmem := (h.node m.sender).inOrder.mem_accepted
      (hsender ▸ Ne.symm hforeign) hi hcount
    obtain ⟨-, z, hz, heq, hother⟩ :=
      (h.node m.sender).inOrder.addressed _ hmem
    rw [h.stamps.eq_of_msg hz hx heq,
      h.stamps.apart _ x hx (hsender ▸ htarget)] at hother
    exact absurd ((List.mem_singleton.mp hother).trans hsender) hforeign
  · have hcount : i < (sentBy x.msg.sender earlier).length := by
      have hcausal := hn.causal earlier m later hsplit _ hsender
      have := hle x.msg.sender
      split at hcausal
      · next heq =>
        rw [← heq] at hlt
        omega
      · omega
    have hprefix : sentBy x.msg.sender earlier <+:
        ((s.sent x.msg.sender).take
          ((s.node n).vc.clock.entry x.msg.sender)).map Sent.msg := by
      rw [← hn.contiguous _ hsender, hsplit, sentBy_append]
      exact List.prefix_append _ _
    have hget := hprefix.getElem hcount
    have hmem : x.msg ∈ sentBy x.msg.sender earlier := by
      refine List.mem_iff_getElem.mpr ⟨i, hcount, ?_⟩
      rw [hget, List.getElem_map, List.getElem_take]
      exact congrArg Sent.msg (List.getElem?_eq_some_iff.mp hi).2
    exact List.mem_of_mem_filter hmem

/--
When a node delivers a message it has delivered every message that was sent to it
and causally precedes that message, and it delivers no message twice.
-/
theorem run_causalDelivery (nodeIds peers : List NodeId)
    (actions : List (CausalAction α)) (s : CausalSystem α)
    (hrun : run (step peers) (new nodeIds) actions = some s) (n : NodeId) :
    (∀ earlier m later, (s.node n).delivered = earlier ++ m :: later →
      ∀ m', Precedes s.sent m' m → Addressed s.sent n m' → m' ∈ earlier) ∧
    (s.node n).delivered.Nodup := by
  have h : s.Inv nodeIds :=
    run_preserves (fun _ _ _ h hstep => h.step hstep) (inv_new nodeIds) hrun
  obtain ⟨pending, hpending⟩ := (s.node n).delivered_prefix_accepted
  refine ⟨fun earlier m later hsplit m' hprec hm' => ?_, ?_⟩
  · rw [hsplit, List.append_assoc, List.cons_append] at hpending
    exact h.causal hpending.symm hprec hm'
  · exact (s.node n).delivered_prefix_accepted.sublist.nodup
      ((h.node n).inOrder.nodup h.stamps)

/-- Node 2 answers a broadcast of node 1; the answer reaches node 3 first. -/
def earlyAnswer : List (CausalAction String) :=
  [.broadcast 1 "a", .arrive 0, .advance 2, .advance 2, .advance 2,
    .broadcast 2 "b", .arrive 3, .arrive 1, .advance 3, .advance 3, .advance 3,
    .advance 3, .advance 3, .advance 3, .advance 3, .arrive 1]

theorem earlyAnswer_causalDelivery :
    ∃ s, run (step [1, 2, 3]) (new [1, 2, 3]) earlyAnswer = some s ∧
      (s.node 3).delivered.map CausalMsg.data = ["a", "b"] ∧
      (s.node 3).delivered.Nodup := by
  have hdata : (run (step [1, 2, 3]) (new [1, 2, 3]) earlyAnswer).map
      (fun s => (s.node 3).delivered.map CausalMsg.data) = some ["a", "b"] := by
    decide +kernel
  obtain ⟨s, hs, hdelivered⟩ := Option.map_eq_some_iff.mp hdata
  exact ⟨s, hs, hdelivered, (run_causalDelivery _ _ earlyAnswer s hs 3).2⟩

end CausalSystem

end DistributedMemory.Network
