import DistributedMemory.Library.Bag
import DistributedMemory.Library.Dict
import DistributedMemory.Library.Reorder
import DistributedMemory.Library.Run
import DistributedMemory.Network.Clock

/-!
# FIFO channels

A sender numbers its messages with one counter, whoever they go to.  A receiver
expects the numbers of each sender to follow one another, and holds back what
comes after a gap.

Taking a number and handing the message to the network is one step: a message
whose number is taken but which is not sent yet counts as on its way.  `delivered`
lists the calls of the delivery callback, and `sent` the calls of `send` and
`broadcast`.
-/

namespace DistributedMemory.Network

open DistributedMemory.Library

universe u

variable {α : Type u}

/-- A message of type `FIFO_MSG`. -/
structure FIFOMessage (α : Type u) where
  sender : NodeId
  seq : Nat
  data : α
  deriving DecidableEq

structure FIFOOrdering (α : Type u) where
  seq : Nat
  expectedSeq : Dict NodeId Nat
  buffer : Dict NodeId (List (Nat × α))
  delivered : List (FIFOMessage α)

namespace FIFOOrdering

def new : FIFOOrdering α := ⟨0, .empty, .empty, []⟩

def expected (o : FIFOOrdering α) (sender : NodeId) : Nat :=
  (o.expectedSeq.get? sender).getD 1

/-- `_buffer[sender]`, empty for a sender met for the first time -/
def buffered (o : FIFOOrdering α) (sender : NodeId) : List (Nat × α) :=
  (o.buffer.get? sender).getD []

/-- The entries of a sender that is not in `_expected_seq` yet. -/
def register (o : FIFOOrdering α) (sender : NodeId) : FIFOOrdering α :=
  match o.expectedSeq.get? sender with
  | some _ => o
  | none =>
      { o with
        expectedSeq := o.expectedSeq.set sender 1
        buffer := o.buffer.set sender [] }

/-- `_deliver`, and `_expected_seq[sender] += 1` after it. -/
def deliver (o : FIFOOrdering α) (sender : NodeId) (seq : Nat) (data : α) :
    FIFOOrdering α :=
  { o with
    delivered := o.delivered ++ [⟨sender, seq, data⟩]
    expectedSeq := o.expectedSeq.set sender (o.expected sender + 1) }

/-- `_flush_buffer` over the items of `_buffer[sender]`. -/
def flushBuffer (sender : NodeId) :
    List (Nat × α) → FIFOOrdering α → FIFOOrdering α
  | [], o => o
  | (seq, data) :: rest, o =>
      if seq = o.expected sender then
        flushBuffer sender rest
          ({ o with buffer := o.buffer.set sender rest }.deliver sender seq data)
      else o

def handleFifo (o : FIFOOrdering α) (message : FIFOMessage α) :
    FIFOOrdering α :=
  let ⟨sender, seq, data⟩ := message
  let o := o.register sender
  if seq = o.expected sender then
    let o := o.deliver sender seq data
    flushBuffer sender (o.buffered sender) o
  else
    { o with
      buffer := o.buffer.set sender
        (Reorder.sorted (o.buffered sender ++ [(seq, data)])) }

/-- What was delivered of one sender. -/
def deliveredFrom (o : FIFOOrdering α) (sender : NodeId) : List (Nat × α) :=
  (o.delivered.filter (·.sender = sender)).map fun m => (m.seq, m.data)

/-- The stream of one sender. -/
def stream (o : FIFOOrdering α) (sender : NodeId) : Reorder α :=
  ⟨o.expected sender, o.buffered sender, o.deliveredFrom sender⟩

end FIFOOrdering

/-- A call of `send`, with one target, or of `broadcast`. -/
structure SendCall (α : Type u) where
  targets : List NodeId
  data : α
  deriving DecidableEq

structure FIFOSystem (α : Type u) where
  node : NodeId → FIFOOrdering α
  network : List (NodeId × FIFOMessage α)
  sent : NodeId → List (SendCall α)

inductive FIFOAction (α : Type u) where
  | send (n target : NodeId) (data : α)
  | broadcast (n : NodeId) (data : α)
  | arrive (i : Nat)

namespace FIFOSystem

def new : FIFOSystem α := ⟨fun _ => .new, [], fun _ => []⟩

def post (s : FIFOSystem α) (n : NodeId) (call : SendCall α) : FIFOSystem α :=
  let o := s.node n
  let seq := o.seq + 1
  { node := Function.update s.node n { o with seq := seq }
    network := s.network ++
      call.targets.map fun target => (target, ⟨n, seq, call.data⟩)
    sent := Function.update s.sent n (s.sent n ++ [call]) }

def handle (s : FIFOSystem α) (m : NodeId) (message : FIFOMessage α) :
    FIFOSystem α :=
  { s with node := Function.update s.node m ((s.node m).handleFifo message) }

/-- `nodes` are the keys of `NODES`. -/
def step (nodes : List NodeId) (s : FIFOSystem α) :
    FIFOAction α → Option (FIFOSystem α)
  | .send n target data => some (s.post n ⟨[target], data⟩)
  | .broadcast n data => some (s.post n ⟨nodes.filter (· ≠ n), data⟩)
  | .arrive i =>
      (pick s.network i).map fun ((m, message), rest) =>
        { s with network := rest }.handle m message

/-- What is on its way from `n` to `m`. -/
def inFlight (s : FIFOSystem α) (n m : NodeId) : List (Nat × α) :=
  (s.network.filter fun p => p.1 = m ∧ p.2.sender = n).map fun p =>
    (p.2.seq, p.2.data)

end FIFOSystem

/-- The messages of the calls that are addressed to `m`, with their numbers. -/
def addressedFrom (m : NodeId) : Nat → List (SendCall α) → List (Nat × α)
  | _, [] => []
  | seq, call :: rest =>
      if m ∈ call.targets then
        (seq, call.data) :: addressedFrom m (seq + 1) rest
      else addressedFrom m (seq + 1) rest

def addressed (m : NodeId) (sent : List (SendCall α)) : List (Nat × α) :=
  addressedFrom m 1 sent

/-- Every call before one addressed to `m` was addressed to `m` too. -/
def NoneSkipped (m : NodeId) (sent : List (SendCall α)) : Prop :=
  sent.Pairwise fun earlier later => m ∈ later.targets → m ∈ earlier.targets

instance (m : NodeId) (sent : List (SendCall α)) : Decidable (NoneSkipped m sent) :=
  inferInstanceAs (Decidable (sent.Pairwise _))

/-! ## One receiver -/

namespace FIFOOrdering

def Paired (o : FIFOOrdering α) : Prop :=
  ∀ sender, o.expectedSeq.get? sender = none → o.buffer.get? sender = none

theorem paired_new : (new : FIFOOrdering α).Paired := fun _ _ => rfl

section Streams

variable {o : FIFOOrdering α}

theorem Paired.register (h : o.Paired) (sender : NodeId) :
    (o.register sender).Paired := by
  unfold FIFOOrdering.register
  split
  · exact h
  · intro other hother
    rw [Dict.get?_set] at hother ⊢
    split at hother
    · cases hother
    · next hne =>
      rw [if_neg hne]
      exact h other hother

theorem Paired.set_buffer (h : o.Paired) {sender : NodeId}
    (hsender : (o.expectedSeq.get? sender).isSome) (items : List (Nat × α)) :
    { o with buffer := o.buffer.set sender items }.Paired := by
  intro other hother
  rw [Dict.get?_set]
  split
  · next heq =>
    rw [heq] at hother
    simp [hother] at hsender
  · exact h other hother

theorem Paired.deliver (h : o.Paired) (sender : NodeId) (seq : Nat) (data : α) :
    (o.deliver sender seq data).Paired := by
  intro other hother
  simp only [FIFOOrdering.deliver, Dict.get?_set] at hother
  split at hother
  · cases hother
  · exact h other hother

private theorem isSome_register (o : FIFOOrdering α) (sender : NodeId) :
    ((o.register sender).expectedSeq.get? sender).isSome := by
  unfold register
  split
  · next heq => simp [heq]
  · simp [Dict.get?_set_self]

theorem isSome_deliver (o : FIFOOrdering α) (sender : NodeId) (seq : Nat)
    (data : α) :
    ((o.deliver sender seq data).expectedSeq.get? sender).isSome := by
  simp [deliver, Dict.get?_set_self]

theorem Paired.flushBuffer {sender : NodeId} {items : List (Nat × α)}
    (h : o.Paired) (hsender : (o.expectedSeq.get? sender).isSome) :
    (flushBuffer sender items o).Paired := by
  induction items generalizing o with
  | nil => exact h
  | cons item rest ih =>
      rw [FIFOOrdering.flushBuffer]
      split
      · apply ih
        · exact (h.set_buffer hsender rest).deliver sender _ _
        · exact isSome_deliver _ sender _ _
      · exact h

theorem Paired.handleFifo (h : o.Paired) (message : FIFOMessage α) :
    (o.handleFifo message).Paired := by
  obtain ⟨sender, seq, data⟩ := message
  unfold FIFOOrdering.handleFifo
  dsimp only
  split
  · apply Paired.flushBuffer
    · exact (h.register sender).deliver sender seq data
    · exact isSome_deliver _ sender seq data
  · exact (h.register sender).set_buffer (isSome_register o sender) _

theorem stream_register (h : o.Paired) (sender other : NodeId) :
    (o.register sender).stream other = o.stream other := by
  unfold register
  split
  · rfl
  · next hnone =>
    have hbuffer := h sender hnone
    simp only [stream, expected, buffered, Dict.get?_set]
    split
    · next heq =>
      rw [heq, hnone, hbuffer]
      rfl
    · rfl

theorem stream_deliver_self (o : FIFOOrdering α) (sender : NodeId) (seq : Nat)
    (data : α) :
    (o.deliver sender seq data).stream sender =
      (o.stream sender).deliver (seq, data) := by
  simp [stream, expected, buffered, deliveredFrom, deliver, Reorder.deliver,
    Dict.get?_set_self]

theorem stream_deliver_ne (o : FIFOOrdering α) {sender other : NodeId}
    (hne : other ≠ sender) (seq : Nat) (data : α) :
    (o.deliver sender seq data).stream other = o.stream other := by
  simp [stream, expected, buffered, deliveredFrom, deliver,
    Dict.get?_set_ne _ _ hne, hne.symm]

theorem stream_set_buffer_self (o : FIFOOrdering α) (sender : NodeId)
    (items : List (Nat × α)) :
    { o with buffer := o.buffer.set sender items }.stream sender =
      { o.stream sender with buffer := items } := by
  simp [stream, expected, buffered, deliveredFrom, Dict.get?_set_self]

theorem stream_set_buffer_ne (o : FIFOOrdering α) {sender other : NodeId}
    (hne : other ≠ sender) (items : List (Nat × α)) :
    { o with buffer := o.buffer.set sender items }.stream other =
      o.stream other := by
  simp [stream, expected, buffered, deliveredFrom, Dict.get?_set_ne _ _ hne]

private theorem stream_flushBuffer_self (sender : NodeId) (items : List (Nat × α))
    (o : FIFOOrdering α) :
    (flushBuffer sender items o).stream sender =
      (o.stream sender).flush items := by
  induction items generalizing o with
  | nil => rfl
  | cons item rest ih =>
      rw [flushBuffer, Reorder.flush]
      split
      · next heq =>
        refine Eq.trans ?_ (if_pos heq).symm
        rw [ih, stream_deliver_self, stream_set_buffer_self]
      · next hne => exact (if_neg hne).symm

private theorem stream_flushBuffer_ne {sender other : NodeId} (hne : other ≠ sender)
    (items : List (Nat × α)) (o : FIFOOrdering α) :
    (flushBuffer sender items o).stream other = o.stream other := by
  induction items generalizing o with
  | nil => rfl
  | cons item rest ih =>
      rw [flushBuffer]
      split
      · rw [ih, stream_deliver_ne _ hne, stream_set_buffer_ne _ hne]
      · rfl

theorem stream_handleFifo (h : o.Paired) (message : FIFOMessage α)
    (other : NodeId) :
    (o.handleFifo message).stream other =
      if other = message.sender then
        (o.stream other).handle (message.seq, message.data)
      else o.stream other := by
  obtain ⟨sender, seq, data⟩ := message
  have hregister := stream_register h sender other
  unfold handleFifo
  dsimp only
  by_cases hother : other = sender
  · subst hother
    rw [if_pos rfl, Reorder.handle, ← hregister]
    split
    · next heq =>
      refine Eq.trans ?_ (if_pos heq).symm
      rw [stream_flushBuffer_self, stream_deliver_self]
      rfl
    · next hne =>
      refine Eq.trans ?_ (if_neg hne).symm
      exact stream_set_buffer_self _ other _
  · rw [if_neg hother, ← hregister]
    split
    · rw [stream_flushBuffer_ne hother, stream_deliver_ne _ hother]
    · rw [stream_set_buffer_ne _ hother]

end Streams

private theorem seq_handleFifo (o : FIFOOrdering α) (message : FIFOMessage α) :
    (o.handleFifo message).seq = o.seq := by
  have hflush : ∀ (sender : NodeId) (items : List (Nat × α))
      (o : FIFOOrdering α), (flushBuffer sender items o).seq = o.seq := by
    intro sender items
    induction items with
    | nil => exact fun _ => rfl
    | cons item rest ih =>
        intro o
        rw [flushBuffer]
        split
        · exact ih _
        · rfl
  have hregister : (o.register message.sender).seq = o.seq := by
    unfold register
    split <;> rfl
  unfold handleFifo
  dsimp only
  split
  · exact (hflush _ _ _).trans hregister
  · exact hregister

end FIFOOrdering

/-! ## What is addressed to a receiver -/

private theorem addressedFrom_concat (m : NodeId) (seq : Nat) (sent : List (SendCall α))
    (call : SendCall α) :
    addressedFrom m seq (sent ++ [call]) = addressedFrom m seq sent ++
      if m ∈ call.targets then [(seq + sent.length, call.data)] else [] := by
  induction sent generalizing seq with
  | nil => simp [addressedFrom]
  | cons c rest ih =>
      have hseq : seq + 1 + rest.length = seq + (rest.length + 1) := by omega
      simp only [List.cons_append, addressedFrom, List.length_cons, ih, hseq]
      split <;> simp

theorem lt_of_mem_addressedFrom {m : NodeId} {seq : Nat} {sent : List (SendCall α)}
    {item : Nat × α} (h : item ∈ addressedFrom m seq sent) :
    seq ≤ item.1 ∧ item.1 < seq + sent.length ∧ ∃ c ∈ sent, m ∈ c.targets := by
  induction sent generalizing seq with
  | nil => cases h
  | cons c rest ih =>
      have hrest : item ∈ addressedFrom m (seq + 1) rest →
          seq ≤ item.1 ∧ item.1 < seq + (c :: rest).length ∧
            ∃ c' ∈ c :: rest, m ∈ c'.targets := by
        intro hitem
        obtain ⟨hle, hlt, c', hc', hm⟩ := ih hitem
        rw [List.length_cons]
        exact ⟨by omega, by omega, c', List.mem_cons_of_mem c hc', hm⟩
      rw [addressedFrom] at h
      split at h
      · next hm =>
        rcases List.mem_cons.mp h with rfl | h
        · simp only [List.length_cons]
          exact ⟨Nat.le_refl _, by omega, c, by simp, hm⟩
        · exact hrest h
      · exact hrest h

private theorem exists_mem_addressedFrom {m : NodeId} (seq : Nat)
    {sent : List (SendCall α)} {call : SendCall α} (hcall : call ∈ sent)
    (hm : m ∈ call.targets) : ∃ item, item ∈ addressedFrom m seq sent := by
  induction sent generalizing seq with
  | nil => cases hcall
  | cons c rest ih =>
      rw [addressedFrom]
      split
      · exact ⟨_, List.mem_cons_self⟩
      · next hnot =>
        apply ih
        exact (List.mem_cons.mp hcall).resolve_left fun heq => hnot (heq ▸ hm)

theorem pairwise_addressedFrom (m : NodeId) (seq : Nat)
    (sent : List (SendCall α)) :
    (addressedFrom m seq sent).Pairwise fun a b => a.1 < b.1 := by
  induction sent generalizing seq with
  | nil => exact .nil
  | cons c rest ih =>
      rw [addressedFrom]
      split
      · refine List.pairwise_cons.mpr ⟨fun item hitem => ?_, ih (seq + 1)⟩
        exact (lt_of_mem_addressedFrom hitem).1
      · exact ih (seq + 1)

private theorem noneSkipped_iff (m : NodeId) (seq : Nat) (sent : List (SendCall α)) :
    NoneSkipped m sent ↔ ∀ item ∈ addressedFrom m seq sent, ∀ k, seq ≤ k →
      k < item.1 → ∃ earlier ∈ addressedFrom m seq sent, earlier.1 = k := by
  induction sent generalizing seq with
  | nil => simp [NoneSkipped, addressedFrom]
  | cons c rest ih =>
      rw [NoneSkipped, List.pairwise_cons, ← NoneSkipped, ih (seq + 1)]
      by_cases hm : m ∈ c.targets
      · simp only [hm, addressedFrom, if_true, implies_true, true_and]
        constructor
        · intro h item hitem k hk hlt
          rcases List.mem_cons.mp hitem with rfl | hitem
          · exact absurd hlt (Nat.not_lt_of_le hk)
          · rcases Nat.eq_or_lt_of_le hk with rfl | hk
            · exact ⟨(seq, c.data), by simp, rfl⟩
            · obtain ⟨earlier, hearlier, heq⟩ := h item hitem k hk hlt
              exact ⟨earlier, List.mem_cons_of_mem _ hearlier, heq⟩
        · intro h item hitem k hk hlt
          obtain ⟨earlier, hearlier, heq⟩ := h item
            (List.mem_cons_of_mem _ hitem) k (Nat.le_of_succ_le hk) hlt
          rcases List.mem_cons.mp hearlier with rfl | hearlier
          · exact absurd heq (Nat.ne_of_lt hk)
          · exact ⟨earlier, hearlier, heq⟩
      · simp only [hm, addressedFrom, if_false, imp_false]
        constructor
        · rintro ⟨hnone, -⟩ item hitem
          obtain ⟨-, -, c', hc', hm'⟩ := lt_of_mem_addressedFrom hitem
          exact absurd hm' (hnone c' hc')
        · intro h
          -- The number of this call is a hole below any number after it.
          have hempty : ∀ item, item ∉ addressedFrom m (seq + 1) rest := by
            intro item hitem
            obtain ⟨earlier, hearlier, heq⟩ := h item hitem seq
              (Nat.le_refl seq) (lt_of_mem_addressedFrom hitem).1
            exact absurd heq
              (Nat.ne_of_gt (lt_of_mem_addressedFrom hearlier).1)
          refine ⟨fun c' hc' hm' => ?_, fun item hitem =>
            absurd hitem (hempty item)⟩
          obtain ⟨item, hitem⟩ := exists_mem_addressedFrom (seq + 1) hc' hm'
          exact hempty item hitem

/-! ## All nodes -/

namespace FIFOSystem

structure Inv (s : FIFOSystem α) : Prop where
  paired : ∀ m, (s.node m).Paired
  counter : ∀ n, (s.node n).seq = (s.sent n).length
  stream : ∀ n m, ∃ arrived,
    (arrived ++ s.inFlight n m).Perm (addressed m (s.sent n)) ∧
      ((s.node m).stream n).InOrder arrived ∧ ((s.node m).stream n).Gap

theorem inv_new : (new : FIFOSystem α).Inv where
  paired _ := FIFOOrdering.paired_new
  counter _ := rfl
  stream _ _ := ⟨[], .refl _, Reorder.inOrder_new, Reorder.gap_new⟩

private theorem inFlight_post {s : FIFOSystem α} {n : NodeId} {call : SendCall α}
    (hnodup : call.targets.Nodup) (n' m : NodeId) :
    (s.post n call).inFlight n' m = s.inFlight n' m ++
      if n' = n ∧ m ∈ call.targets then [((s.node n).seq + 1, call.data)]
      else [] := by
  simp only [inFlight, post, List.filter_append, List.map_append,
    List.filter_map]
  congr 1
  by_cases hn : n' = n
  · subst hn
    have hfilter : (call.targets.filter fun target => target = m) =
        if m ∈ call.targets then [m] else [] := by
      rw [List.filter_eq]
      split
      · next hm => rw [List.count_eq_one_of_mem hnodup hm, List.replicate_one]
      · next hm => rw [List.count_eq_zero_of_not_mem hm, List.replicate_zero]
    simp only [Function.comp_def, and_true, true_and, hfilter]
    split <;> rfl
  · have hne : n ≠ n' := Ne.symm hn
    simp [Function.comp_def, hn, hne]

private theorem stream_post (s : FIFOSystem α) (n : NodeId) (call : SendCall α)
    (m n' : NodeId) :
    ((s.post n call).node m).stream n' = (s.node m).stream n' := by
  by_cases hm : m = n
  · subst hm
    simp [post, FIFOOrdering.stream, FIFOOrdering.expected,
      FIFOOrdering.buffered, FIFOOrdering.deliveredFrom]
  · simp [post, hm]

theorem Inv.post {s : FIFOSystem α} (h : s.Inv) (n : NodeId) {call : SendCall α}
    (hnodup : call.targets.Nodup) : (s.post n call).Inv := by
  refine ⟨fun m => ?_, fun n' => ?_, fun n' m => ?_⟩
  · by_cases hm : m = n
    · subst hm
      have hpaired := h.paired m
      simpa [FIFOSystem.post, FIFOOrdering.Paired] using hpaired
    · simpa [FIFOSystem.post, hm] using h.paired m
  · by_cases hn : n' = n
    · subst hn
      simp [FIFOSystem.post, h.counter n']
    · simpa [FIFOSystem.post, hn] using h.counter n'
  · obtain ⟨arrived, hperm, hstream⟩ := h.stream n' m
    refine ⟨arrived, ?_, stream_post s n call m n' ▸ hstream⟩
    rw [inFlight_post hnodup, ← List.append_assoc]
    by_cases hn : n' = n
    · subst hn
      have hnumber : 1 + (s.sent n').length = (s.node n').seq + 1 := by
        rw [h.counter n', Nat.add_comm]
      simp only [true_and, FIFOSystem.post, Function.update_self, addressed,
        addressedFrom_concat, hnumber]
      exact hperm.append_right _
    · simp only [hn, false_and, if_false, List.append_nil, FIFOSystem.post,
        Function.update_of_ne hn]
      exact hperm

private theorem inFlight_pick {s : FIFOSystem α} {i : Nat} {m : NodeId}
    {message : FIFOMessage α} {rest : List (NodeId × FIFOMessage α)}
    (hpick : pick s.network i = some ((m, message), rest)) (n m' : NodeId) :
    (s.inFlight n m').Perm
      ((if m' = m ∧ n = message.sender then [(message.seq, message.data)]
        else []) ++ { s with network := rest }.inFlight n m') := by
  have hperm := ((pick_perm hpick).filter fun p =>
    p.1 = m' ∧ p.2.sender = n).map fun p => (p.2.seq, p.2.data)
  refine hperm.trans (.of_eq ?_)
  simp only [List.filter_cons, inFlight]
  by_cases hm : m' = m ∧ n = message.sender
  · obtain ⟨rfl, rfl⟩ := hm
    simp
  · have hne : ¬ (m = m' ∧ message.sender = n) := by
      rintro ⟨rfl, rfl⟩
      exact hm ⟨rfl, rfl⟩
    simp [hm, hne]

private theorem stream_handle {s : FIFOSystem α} (h : ∀ m, (s.node m).Paired)
    (m : NodeId) (message : FIFOMessage α) (m' n : NodeId) :
    ((s.handle m message).node m').stream n =
      if m' = m ∧ n = message.sender then
        ((s.node m').stream n).handle (message.seq, message.data)
      else (s.node m').stream n := by
  by_cases hm : m' = m
  · subst hm
    simp [handle, FIFOOrdering.stream_handleFifo (h m')]
  · simp [handle, hm]

theorem Inv.arrive {s : FIFOSystem α} (h : s.Inv) {i : Nat} {m : NodeId}
    {message : FIFOMessage α} {rest : List (NodeId × FIFOMessage α)}
    (hpick : pick s.network i = some ((m, message), rest)) :
    ({ s with network := rest }.handle m message).Inv := by
  refine ⟨fun m' => ?_, fun n => ?_, fun n m' => ?_⟩
  · by_cases hm : m' = m
    · subst hm
      simpa [FIFOSystem.handle] using (h.paired m').handleFifo message
    · simpa [FIFOSystem.handle, hm] using h.paired m'
  · by_cases hn : n = m
    · subst hn
      simpa [FIFOSystem.handle, FIFOOrdering.seq_handleFifo] using h.counter n
    · simpa [FIFOSystem.handle, hn] using h.counter n
  · obtain ⟨arrived, hperm, horder, hgap⟩ := h.stream n m'
    have hflight := ((inFlight_pick hpick n m').append_left arrived).symm.trans
      hperm
    rw [stream_handle (s := { s with network := rest }) h.paired]
    by_cases hat : m' = m ∧ n = message.sender
    · rw [if_pos hat] at hflight ⊢
      have hmem : (message.seq, message.data) ∈ addressed m' (s.sent n) :=
        hflight.subset (by simp)
      have hdistinct := hflight.symm.pairwise
        ((pairwise_addressedFrom m' 1 (s.sent n)).imp
          fun hlt => Nat.ne_of_lt hlt) fun hne => hne.symm
      refine ⟨arrived ++ [(message.seq, message.data)], ?_,
        horder.handle hgap (lt_of_mem_addressedFrom hmem).1 ?_⟩
      · rw [List.append_assoc]
        exact hflight
      · intro old hold
        exact (List.pairwise_append.mp hdistinct).2.2 old hold _ (by simp)
    · rw [if_neg hat] at hflight ⊢
      exact ⟨arrived, hflight, horder, hgap⟩

theorem Inv.step {nodes : List NodeId} (hnodes : nodes.Nodup)
    {s s' : FIFOSystem α} {a : FIFOAction α} (h : s.Inv)
    (hstep : s.step nodes a = some s') : s'.Inv := by
  cases a with
  | send n target data =>
      cases hstep
      exact h.post n (List.nodup_singleton target)
  | broadcast n data =>
      cases hstep
      exact h.post n (hnodes.filter _)
  | arrive i =>
      obtain ⟨⟨⟨m, message⟩, rest⟩, hpick, rfl⟩ :=
        Option.map_eq_some_iff.mp hstep
      exact h.arrive hpick

/--
Once everything that `n` sent to `m` has arrived, `m` has delivered exactly that,
in the order in which it was sent, if and only if `n` sent nothing past `m` before
the last message to it.
-/
theorem run_delivers_addressed_iff {nodes : List NodeId} (hnodes : nodes.Nodup)
    (actions : List (FIFOAction α)) (s : FIFOSystem α)
    (hrun : run (step nodes) new actions = some s) (n m : NodeId)
    (harrived : s.inFlight n m = []) :
    (s.node m).deliveredFrom n = addressed m (s.sent n) ↔
      NoneSkipped m (s.sent n) := by
  have h : s.Inv :=
    run_preserves (fun _ _ _ h hstep => h.step hnodes hstep) inv_new hrun
  obtain ⟨arrived, hperm, horder, hgap⟩ := h.stream n m
  rw [harrived, List.append_nil] at hperm
  rw [noneSkipped_iff m 1]
  constructor
  · intro hdelivered item hitem k hk hlt
    have hall : item ∈ ((s.node m).stream n).delivered :=
      by
      rw [← addressed, ← hdelivered] at hitem
      exact hitem
    have := horder.lt_expected hall
    obtain ⟨earlier, hearlier, heq⟩ := horder.mem_of_lt hk (by omega)
    exact ⟨earlier, hperm.subset hearlier, heq⟩
  · intro hnone
    have hempty : ((s.node m).stream n).buffer = [] := by
      apply horder.complete hgap
      intro item hitem k hk hlt
      obtain ⟨earlier, hearlier, heq⟩ :=
        hnone item (hperm.subset hitem) k hk hlt
      exact ⟨earlier, hperm.symm.subset hearlier, heq⟩
    have hall := horder.arrived.trans hperm
    rw [hempty, List.append_nil] at hall
    exact Reorder.eq_of_perm hall horder.pairwise_delivered
      (pairwise_addressedFrom m 1 (s.sent n))

/-- Node 0 sends to node 1 and then to node 2. -/
def secondTarget : List (FIFOAction String) :=
  [.send 0 1 "a", .send 0 2 "b", .arrive 1, .arrive 0]

theorem secondTarget_not_delivered :
    ∃ s, run (step [0, 1, 2, 3]) new secondTarget = some s ∧
      s.inFlight 0 2 = [] ∧ addressed 2 (s.sent 0) = [(2, "b")] ∧
      (s.node 2).deliveredFrom 0 = [] := by
  have hend : (run (step [0, 1, 2, 3]) new secondTarget).map (fun s =>
      decide (s.inFlight 0 2 = [] ∧ addressed 2 (s.sent 0) = [(2, "b")] ∧
        (s.node 2).deliveredFrom 0 = [])) = some true := by
    decide +kernel
  obtain ⟨s, hs, hdec⟩ := Option.map_eq_some_iff.mp hend
  exact ⟨s, hs, of_decide_eq_true hdec⟩

/-- Two broadcasts and a message to node 2, handled there from last to first. -/
def toEveryone : List (FIFOAction String) :=
  [.broadcast 0 "a", .broadcast 0 "b", .send 0 2 "c", .arrive 6, .arrive 4,
    .arrive 1]

theorem toEveryone_delivered :
    ∃ s, run (step [0, 1, 2, 3]) new toEveryone = some s ∧
      (s.node 2).deliveredFrom 0 = addressed 2 (s.sent 0) := by
  have hend : (run (step [0, 1, 2, 3]) new toEveryone).map (fun s =>
      decide (s.inFlight 0 2 = [] ∧ NoneSkipped 2 (s.sent 0))) =
        some true := by
    decide +kernel
  obtain ⟨s, hs, hdec⟩ := Option.map_eq_some_iff.mp hend
  obtain ⟨harrived, hnone⟩ := of_decide_eq_true hdec
  exact ⟨s, hs, (run_delivers_addressed_iff (by decide) toEveryone s hs 0 2
    harrived).mpr hnone⟩

end FIFOSystem

end DistributedMemory.Network
