import DistributedMemory.Library.ReorderCopies
import DistributedMemory.Network.FIFOOrdering

/-!
# What one FIFO receiver delivers

The messages arrive at one node in any order and from any number of senders.
With distinct numbers every sender's messages come out in the order of their
numbers.  A message that comes a second time is never delivered again in its turn,
but it stays in the buffer, and the messages sorted behind it are no longer taken
from there.
-/

namespace DistributedMemory.Network

open DistributedMemory.Library

universe u

variable {α : Type u}

namespace FIFOOrdering

/-- The receiver after the messages of a list have been handled. -/
def receive (arrived : List (FIFOMessage α)) : FIFOOrdering α :=
  arrived.foldl handleFifo new

/-- What has arrived from one sender. -/
def arrivedFrom (arrived : List (FIFOMessage α)) (sender : NodeId) :
    List (Nat × α) :=
  (arrived.filter (·.sender = sender)).map fun m => (m.seq, m.data)

/-- The messages of a sender have distinct numbers, from one on. -/
structure Numbered (arrived : List (FIFOMessage α)) : Prop where
  positive : ∀ message ∈ arrived, 1 ≤ message.seq
  distinct : arrived.Pairwise fun a b => a.sender = b.sender → a.seq ≠ b.seq

theorem receive_concat (arrived : List (FIFOMessage α)) (message : FIFOMessage α) :
    receive (arrived ++ [message]) = (receive arrived).handleFifo message := by
  rw [receive, List.foldl_append]
  rfl

theorem paired_receive (arrived : List (FIFOMessage α)) :
    (receive arrived).Paired := by
  induction arrived using List.reverseRecOn with
  | nil => exact paired_new
  | append_singleton arrived message ih =>
      rw [receive_concat]
      exact ih.handleFifo message

private theorem arrivedFrom_concat (arrived : List (FIFOMessage α))
    (message : FIFOMessage α) (sender : NodeId) :
    arrivedFrom (arrived ++ [message]) sender = arrivedFrom arrived sender ++
      if message.sender = sender then [(message.seq, message.data)] else [] := by
  rw [arrivedFrom, List.filter_append, List.map_append]
  congr 1
  by_cases h : message.sender = sender
  · simp [h]
  · simp [h]

theorem stream_receive (arrived : List (FIFOMessage α)) (sender : NodeId) :
    (receive arrived).stream sender =
      (arrivedFrom arrived sender).foldl Reorder.handle .new := by
  induction arrived using List.reverseRecOn with
  | nil => rfl
  | append_singleton arrived message ih =>
      rw [receive_concat, stream_handleFifo (paired_receive arrived), ih,
        arrivedFrom_concat, List.foldl_append]
      by_cases h : message.sender = sender
      · rw [if_pos h.symm, if_pos h]
        rfl
      · rw [if_neg (Ne.symm h), if_neg h]
        rfl

theorem mem_arrivedFrom {arrived : List (FIFOMessage α)} {sender : NodeId}
    {item : Nat × α} :
    item ∈ arrivedFrom arrived sender ↔ ⟨sender, item.1, item.2⟩ ∈ arrived := by
  simp only [arrivedFrom, List.mem_map, List.mem_filter, decide_eq_true_eq]
  constructor
  · rintro ⟨⟨_, seq, data⟩, ⟨hmem, rfl⟩, rfl⟩
    exact hmem
  · exact fun hmem => ⟨_, ⟨hmem, rfl⟩, rfl⟩

private theorem Numbered.distinct_arrivedFrom {arrived : List (FIFOMessage α)}
    (h : Numbered arrived) (sender : NodeId) :
    (∀ item ∈ arrivedFrom arrived sender, 1 ≤ item.1) ∧
      (arrivedFrom arrived sender).Pairwise fun a b => a.1 ≠ b.1 := by
  refine ⟨fun item hitem => h.positive _ (mem_arrivedFrom.mp hitem), ?_⟩
  rw [arrivedFrom, List.pairwise_map]
  refine (List.Pairwise.and_mem.mp (h.distinct.filter _)).imp ?_
  intro a b ⟨ha, hb, hne⟩
  simp only [List.mem_filter, decide_eq_true_eq] at ha hb
  exact hne (ha.2.trans hb.2.symm)

theorem Numbered.left {before after : List (FIFOMessage α)}
    (h : Numbered (before ++ after)) : Numbered before :=
  ⟨fun m hm => h.positive m (List.mem_append_left _ hm),
    (List.pairwise_append.mp h.distinct).1⟩

theorem Numbered.inOrder {arrived : List (FIFOMessage α)}
    (h : Numbered arrived) (sender : NodeId) :
    Reorder.InOrder (arrivedFrom arrived sender)
        ((receive arrived).stream sender) ∧
      ((receive arrived).stream sender).Gap := by
  rw [stream_receive]
  obtain ⟨hpos, hdistinct⟩ := h.distinct_arrivedFrom sender
  exact Reorder.inOrder_foldl hpos hdistinct

/--
After each arrival the messages delivered of a sender are those numbered up to
`k`, in order and each with its own data, where all numbers up to `k` have arrived
and the next has not; the others that have arrived are in the buffer.
-/
theorem receive_delivers_in_order (before after : List (FIFOMessage α))
    (h : Numbered (before ++ after)) (sender : NodeId) :
    ∃ k,
      (∀ j, j ≤ k ↔ ∀ i, 1 ≤ i → i ≤ j →
        ∃ message ∈ before, message.sender = sender ∧ message.seq = i) ∧
      ((receive before).deliveredFrom sender).map Prod.fst = List.range' 1 k ∧
      ((receive before).deliveredFrom sender).Perm
        ((arrivedFrom before sender).filter fun item => item.1 ≤ k) ∧
      ((receive before).buffered sender).Perm
        ((arrivedFrom before sender).filter fun item => k < item.1) := by
  obtain ⟨horder, hgap⟩ := h.left.inOrder sender
  refine ⟨((receive before).deliveredFrom sender).length, fun j => ?_,
    horder.delivered, horder.delivered_perm hgap, horder.buffer_perm hgap⟩
  apply (horder.le_length_iff hgap j).trans
  refine forall_congr' fun i => imp_congr_right fun _ => imp_congr_right fun _ => ?_
  constructor
  · rintro ⟨item, hitem, rfl⟩
    exact ⟨_, mem_arrivedFrom.mp hitem, rfl, rfl⟩
  · rintro ⟨⟨_, seq, data⟩, hmem, rfl, rfl⟩
    exact ⟨(seq, data), mem_arrivedFrom.mpr hmem, rfl⟩

/-- Messages of nodes 0 and 3, the last of which has not arrived. -/
def outOfOrder : List (FIFOMessage String) :=
  [⟨0, 2, "b"⟩, ⟨3, 1, "x"⟩, ⟨0, 4, "d"⟩, ⟨0, 1, "a"⟩]

theorem outOfOrder_delivered :
    ∃ k,
      (∀ j, j ≤ k ↔ ∀ i, 1 ≤ i → i ≤ j →
        ∃ message ∈ outOfOrder, message.sender = 0 ∧ message.seq = i) ∧
      ((receive outOfOrder).deliveredFrom 0).map Prod.fst = List.range' 1 k ∧
      ((receive outOfOrder).deliveredFrom 0).Perm
        ((arrivedFrom outOfOrder 0).filter fun item => item.1 ≤ k) ∧
      ((receive outOfOrder).buffered 0).Perm
        ((arrivedFrom outOfOrder 0).filter fun item => k < item.1) :=
  receive_delivers_in_order outOfOrder [⟨0, 3, "c"⟩]
    ⟨by decide, by decide⟩ 0

/-! ## A message that comes again -/

section Copies

variable {o o' : FIFOOrdering α} {sender : NodeId} {q : Nat}

def fromSender (sender : NodeId) (item : Nat × α) : FIFOMessage α :=
  ⟨sender, item.1, item.2⟩

private theorem delivered_flushBuffer (sender : NodeId) (items : List (Nat × α))
    (o : FIFOOrdering α) :
    (flushBuffer sender items o).delivered = o.delivered ++
      (Reorder.inTurn (o.expected sender) items).map (fromSender sender) := by
  induction items generalizing o with
  | nil => simp [flushBuffer, Reorder.inTurn]
  | cons item rest ih =>
      rw [flushBuffer, Reorder.inTurn]
      by_cases heq : item.1 = o.expected sender
      · have hexpected : ({ o with buffer := o.buffer.set sender rest }.deliver
            sender item.1 item.2).expected sender = o.expected sender + 1 := by
          simp [deliver, expected, Dict.get?_set_self]
        rw [if_pos heq, if_pos heq, ih, hexpected, List.map_cons]
        simp [deliver, fromSender]
      · rw [if_neg heq, if_neg heq]
        simp

theorem delivered_handleFifo (h : o.Paired) (message : FIFOMessage α) :
    (o.handleFifo message).delivered = o.delivered ++
      ((o.stream message.sender).handed (message.seq, message.data)).map
        (fromSender message.sender) := by
  obtain ⟨sender, seq, data⟩ := message
  have hregister := stream_register h sender sender
  have hdelivered : (o.register sender).delivered = o.delivered := by
    unfold register
    split <;> rfl
  rw [← hregister, ← hdelivered]
  unfold handleFifo Reorder.handed
  dsimp only
  by_cases heq : seq = (o.register sender).expected sender
  · have hexpected : ((o.register sender).deliver sender seq data).expected
        sender = (o.register sender).expected sender + 1 := by
      simp [deliver, expected, Dict.get?_set_self]
    rw [if_pos heq, delivered_flushBuffer, hexpected]
    simp [stream, heq, deliver, buffered, fromSender]
  · rw [if_neg heq]
    simp [stream, heq]

/-- The second receiver has one message numbered `q` of `sender` more in its
buffer. -/
structure Copied (sender : NodeId) (q : Nat) (o o' : FIFOOrdering α) : Prop where
  paired : o.Paired
  paired' : o'.Paired
  delivered : o'.delivered = o.delivered
  stream : Reorder.Doubled q (o.stream sender) (o'.stream sender)
  other : ∀ other, other ≠ sender → o'.stream other = o.stream other

/-- The arrival of a message does not take a message of `sender` numbered above
`q` from the buffer. -/
def Spares (sender : NodeId) (q : Nat) (o : FIFOOrdering α)
    (message : FIFOMessage α) : Prop :=
  message.sender = sender →
    Reorder.Within q (o.stream sender) (message.seq, message.data)

theorem Copied.handleFifo (h : Copied sender q o o') {message : FIFOMessage α}
    (hspares : Spares sender q o message) :
    Copied sender q (o.handleFifo message) (o'.handleFifo message) := by
  refine ⟨h.paired.handleFifo message, h.paired'.handleFifo message, ?_, ?_, ?_⟩
  · rw [delivered_handleFifo h.paired, delivered_handleFifo h.paired', h.delivered]
    congr 2
    by_cases hsender : message.sender = sender
    · rw [hsender]
      exact h.stream.handed_of_within (hspares hsender)
    · rw [h.other _ hsender]
  · rw [stream_handleFifo h.paired, stream_handleFifo h.paired']
    split
    · next hsender => exact h.stream.handle (hspares hsender.symm)
    · exact h.stream
  · intro other hother
    rw [stream_handleFifo h.paired, stream_handleFifo h.paired', h.other other hother]

theorem Copied.deliveredFrom_lt (h : Copied sender q o o')
    {message : FIFOMessage α} (hspares : ¬ Spares sender q o message) :
    ((o'.handleFifo message).deliveredFrom sender).length <
      ((o.handleFifo message).deliveredFrom sender).length := by
  obtain ⟨rfl, hbeyond⟩ := Classical.not_imp.mp hspares
  have hlt := h.stream.handed_lt hbeyond
  have hstream := stream_handleFifo h.paired message message.sender
  have hstream' := stream_handleFifo h.paired' message message.sender
  rw [if_pos rfl] at hstream hstream'
  have hfrom := congrArg (fun r => r.delivered.length) hstream
  have hfrom' := congrArg (fun r => r.delivered.length) hstream'
  simp only [Reorder.delivered_handle, List.length_append, h.stream.delivered]
    at hfrom hfrom'
  simp only [FIFOOrdering.stream] at hfrom hfrom' hlt ⊢
  omega

private theorem copied_handleFifo {before : List (FIFOMessage α)} {copy : FIFOMessage α}
    (hcopy : copy ∈ before)
    (hne : copy.seq ≠ (receive before).expected copy.sender) :
    Copied copy.sender copy.seq (receive before)
      ((receive before).handleFifo copy) := by
  have hpaired := paired_receive before
  have hstream := stream_handleFifo hpaired copy
  have hdoubled : Reorder.Doubled copy.seq ((receive before).stream copy.sender)
      (((receive before).stream copy.sender).handle (copy.seq, copy.data)) := by
    have hkept : Reorder.Kept ((receive before).stream copy.sender)
        (copy.seq, copy.data) := by
      rw [stream_receive]
      exact Reorder.kept_foldl (mem_arrivedFrom.mpr hcopy)
    apply Reorder.doubled_handle ?_ hkept hne
    rw [stream_receive]
    exact Reorder.pairwise_foldl _
  refine ⟨hpaired, hpaired.handleFifo copy, ?_, ?_, fun other hother => ?_⟩
  · rw [delivered_handleFifo hpaired, Reorder.handed_eq_nil_iff.mpr hne,
      List.map_nil, List.append_nil]
  · rw [hstream, if_pos rfl]
    exact hdoubled
  · rw [hstream, if_neg hother]

/-- The copy does not have the number that is expected when it comes, and no
message of its sender numbered above it is taken from the buffer later. -/
def Harmless (before : List (FIFOMessage α)) (copy : FIFOMessage α)
    (after : List (FIFOMessage α)) : Prop :=
  copy.seq ≠ (receive before).expected copy.sender ∧
    ∀ earlier message, earlier ++ [message] <+: after →
      Spares copy.sender copy.seq (receive (before ++ earlier)) message

theorem copied_receive {before after : List (FIFOMessage α)}
    {copy : FIFOMessage α} (hcopy : copy ∈ before)
    (hne : copy.seq ≠ (receive before).expected copy.sender)
    (hspares : ∀ earlier message, earlier ++ [message] <+: after →
      Copied copy.sender copy.seq (receive (before ++ earlier))
        (receive (before ++ copy :: earlier)) →
      Spares copy.sender copy.seq (receive (before ++ earlier)) message)
    {earlier : List (FIFOMessage α)} (hearlier : earlier <+: after) :
    Copied copy.sender copy.seq (receive (before ++ earlier))
      (receive (before ++ copy :: earlier)) := by
  induction earlier using List.reverseRecOn with
  | nil =>
      rw [List.append_nil, receive_concat]
      exact copied_handleFifo hcopy hne
  | append_singleton earlier message ih =>
      have hcopied := ih ((List.prefix_append earlier [message]).trans hearlier)
      rw [← List.append_assoc, ← List.cons_append, ← List.append_assoc,
        receive_concat, receive_concat]
      exact hcopied.handleFifo (hspares earlier message hearlier hcopied)

theorem harmless_of_spares {before after : List (FIFOMessage α)}
    {copy : FIFOMessage α} (hcopy : copy ∈ before)
    (hne : copy.seq ≠ (receive before).expected copy.sender)
    (hspares : ∀ earlier message, earlier ++ [message] <+: after →
      Copied copy.sender copy.seq (receive (before ++ earlier))
        (receive (before ++ copy :: earlier)) →
      Spares copy.sender copy.seq (receive (before ++ earlier)) message) :
    Harmless before copy after := by
  refine ⟨hne, fun earlier message hearlier => ?_⟩
  apply hspares earlier message hearlier
  exact copied_receive hcopy hne hspares
    ((List.prefix_append earlier [message]).trans hearlier)

theorem Harmless.delivered_eq {before after : List (FIFOMessage α)}
    {copy : FIFOMessage α} (h : Harmless before copy after) (hcopy : copy ∈ before)
    {earlier : List (FIFOMessage α)} (hearlier : earlier <+: after) :
    (receive (before ++ copy :: earlier)).delivered =
      (receive (before ++ earlier)).delivered :=
  (copied_receive hcopy h.1 (fun p message hp _ => h.2 p message hp)
    hearlier).delivered

/-- Once the receiver with the copy is behind, it stays behind unless a number
comes again. -/
theorem stays_behind {arrived arrived' later : List (FIFOMessage α)}
    (hnumbered : Numbered (arrived ++ later)) {sender : NodeId}
    (hlt : ((receive arrived').deliveredFrom sender).length <
      ((receive arrived).deliveredFrom sender).length) :
    (receive (arrived' ++ later)).delivered ≠
      (receive (arrived ++ later)).delivered := by
  have horder := (hnumbered.left.inOrder sender).1
  have hexpected := Reorder.expected_foldl (arrivedFrom arrived' sender) .new rfl
  rw [← stream_receive] at hexpected
  have hexpected' := horder.expected
  have hsplit : ∀ first : List (FIFOMessage α),
      (receive (first ++ later)).stream sender =
        (arrivedFrom later sender).foldl Reorder.handle
          ((receive first).stream sender) := by
    intro first
    rw [stream_receive, stream_receive, arrivedFrom, List.filter_append,
      List.map_append, List.foldl_append]
    rfl
  -- The number the second receiver expects has come already.
  have hstuck : ((receive (arrived' ++ later)).stream sender).delivered =
      ((receive arrived').stream sender).delivered := by
    rw [hsplit]
    apply Reorder.delivered_foldl_of_ne
    intro item hitem heq
    simp only [FIFOOrdering.stream] at hexpected hexpected' heq
    obtain ⟨old, hold, hseq⟩ := horder.mem_of_lt (k := item.1)
      (by omega) (by simp only [FIFOOrdering.stream]; omega)
    exact (List.pairwise_append.mp hnumbered.distinct).2.2 _
      (mem_arrivedFrom.mp hold) _ (mem_arrivedFrom.mp hitem) rfl hseq
  have hgrow := Reorder.delivered_foldl_le (arrivedFrom later sender)
    ((receive arrived).stream sender)
  rw [← hsplit] at hgrow
  intro hsame
  simp only [FIFOOrdering.stream] at hstuck hgrow
  rw [deliveredFrom, hsame, ← deliveredFrom] at hstuck
  rw [hstuck] at hgrow
  omega

private theorem Numbered.ne_expected {before : List (FIFOMessage α)}
    (h : Numbered before) {copy : FIFOMessage α} (hcopy : copy ∈ before) :
    copy.seq ≠ (receive before).expected copy.sender := by
  obtain ⟨horder, hgap⟩ := h.inOrder copy.sender
  have hitem : (copy.seq, copy.data) ∈ arrivedFrom before copy.sender :=
    mem_arrivedFrom.mpr hcopy
  rcases List.mem_append.mp (horder.arrived.symm.subset hitem) with hmem | hmem
  · exact Nat.ne_of_lt (horder.lt_expected hmem)
  · exact (Nat.ne_of_lt (hgap _ hmem)).symm

/--
An extra copy changes nothing that is delivered, at its arrival and later, if and
only if it is harmless.  Where no other number comes twice, it is enough to look
at the end.
-/
theorem copy_harmless_iff (before after : List (FIFOMessage α))
    (copy : FIFOMessage α) (hcopy : copy ∈ before) :
    ((∀ earlier, earlier <+: after →
        (receive (before ++ copy :: earlier)).delivered =
          (receive (before ++ earlier)).delivered) ↔
      Harmless before copy after) ∧
    (Numbered (before ++ after) →
      ((receive (before ++ copy :: after)).delivered =
          (receive (before ++ after)).delivered ↔
        Harmless before copy after)) := by
  refine ⟨⟨fun hsame => ?_, fun h _ => h.delivered_eq hcopy⟩,
    fun hnumbered => ⟨fun hsame => ?_,
      fun h => h.delivered_eq hcopy (List.prefix_refl after)⟩⟩
  · refine harmless_of_spares hcopy ?_ fun earlier message hearlier hcopied => ?_
    · intro heq
      have hnow := hsame [] List.nil_prefix
      rw [List.append_nil, receive_concat, delivered_handleFifo (paired_receive before),
        List.append_right_eq_self, List.map_eq_nil_iff,
        Reorder.handed_eq_nil_iff] at hnow
      exact hnow heq
    · by_contra hbeyond
      have hlt := hcopied.deliveredFrom_lt hbeyond
      have heq := hsame _ hearlier
      rw [← List.append_assoc, ← List.cons_append, ← List.append_assoc,
        receive_concat, receive_concat] at heq
      rw [deliveredFrom, heq, ← deliveredFrom] at hlt
      exact Nat.lt_irrefl _ hlt
  · refine harmless_of_spares hcopy ?_ fun earlier message hearlier hcopied => ?_
    · exact hnumbered.left.ne_expected hcopy
    · by_contra hbeyond
      obtain ⟨later, rfl⟩ := hearlier
      have hlt := hcopied.deliveredFrom_lt hbeyond
      rw [← receive_concat, ← receive_concat] at hlt
      simp only [← List.append_assoc] at hnumbered hsame hlt
      refine stays_behind hnumbered hlt ?_
      simpa using hsame

/-- Node 0's first message comes twice, and the third before the second. -/
def repeated : List (FIFOMessage String) := [⟨0, 3, "c"⟩, ⟨0, 2, "b"⟩]

theorem repeated_not_delivered :
    (receive ([⟨0, 1, "a"⟩] ++ repeated)).delivered =
        [⟨0, 1, "a"⟩, ⟨0, 2, "b"⟩, ⟨0, 3, "c"⟩] ∧
      (receive ([⟨0, 1, "a"⟩] ++ ⟨0, 1, "a"⟩ :: repeated)).delivered =
        [⟨0, 1, "a"⟩, ⟨0, 2, "b"⟩] := by
  decide +kernel

theorem repeated_in_order :
    ((∀ earlier, earlier <+: [⟨0, 2, "b"⟩] →
        (receive ([⟨0, 1, "a"⟩] ++ ⟨0, 1, "a"⟩ :: earlier)).delivered =
          (receive ([⟨0, 1, "a"⟩] ++ earlier)).delivered) ↔
      Harmless [⟨0, 1, "a"⟩] ⟨0, 1, "a"⟩ [⟨0, 2, "b"⟩]) ∧
    (Numbered ([⟨0, 1, "a"⟩] ++ [⟨0, 2, "b"⟩]) →
      ((receive ([⟨0, 1, "a"⟩] ++ ⟨0, 1, "a"⟩ :: [⟨0, 2, "b"⟩])).delivered =
          (receive ([⟨0, 1, "a"⟩] ++ [⟨0, 2, "b"⟩])).delivered ↔
        Harmless [⟨0, 1, "a"⟩] ⟨0, 1, "a"⟩ [⟨0, 2, "b"⟩])) :=
  copy_harmless_iff [⟨0, 1, "a"⟩] [⟨0, 2, "b"⟩] ⟨0, 1, "a"⟩ (by decide)

end Copies

end FIFOOrdering

end DistributedMemory.Network
