import DistributedMemory.Library.EventOrder
import DistributedMemory.Library.Run
import DistributedMemory.Network.Clock
import Mathlib.Logic.Function.Basic

/-!
# Vector clocks of any nodes

A node counts its events with `increment`, and with `update` where the event is
the reception of a vector; with `merge` it takes in a vector without an event.
Each of them holds the lock of the clock, so the threads of the nodes only
interleave between them.  A vector that one of the first two returned may be sent;
it may be received at any time after, anywhere, any number of times or never.

`events` records the calls that count an event, in the order in which they were
made, with the vector that each returned.  `merged` holds, for every node, whose
vectors it has merged since its last event, and `receipts` what each `merge` returned.
A receipt has no number of its own, so its vector can be that of the event received.
-/

namespace DistributedMemory.Network

open DistributedMemory.Library

/-- A vector on its way, and the position of the event that returned it. -/
structure SentVector where
  vector : Vector
  sending : Nat
  deriving DecidableEq

/-- What `merge` returned at a node, when `made` events had been made; `received` are
the events whose vectors the node has merged since its last event, this one too. -/
structure MergeReceipt where
  node : NodeId
  made : Nat
  received : List Nat
  vector : Vector

structure VectorSystem where
  clock : NodeId → VectorClock
  merged : NodeId → List Nat
  network : List SentVector
  events : List (Event NodeId Vector)
  receipts : List MergeReceipt

inductive VectorAction where
  | increment (n : NodeId)
  | update (n : NodeId) (message : SentVector)
  | merge (n : NodeId) (message : SentVector)
  | send (i : Nat)

namespace VectorSystem

def new (nodeIds : List NodeId) : VectorSystem :=
  ⟨fun n => .new n nodeIds, fun _ => [], [], [], []⟩

/-- An event at `n` that leaves its clock at `c`. -/
def record (s : VectorSystem) (n : NodeId) (causes : List Nat)
    (c : VectorClock) : VectorSystem :=
  { s with
    clock := Function.update s.clock n c
    merged := Function.update s.merged n []
    events := s.events ++ [⟨n, causes, c.clock⟩] }

def step (s : VectorSystem) : VectorAction → Option VectorSystem
  | .increment n =>
      (s.clock n).increment.map fun c => s.record n (s.merged n) c
  | .update n message =>
      if message ∈ s.network then
        ((s.clock n).update message.vector).map fun c =>
          s.record n (s.merged n ++ [message.sending]) c
      else none
  | .merge n message =>
      if message ∈ s.network then
        let c := (s.clock n).merge message.vector
        let received := s.merged n ++ [message.sending]
        some { s with
          clock := Function.update s.clock n c
          merged := Function.update s.merged n received
          receipts := s.receipts ++ [⟨n, s.events.length, received, c.clock⟩] }
      else none
  | .send i =>
      s.events[i]?.map fun e =>
        { s with network := s.network ++ [⟨e.stamp, i⟩] }

/-- The event at `i` came before that at `j` at the same node, or its vector was
received for the event at `j`; or a chain of such steps leads from one to the
other. -/
def HappensBefore (s : VectorSystem) : Nat → Nat → Prop :=
  Event.Before s.events

/-- The event at `i` came before the receipt at the same node, or its vector was
received there; or a chain of such steps leads from one to the other. -/
def BeforeReceipt (s : VectorSystem) (i : Nat) (r : MergeReceipt) : Prop :=
  Event.KnownAt s.events r.node r.made r.received i

structure Inv (nodeIds : List NodeId) (s : VectorSystem) : Prop where
  ranged : ∀ n, (s.clock n).Over nodeIds n
  stamped : Event.Stamped Vector.entry s.events
  known : ∀ n, Event.Tells Vector.entry s.events (s.clock n).clock.entry
    (Event.KnownTo s.events n (s.merged n))
  merged : ∀ n, ∀ i ∈ s.merged n, i < s.events.length
  sent : ∀ message ∈ s.network, ∃ e, s.events[message.sending]? = some e ∧
    e.stamp = message.vector
  vectors : ∀ e ∈ s.events, ∀ k, (e.stamp.get? k).isSome → k ∈ nodeIds
  receipts : ∀ r ∈ s.receipts, r.made ≤ s.events.length ∧
    Event.Tells Vector.entry s.events r.vector.entry fun i => s.BeforeReceipt i r

theorem inv_new (nodeIds : List NodeId) : (new nodeIds).Inv nodeIds where
  ranged n := VectorClock.over_new nodeIds n
  stamped := ⟨fun j f hj => by simp [new] at hj, fun i e hi => by simp [new] at hi⟩
  known n := by
    refine ⟨fun k e hk => by simp [new] at hk, fun p hp => ?_⟩
    simp only [new, VectorClock.entry_new] at hp
    exact absurd hp (Nat.lt_irrefl 0)
  merged n i hi := by simp [new] at hi
  sent message hmessage := by simp [new] at hmessage
  vectors e he := by simp [new] at he
  receipts r hr := by simp [new] at hr

section Step

variable {nodeIds : List NodeId} {s : VectorSystem}

theorem Inv.record (h : s.Inv nodeIds) {n : NodeId} {causes : List Nat}
    {base c : VectorClock} (hover : base.Over nodeIds n)
    (hcauses : ∀ i ∈ causes, i < s.events.length)
    (htells : Event.Tells Vector.entry s.events base.clock.entry
      (Event.KnownTo s.events n causes))
    (hc : base.increment = some c) : (s.record n causes c).Inv nodeIds := by
  obtain ⟨-, hover', hentry⟩ := hover.increment hc
  have hlength : (s.record n causes c).events.length = s.events.length + 1 :=
    List.length_append
  refine ⟨fun m => ?_, ?_, fun m => ?_, fun m i hi => ?_,
    fun message hmessage => ?_, fun e he k hk => ?_, fun r hr => ?_⟩
  · by_cases hm : m = n
    · subst hm
      simpa [VectorSystem.record] using hover'
    · simpa [VectorSystem.record, hm] using h.ranged m
  · exact h.stamped.append hentry hcauses htells
  · by_cases hm : m = n
    · subst hm
      simpa [VectorSystem.record] using
        h.stamped.tells_ticked hentry hcauses htells
    · simpa [VectorSystem.record, hm] using
        h.stamped.tells_other hentry htells (h.known m) (h.merged m)
          (Ne.symm hm)
  · by_cases hm : m = n
    · subst hm
      simp [VectorSystem.record] at hi
    · simp only [VectorSystem.record, Function.update_of_ne hm] at hi
      rw [hlength]
      exact Nat.lt_succ_of_lt (h.merged m i hi)
  · obtain ⟨e, he, hstamp⟩ := h.sent message hmessage
    refine ⟨e, ?_, hstamp⟩
    simp only [VectorSystem.record]
    rw [List.getElem?_append_left (List.getElem?_eq_some_iff.mp he).1]
    exact he
  · rcases List.mem_append.mp he with he | he
    · exact h.vectors e he k hk
    · obtain rfl := List.mem_singleton.mp he
      exact (hover'.entries k).mp hk
  · obtain ⟨hmade, hreceipt⟩ := h.receipts r hr
    refine ⟨by rw [hlength]; exact Nat.le_succ_of_le hmade, ?_⟩
    exact h.stamped.tells_earlier hentry htells hmade hreceipt

theorem Inv.tells_merge (h : s.Inv nodeIds) (n : NodeId) {message : SentVector}
    (hmessage : message ∈ s.network) :
    Event.Tells Vector.entry s.events
        ((s.clock n).merge message.vector).clock.entry
        (Event.KnownTo s.events n (s.merged n ++ [message.sending])) ∧
      ∀ i ∈ s.merged n ++ [message.sending], i < s.events.length := by
  obtain ⟨e, he, hstamp⟩ := h.sent message hmessage
  have hvector : ∀ k, (message.vector.get? k).isSome → k ∈ nodeIds := by
    rw [← hstamp]
    exact h.vectors e (List.mem_of_getElem? he)
  constructor
  · have hboth := (h.known n).max (h.stamped.tells message.sending e he)
    refine hboth.congr (fun k => ?_) fun k _ => ?_
    · rw [(h.ranged n).entry_merge hvector, hstamp]
    · rw [Event.knownTo_append_causes]
      simp
  · intro i hi
    rcases List.mem_append.mp hi with hi | hi
    · exact h.merged n i hi
    · obtain rfl := List.mem_singleton.mp hi
      exact (List.getElem?_eq_some_iff.mp he).1

theorem Inv.step (h : s.Inv nodeIds) {a : VectorAction} {s' : VectorSystem}
    (hstep : s.step a = some s') : s'.Inv nodeIds := by
  cases a with
  | increment n =>
      obtain ⟨c, hc, rfl⟩ := Option.map_eq_some_iff.mp hstep
      exact h.record (h.ranged n) (h.merged n) (h.known n) hc
  | update n message =>
      simp only [VectorSystem.step] at hstep
      split at hstep
      · next hmessage =>
        obtain ⟨c, hc, rfl⟩ := Option.map_eq_some_iff.mp hstep
        obtain ⟨htells, hcauses⟩ := h.tells_merge n hmessage
        exact h.record ((h.ranged n).merge _) hcauses htells hc
      · cases hstep
  | merge n message =>
      simp only [VectorSystem.step] at hstep
      split at hstep
      · next hmessage =>
        cases hstep
        obtain ⟨htells, hcauses⟩ := h.tells_merge n hmessage
        refine ⟨fun m => ?_, h.stamped, fun m => ?_, fun m => ?_, h.sent,
          h.vectors, fun r hr => ?_⟩
        rotate_right
        · rcases List.mem_append.mp hr with hr | hr
          · exact h.receipts r hr
          · obtain rfl := List.mem_singleton.mp hr
            refine ⟨Nat.le_refl _, htells.congr (fun _ => rfl) fun k _ => ?_⟩
            exact Event.knownAt_length hcauses
        all_goals by_cases hm : m = n
        · subst hm
          simpa using (h.ranged m).merge message.vector
        · simpa [hm] using h.ranged m
        · subst hm
          simpa using htells
        · simpa [hm] using h.known m
        · subst hm
          simpa using hcauses
        · simpa [hm] using h.merged m
      · cases hstep
  | send i =>
      obtain ⟨e, he, rfl⟩ := Option.map_eq_some_iff.mp hstep
      refine ⟨h.ranged, h.stamped, h.known, h.merged, fun message hmessage => ?_,
        h.vectors, h.receipts⟩
      rcases List.mem_append.mp hmessage with hmessage | hmessage
      · exact h.sent message hmessage
      · obtain rfl := List.mem_singleton.mp hmessage
        exact ⟨e, he, rfl⟩

end Step

/--
`happens_before` answers `True` for the vectors of two events exactly when the
first event happened before the second one; no entry of the first vector exceeds
the second vector exactly when the first event is the second one or happened
before it.

No entry of the vector of an event exceeds what a `merge` returned exactly when the
event happened before the receipt; `happens_before` answers `True` exactly when besides
the two vectors differ.
-/
theorem run_vectorCondition (nodeIds : List NodeId)
    (actions : List VectorAction) (s : VectorSystem)
    (hrun : run step (new nodeIds) actions = some s) (i : Nat)
    (e : Event NodeId Vector) (hi : s.events[i]? = some e) :
    (∀ (j : Nat) (f : Event NodeId Vector), s.events[j]? = some f →
      (VectorClock.happensBefore e.stamp f.stamp = true ↔ s.HappensBefore i j) ∧
        (e.stamp.LE f.stamp ↔ i = j ∨ s.HappensBefore i j)) ∧
    ∀ r ∈ s.receipts,
      (e.stamp.LE r.vector ↔ s.BeforeReceipt i r) ∧
        (VectorClock.happensBefore e.stamp r.vector = true ↔
          s.BeforeReceipt i r ∧ ∃ k, e.stamp.entry k ≠ r.vector.entry k) := by
  have h : s.Inv nodeIds :=
    run_preserves (fun _ _ _ h hstep => h.step hstep) (inv_new nodeIds) hrun
  refine ⟨fun j f hj => ⟨?_, ?_⟩, fun r hr => ?_⟩
  · rw [VectorClock.happensBefore_iff]
    exact (h.stamped.before_iff hi hj).symm
  · rw [HappensBefore, Event.Before, eq_comm,
      ← Relation.reflTransGen_iff_eq_or_transGen]
    exact (h.stamped.past_iff hi hj).symm
  · have hle : e.stamp.LE r.vector ↔ s.BeforeReceipt i r :=
      (h.stamped.le_iff (h.receipts r hr).2
        (fun _ _ hpast => Event.past_knownAt hpast) hi).symm
    refine ⟨hle, ?_⟩
    rw [VectorClock.happensBefore_iff, hle]
    refine and_congr_right fun hbefore => exists_congr fun k => ?_
    exact (Nat.lt_iff_le_and_ne.trans (and_iff_right (hle.mpr hbefore k)))

/-- Node 2 merges what node 1 made of a vector of node 0, and then has an event. -/
def mergedOn : List VectorAction :=
  [.increment 0, .send 0, .update 1 ⟨⟨[(0, 1), (1, 0), (2, 0)], by decide⟩, 0⟩,
    .send 1, .merge 2 ⟨⟨[(0, 1), (1, 1), (2, 0)], by decide⟩, 1⟩, .increment 2,
    .increment 0]

/-- The receipt at node 2 has the vector of the event of node 1 that it received. -/
theorem mergedOn_vectorCondition :
    ∃ s, run step (new [0, 1, 2]) mergedOn = some s ∧ s.HappensBefore 0 2 ∧
      ¬ s.HappensBefore 2 3 ∧ ¬ s.HappensBefore 3 2 ∧
      ∃ e r, s.events[1]? = some e ∧ r ∈ s.receipts ∧ s.BeforeReceipt 1 r ∧
        VectorClock.happensBefore e.stamp r.vector = false := by
  obtain ⟨s, e, a, f, g, r, hs, he, ha, hf, hg, hr, hef, hfg, hgf, har⟩ :
      ∃ s e a f g r, run step (new [0, 1, 2]) mergedOn = some s ∧
        s.events[0]? = some e ∧ s.events[1]? = some a ∧ s.events[2]? = some f ∧
        s.events[3]? = some g ∧ s.receipts = [r] ∧
        VectorClock.happensBefore e.stamp f.stamp = true ∧
        VectorClock.happensBefore f.stamp g.stamp = false ∧
        VectorClock.happensBefore g.stamp f.stamp = false ∧
        a.stamp.items = r.vector.items :=
    ⟨_, _, _, _, _, _, rfl, rfl, rfl, rfl, rfl, rfl, by decide, by decide, by decide,
      rfl⟩
  have hcondition := run_vectorCondition [0, 1, 2] mergedOn s hs
  have hmem : r ∈ s.receipts := by rw [hr]; exact List.mem_singleton_self r
  have hsame : a.stamp = r.vector := by
    cases hstamp : a.stamp
    cases hvector : r.vector
    simp_all
  obtain ⟨hle, hiff⟩ := (hcondition 1 a ha).2 r hmem
  refine ⟨s, hs, ((hcondition 0 e he).1 2 f hf).1.mp hef, fun hbefore => ?_,
    fun hbefore => ?_, a, r, ha, hmem, hle.mp fun k => ?_, ?_⟩
  · rw [((hcondition 2 f hf).1 3 g hg).1.mpr hbefore] at hfg
    cases hfg
  · rw [((hcondition 3 g hg).1 2 f hf).1.mpr hbefore] at hgf
    cases hgf
  · exact Nat.le_of_eq (by rw [hsame])
  · rw [Bool.eq_false_iff, ne_eq, hiff, hsame]
    rintro ⟨-, k, hne⟩
    exact hne rfl

end VectorSystem

end DistributedMemory.Network
