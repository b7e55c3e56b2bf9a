import DistributedMemory.Library.Run
import DistributedMemory.Network.Clock
import Mathlib.Logic.Relation

/-!
# The Lamport clock of the nodes

Every message carries the value that the clock of its sender took when the
message was made, one value for all copies of a broadcast.  `_dispatch` moves the
clock of a running node past that value before the handler sees the message.
Each clock operation holds the lock of the clock, so the threads of a node only
interleave between them; a message may arrive at any time after the clock
operation of its sender, any number of times or never.

`events` records the clock operations in the order in which they were made, and a
message the position of the operation that it was stamped by.
-/

namespace DistributedMemory.Network

open DistributedMemory.Library

/-- One copy of a message, on its way to `receiver`. -/
structure Stamped where
  receiver : NodeId
  senderId : NodeId
  timestamp : Nat
  sending : Nat
  deriving DecidableEq

inductive ClockUse where
  | tick
  | sending
  | reception (sending : Nat)
  deriving DecidableEq

structure ClockEvent where
  node : NodeId
  use : ClockUse
  value : Nat
  deriving DecidableEq

structure ClockSystem where
  clock : NodeId → LamportClock
  running : NodeId → Bool
  network : List Stamped
  events : List ClockEvent

inductive ClockAction where
  | start (n : NodeId)
  | stop (n : NodeId)
  | tick (n : NodeId)
  | send (n targetId : NodeId)
  | broadcast (n : NodeId)
  | dispatch (message : Stamped)

namespace ClockSystem

def new : ClockSystem := ⟨fun _ => .new, fun _ => false, [], []⟩

/-- An operation that leaves the clock of `n` at `c`. -/
def record (s : ClockSystem) (n : NodeId) (c : LamportClock) (use : ClockUse) :
    ClockSystem :=
  { s with
    clock := Function.update s.clock n c
    events := s.events ++ [⟨n, use, c.time⟩] }

/-- `clock.increment()` for a message to all `targets`. -/
def post (s : ClockSystem) (n : NodeId) (targets : List NodeId) : ClockSystem :=
  let c := (s.clock n).increment
  { s.record n c .sending with
    network := s.network ++
      targets.map fun target => ⟨target, n, c.time, s.events.length⟩ }

/-- `nodes` are the keys of `NODES`. -/
def step (nodes : List NodeId) (s : ClockSystem) :
    ClockAction → Option ClockSystem
  | .start n => some { s with running := Function.update s.running n true }
  | .stop n => some { s with running := Function.update s.running n false }
  | .tick n => some (s.record n (s.clock n).increment .tick)
  | .send n targetId => some (s.post n [targetId])
  | .broadcast n => some (s.post n (nodes.filter (· ≠ n)))
  | .dispatch message =>
      if message ∈ s.network then
        let n := message.receiver
        if s.running n then
          some (s.record n ((s.clock n).update message.timestamp)
            (.reception message.sending))
        else some s
      else none

/-- The operation at `i` came before that at `j` on the same node, or stamped the
message that was received at `j`. -/
def Direct (s : ClockSystem) (i j : Nat) : Prop :=
  ∃ e f, s.events[i]? = some e ∧ s.events[j]? = some f ∧
    (e.node = f.node ∧ i < j ∨ f.use = .reception i)

def HappensBefore (s : ClockSystem) : Nat → Nat → Prop :=
  Relation.TransGen s.Direct

structure Inv (s : ClockSystem) : Prop where
  current : ∀ e ∈ s.events, e.value ≤ (s.clock e.node).time
  increasing : s.events.Pairwise fun e f => e.node = f.node → e.value < f.value
  stamped : ∀ message ∈ s.network, ∃ e, s.events[message.sending]? = some e ∧
    e.use = .sending ∧ e.value = message.timestamp
  received : ∀ f ∈ s.events, ∀ i, f.use = .reception i →
    ∃ e, s.events[i]? = some e ∧ e.use = .sending ∧ e.value < f.value

theorem inv_new : new.Inv where
  current := by simp [new]
  increasing := .nil
  stamped := by simp [new]
  received := by simp [new]

theorem Inv.record {s : ClockSystem} (h : s.Inv) {n : NodeId}
    {c : LamportClock} {use : ClockUse} (hclock : (s.clock n).time < c.time)
    (hpast : ∀ i, use = .reception i →
      ∃ e, s.events[i]? = some e ∧ e.use = .sending ∧ e.value < c.time) :
    (s.record n c use).Inv := by
  have hgetElem : ∀ {i : Nat} {e : ClockEvent}, s.events[i]? = some e →
      (s.record n c use).events[i]? = some e := fun hi =>
    List.getElem?_append_left (List.getElem?_eq_some_iff.mp hi).1 ▸ hi
  refine ⟨fun e he => ?_, ?_, fun message hmessage => ?_, fun f hf i hi => ?_⟩
  · rcases List.mem_append.mp he with he | he
    · have hle := h.current e he
      simp only [ClockSystem.record, Function.update_apply]
      split
      · next heq =>
        rw [heq] at hle
        omega
      · exact hle
    · obtain rfl := List.mem_singleton.mp he
      simp [ClockSystem.record]
  · refine List.pairwise_append.mpr
      ⟨h.increasing, List.pairwise_singleton _ _, fun e he f hf heq => ?_⟩
    obtain rfl := List.mem_singleton.mp hf
    have hle := h.current e he
    rw [heq] at hle
    exact Nat.lt_of_le_of_lt hle hclock
  · obtain ⟨e, hi, he⟩ := h.stamped message hmessage
    exact ⟨e, hgetElem hi, he⟩
  · rcases List.mem_append.mp hf with hf | hf
    · obtain ⟨e, he, hlt⟩ := h.received f hf i hi
      exact ⟨e, hgetElem he, hlt⟩
    · obtain rfl := List.mem_singleton.mp hf
      obtain ⟨e, he, hlt⟩ := hpast i hi
      exact ⟨e, hgetElem he, hlt⟩

theorem Inv.post {s : ClockSystem} (h : s.Inv) (n : NodeId)
    (targets : List NodeId) : (s.post n targets).Inv := by
  have hrecord : (s.record n (s.clock n).increment .sending).Inv :=
    h.record (Nat.lt_succ_self _) (by simp)
  refine ⟨hrecord.current, hrecord.increasing, fun message hmessage => ?_,
    hrecord.received⟩
  rcases List.mem_append.mp hmessage with hmessage | hmessage
  · exact hrecord.stamped message hmessage
  · obtain ⟨target, -, rfl⟩ := List.mem_map.mp hmessage
    refine ⟨⟨n, .sending, (s.clock n).increment.time⟩, ?_, rfl, rfl⟩
    exact List.getElem?_concat_length

theorem Inv.step {nodes : List NodeId} {s s' : ClockSystem} {a : ClockAction}
    (h : s.Inv) (hstep : s.step nodes a = some s') : s'.Inv := by
  cases a with
  | start n =>
      cases hstep
      exact ⟨h.current, h.increasing, h.stamped, h.received⟩
  | stop n =>
      cases hstep
      exact ⟨h.current, h.increasing, h.stamped, h.received⟩
  | tick n =>
      cases hstep
      exact h.record (Nat.lt_succ_self _) (by simp)
  | send n targetId =>
      cases hstep
      exact h.post n [targetId]
  | broadcast n =>
      cases hstep
      exact h.post n (nodes.filter (· ≠ n))
  | dispatch message =>
      simp only [ClockSystem.step] at hstep
      split at hstep
      · next hmessage =>
        split at hstep
        · cases hstep
          apply h.record
          · rw [LamportClock.update_time]
            omega
          · intro i hi
            obtain ⟨e, he, huse, hvalue⟩ := h.stamped message hmessage
            cases hi
            refine ⟨e, he, huse, ?_⟩
            rw [LamportClock.update_time]
            omega
        · cases hstep
          exact h
      · cases hstep

theorem Inv.lt_of_direct {s : ClockSystem} (h : s.Inv) {i j : Nat}
    (hij : s.Direct i j) : ∃ e f, s.events[i]? = some e ∧
      s.events[j]? = some f ∧ e.value < f.value := by
  obtain ⟨e, f, he, hf, ⟨hnode, hlt⟩ | huse⟩ := hij
  · refine ⟨e, f, he, hf, ?_⟩
    obtain ⟨hi, rfl⟩ := List.getElem?_eq_some_iff.mp he
    obtain ⟨hj, rfl⟩ := List.getElem?_eq_some_iff.mp hf
    exact List.pairwise_iff_getElem.mp h.increasing i j hi hj hlt hnode
  · obtain ⟨e', he', -, hlt⟩ := h.received f (List.mem_of_getElem? hf) i huse
    exact ⟨e', f, he', hf, hlt⟩

/--
Of two clock operations, one of which happened before the other, the earlier one
returned the smaller value.
-/
theorem run_clockCondition (nodes : List NodeId) (actions : List ClockAction)
    (s : ClockSystem) (hrun : run (step nodes) new actions = some s) (i j : Nat)
    (hij : s.HappensBefore i j) : ∃ e f, s.events[i]? = some e ∧
      s.events[j]? = some f ∧ e.value < f.value := by
  have h : s.Inv :=
    run_preserves (fun _ _ _ h hstep => h.step hstep) inv_new hrun
  induction hij with
  | single hdirect => exact h.lt_of_direct hdirect
  | tail _ hdirect ih =>
      obtain ⟨e, f, he, hf, hlt⟩ := ih
      obtain ⟨f', g, hf', hg, hlt'⟩ := h.lt_of_direct hdirect
      rw [hf] at hf'
      cases hf'
      exact ⟨e, g, he, hg, Nat.lt_trans hlt hlt'⟩

/-- Node 0 sends to node 1, which passes it on to node 2; node 1 receives the
message a second time. -/
def passedOn : List ClockAction :=
  [.start 1, .start 2, .tick 0, .send 0 1, .dispatch ⟨1, 0, 2, 1⟩, .broadcast 1,
    .dispatch ⟨1, 0, 2, 1⟩, .dispatch ⟨2, 1, 4, 3⟩]

theorem passedOn_clockCondition :
    ∃ s, run (step [0, 1, 2]) new passedOn = some s ∧
      ∃ e f, s.events[0]? = some e ∧ s.events[5]? = some f ∧
        e.value < f.value := by
  have hend : (run (step [0, 1, 2]) new passedOn).map (fun s =>
      s.events) = some [⟨0, .tick, 1⟩, ⟨0, .sending, 2⟩, ⟨1, .reception 1, 3⟩,
        ⟨1, .sending, 4⟩, ⟨1, .reception 1, 5⟩, ⟨2, .reception 3, 5⟩] := by
    decide +kernel
  obtain ⟨s, hs, hevents⟩ := Option.map_eq_some_iff.mp hend
  refine ⟨s, hs, run_clockCondition [0, 1, 2] passedOn s hs 0 5 ?_⟩
  have h₀₁ : s.Direct 0 1 := by simp [Direct, hevents]
  have h₁₂ : s.Direct 1 2 := by simp [Direct, hevents]
  have h₂₃ : s.Direct 2 3 := by simp [Direct, hevents]
  have h₃₅ : s.Direct 3 5 := by simp [Direct, hevents]
  exact .tail (.tail (.tail (.single h₀₁) h₁₂) h₂₃) h₃₅

end ClockSystem

end DistributedMemory.Network
