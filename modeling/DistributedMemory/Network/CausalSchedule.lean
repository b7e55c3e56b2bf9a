import DistributedMemory.Network.CausalOrdering
import Mathlib.Logic.Relation

/-!
# Whole arrivals

A schedule of sends and arrivals, in which `_handle_causal` runs to its end before
the next event.  `handle` is what it does in one piece: the test, the delivery and
the flush loop.  Every round of the loop that delivers something leaves fewer
messages in the buffer, so the loop ends.

Each event of a schedule is a run of the single steps of the handler thread, and
what holds in every state of those runs holds between the events of a schedule.
-/

namespace DistributedMemory.Network

open DistributedMemory.Library

universe u

variable {α : Type u}

namespace CausalOrdering

def deliver (o : CausalOrdering α) (m : CausalMsg α) : CausalOrdering α :=
  { o with vc := o.vc.merge m.vector, delivered := o.delivered ++ [m] }

/-- The `for` loop of `_flush_buffer` over the messages that are left: the node,
`changed` and `remaining` behind it. -/
def flushPass (o : CausalOrdering α) (changed : Bool)
    (remaining : List (CausalMsg α)) :
    List (CausalMsg α) → CausalOrdering α × Bool × List (CausalMsg α)
  | [] => (o, changed, remaining)
  | m :: work =>
      if o.canDeliver m then flushPass (o.deliver m) true remaining work
      else flushPass o changed (remaining ++ [m]) work

/-- The `while` loop of `_flush_buffer`. -/
def flushBuffer : Nat → CausalOrdering α → CausalOrdering α
  | 0, o => o
  | fuel + 1, o =>
      let (o', changed, remaining) := flushPass o false [] o.buffer
      if changed then flushBuffer fuel { o' with buffer := remaining }
      else { o' with buffer := remaining }

/-- `_handle_causal` from its first to its last step. -/
def handle (o : CausalOrdering α) (m : CausalMsg α) : CausalOrdering α :=
  if o.canDeliver m then flushBuffer (o.buffer.length + 1) (o.deliver m)
  else { o with buffer := o.buffer ++ [m] }

@[simp] theorem deliver_buffer (o : CausalOrdering α) (m : CausalMsg α) :
    (o.deliver m).buffer = o.buffer := rfl

@[simp] theorem deliver_handler (o : CausalOrdering α) (m : CausalMsg α) :
    (o.deliver m).handler = o.handler := rfl

@[simp] theorem deliver_vc (o : CausalOrdering α) (m : CausalMsg α) :
    (o.deliver m).vc = o.vc.merge m.vector := rfl

@[simp] theorem deliver_delivered (o : CausalOrdering α) (m : CausalMsg α) :
    (o.deliver m).delivered = o.delivered ++ [m] := rfl

/-! ## The loop ends -/

theorem length_flushPass (o : CausalOrdering α) (changed : Bool)
    (remaining work : List (CausalMsg α)) :
    let after := flushPass o changed remaining work
    after.2.2.length ≤ remaining.length + work.length ∧
      (changed = false → after.2.1 = true →
        after.2.2.length < remaining.length + work.length) := by
  dsimp only
  induction work generalizing o changed remaining with
  | nil =>
      rw [flushPass]
      refine ⟨Nat.le_refl _, fun hfalse htrue => ?_⟩
      rw [hfalse] at htrue
      cases htrue
  | cons m work ih =>
      rw [flushPass, List.length_cons]
      split
      · have hle := (ih (o.deliver m) true remaining).1
        exact ⟨by omega, fun _ _ => by omega⟩
      · obtain ⟨hle, hlt⟩ := ih o changed (remaining ++ [m])
        rw [List.length_append, List.length_singleton] at hle hlt
        refine ⟨by omega, fun hfalse htrue => ?_⟩
        have := hlt hfalse htrue
        omega

private theorem flushBuffer_succ {fuel : Nat} {o : CausalOrdering α}
    (h : o.buffer.length < fuel) : flushBuffer (fuel + 1) o = flushBuffer fuel o := by
  induction fuel generalizing o with
  | zero => exact absurd h (Nat.not_lt_zero _)
  | succ fuel ih =>
      rw [flushBuffer]
      conv_rhs => rw [flushBuffer]
      have hlength := (length_flushPass o false [] o.buffer).2 rfl
      generalize flushPass o false [] o.buffer = after at hlength
      obtain ⟨o', changed, remaining⟩ := after
      cases changed with
      | false => rfl
      | true =>
          simp only [List.length_nil, Nat.zero_add, forall_const] at hlength
          exact ih (by dsimp only; omega)

theorem flushBuffer_of_le {fuel fuel' : Nat} {o : CausalOrdering α}
    (h : o.buffer.length < fuel) (hle : fuel ≤ fuel') :
    flushBuffer fuel' o = flushBuffer fuel o := by
  induction hle with
  | refl => rfl
  | step hle ih =>
      rw [flushBuffer_succ (Nat.lt_of_lt_of_le h hle), ih]

/-! ## The steps of the handler thread -/

def Advances : CausalOrdering α → CausalOrdering α → Prop :=
  Relation.ReflTransGen fun o o' => o.advance = some o'

private theorem advances_deliver {o : CausalOrdering α} {m : CausalMsg α} {changed : Bool}
    {work remaining : List (CausalMsg α)} (hcan : o.canDeliver m) :
    Advances { o with handler := .flush ⟨changed, m :: work, remaining⟩ }
      { o.deliver m with handler := .flush ⟨true, work, remaining⟩ } := by
  have hcan' : canDeliver { o with
      handler := .flush ⟨changed, m :: work, remaining⟩ } m = true := hcan
  have htest : advance { o with
      handler := .flush ⟨changed, m :: work, remaining⟩ } =
        some { o with handler := .merge m (some ⟨changed, work, remaining⟩) } := by
    rw [advance]
    simp only [hcan', if_true]
  refine .head htest (.head rfl (.head rfl ?_))
  exact .refl

private theorem advances_keep {o : CausalOrdering α} {m : CausalMsg α} {changed : Bool}
    {work remaining : List (CausalMsg α)} (hcan : ¬ o.canDeliver m) :
    Advances { o with handler := .flush ⟨changed, m :: work, remaining⟩ }
      { o with handler := .flush ⟨changed, work, remaining ++ [m]⟩ } := by
  have hcan' : canDeliver { o with
      handler := .flush ⟨changed, m :: work, remaining⟩ } m = false := by
    rw [Bool.not_eq_true] at hcan
    exact hcan
  refine .single ?_
  rw [advance]
  simp only [hcan']
  rfl

private theorem advances_flushPass (o : CausalOrdering α) (changed : Bool)
    (remaining work : List (CausalMsg α)) :
    let after := flushPass o changed remaining work
    Advances { o with handler := .flush ⟨changed, work, remaining⟩ }
      { after.1 with handler := .flush ⟨after.2.1, [], after.2.2⟩ } := by
  dsimp only
  induction work generalizing o changed remaining with
  | nil => exact .refl
  | cons m work ih =>
      rw [flushPass]
      split
      · next hcan => exact (advances_deliver hcan).trans (ih _ _ _)
      · next hcan => exact (advances_keep hcan).trans (ih _ _ _)

theorem flushPass_handler (o : CausalOrdering α) (changed : Bool)
    (remaining work : List (CausalMsg α)) :
    (flushPass o changed remaining work).1.handler = o.handler := by
  induction work generalizing o changed remaining with
  | nil => rfl
  | cons m work ih =>
      rw [flushPass]
      split <;> exact ih _ _ _

private theorem flushBuffer_handler (fuel : Nat) (o : CausalOrdering α) :
    (flushBuffer fuel o).handler = o.handler := by
  induction fuel generalizing o with
  | zero => rfl
  | succ fuel ih =>
      have hpass := flushPass_handler o false [] o.buffer
      rw [flushBuffer]
      dsimp only
      split
      · rw [ih]
        exact hpass
      · exact hpass

private theorem advances_flushBuffer {fuel : Nat} {o : CausalOrdering α}
    (hidle : o.handler = .idle) (h : o.buffer.length < fuel) :
    Advances { o with handler := .flush ⟨false, o.buffer, []⟩ }
      (flushBuffer fuel o) := by
  induction fuel generalizing o with
  | zero => exact absurd h (Nat.not_lt_zero _)
  | succ fuel ih =>
      have hpass := advances_flushPass o false [] o.buffer
      have hlength := (length_flushPass o false [] o.buffer).2 rfl
      have hhandler := flushPass_handler o false [] o.buffer
      rw [flushBuffer]
      generalize flushPass o false [] o.buffer = after at hpass hlength hhandler
      obtain ⟨o', changed, remaining⟩ := after
      dsimp only at hpass hlength hhandler ⊢
      rw [hidle] at hhandler
      refine hpass.trans (.head rfl ?_)
      cases changed with
      | false =>
          rw [if_neg (by decide), if_neg (by decide), ← hhandler]
      | true =>
          simp only [List.length_nil, Nat.zero_add, forall_const] at hlength
          exact ih (o := { o' with buffer := remaining }) hhandler
            (by dsimp only; omega)

private theorem advances_handle {o : CausalOrdering α} (hidle : o.handler = .idle)
    (m : CausalMsg α) :
    Advances (o.handleCausal m) (o.handle m) ∧ (o.handle m).handler = .idle := by
  rw [handleCausal, handle]
  split
  · have hflush := advances_flushBuffer (o := o.deliver m) hidle
      (Nat.lt_succ_self o.buffer.length)
    refine ⟨.head rfl (.head rfl hflush), ?_⟩
    rw [flushBuffer_handler]
    exact hidle
  · exact ⟨.refl, hidle⟩

end CausalOrdering

namespace CausalSystem

/-- One event of a schedule: a send, or a whole arrival. -/
def wholeStep (peers : List NodeId) (s : CausalSystem α) :
    CausalAction α → Option (CausalSystem α)
  | .send n target data => s.step peers (.send n target data)
  | .broadcast n data => s.step peers (.broadcast n data)
  | .arrive packet =>
      match s.network[packet]? with
      | none => none
      | some (n, m) => some (s.setNode n ((s.node n).handle m))
  | .advance _ => none

def Idle (s : CausalSystem α) : Prop := ∀ n, (s.node n).handler = .idle

theorem idle_new (nodeIds : List NodeId) : (new nodeIds : CausalSystem α).Idle :=
  fun _ => rfl

private theorem run_advances (peers : List NodeId) (s : CausalSystem α) (n : NodeId)
    {o o' : CausalOrdering α} (h : o.Advances o') :
    ∃ actions, run (step peers) (s.setNode n o) actions = some (s.setNode n o') := by
  induction h using Relation.ReflTransGen.head_induction_on with
  | refl => exact ⟨[], rfl⟩
  | @head o₁ o₂ hstep _ ih =>
      obtain ⟨actions, hrun⟩ := ih
      refine ⟨.advance n :: actions, ?_⟩
      have hadvance : (s.setNode n o₁).step peers (.advance n) =
          some (s.setNode n o₂) := by
        simp [step, setNode, hstep]
      rw [run_cons_of_step hadvance, hrun]

theorem Idle.emit {s s' : CausalSystem α} (h : s.Idle) {n : NodeId}
    {targets : List NodeId} {data : α} (hemit : s.emit n targets data = some s') :
    s'.Idle := by
  obtain ⟨vc, -, rfl⟩ := Option.map_eq_some_iff.mp hemit
  intro q
  by_cases hq : q = n
  · subst hq
    simpa using h q
  · simpa [hq] using h q

/-- An event is a run of single steps. -/
theorem run_of_wholeStep {peers : List NodeId} {s s' : CausalSystem α} (h : s.Idle)
    {a : CausalAction α} (hstep : s.wholeStep peers a = some s') :
    (∃ actions, run (step peers) s actions = some s') ∧ s'.Idle := by
  cases a with
  | send n target data =>
      have hsend : s.step peers (.send n target data) = some s' := hstep
      exact ⟨⟨[.send n target data], by rw [run_cons_of_step hsend, run_nil]⟩,
        h.emit hsend⟩
  | broadcast n data =>
      have hbroadcast : s.step peers (.broadcast n data) = some s' := hstep
      exact ⟨⟨[.broadcast n data], by rw [run_cons_of_step hbroadcast, run_nil]⟩,
        h.emit hbroadcast⟩
  | advance n => cases hstep
  | arrive packet =>
      simp only [wholeStep] at hstep
      split at hstep
      · cases hstep
      · next n m hpacket =>
        cases hstep
        obtain ⟨hadvances, hidle⟩ :=
          CausalOrdering.advances_handle (h n) m
        obtain ⟨actions, hrun⟩ := run_advances peers s n hadvances
        have harrive : s.step peers (.arrive packet) =
            some (s.setNode n ((s.node n).handleCausal m)) := by
          simp [step, hpacket, h n]
        refine ⟨⟨.arrive packet :: actions, ?_⟩, fun q => ?_⟩
        · rw [run_cons_of_step harrive, hrun]
        · by_cases hq : q = n
          · subst hq
            simpa [setNode] using hidle
          · simpa [setNode, hq] using h q

/-- A schedule is a run of single steps. -/
theorem run_of_schedule {peers : List NodeId} {s s' : CausalSystem α} (h : s.Idle)
    {events : List (CausalAction α)}
    (hrun : run (wholeStep peers) s events = some s') :
    (∃ actions, run (step peers) s actions = some s') ∧ s'.Idle := by
  induction events generalizing s with
  | nil =>
      cases hrun
      exact ⟨⟨[], rfl⟩, h⟩
  | cons a events ih =>
      obtain ⟨s₁, hstep, hrest⟩ := run_cons.mp hrun
      obtain ⟨⟨first, hfirst⟩, hidle⟩ := run_of_wholeStep h hstep
      obtain ⟨⟨later, hlater⟩, hidle'⟩ := ih hidle hrest
      exact ⟨⟨first ++ later, run_append.mpr ⟨s₁, hfirst, hlater⟩⟩, hidle'⟩

theorem Inv.schedule {nodeIds peers : List NodeId} {s s' : CausalSystem α}
    (h : s.Inv nodeIds) (hidle : s.Idle) {events : List (CausalAction α)}
    (hrun : run (wholeStep peers) s events = some s') : s'.Inv nodeIds := by
  obtain ⟨⟨actions, hactions⟩, -⟩ := run_of_schedule hidle hrun
  exact run_preserves (fun _ _ _ h hstep => h.step hstep) h hactions

end CausalSystem

end DistributedMemory.Network
