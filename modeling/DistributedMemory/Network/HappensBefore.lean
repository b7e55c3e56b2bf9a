import DistributedMemory.Network.CausalOrdering
import Mathlib.Logic.Relation

/-!
# Vector clocks characterise causality

`happens_before` on the vectors of two messages says whether the second sender
knew the first message when it took its vector: because it had sent it, or
because it had delivered it.  `_deliver` begins with the merge of the vector, and
that is the moment from which a message counts as delivered here; the callback
comes later and reads nothing of the clock.

Messages are named by their sender and their number among the messages that it
sent.
-/

namespace DistributedMemory.Network

open DistributedMemory.Library

universe u

variable {α : Type u}

namespace CausalAction

def emitter : CausalAction α → Option NodeId
  | .send n _ _ => some n
  | .broadcast n _ => some n
  | .arrive _ => none
  | .advance _ => none

end CausalAction

namespace CausalSystem

/-- When node `n` took the vector of its message number `j`, it had delivered
`m`. -/
def DeliveredBefore (nodeIds peers : List NodeId)
    (actions : List (CausalAction α)) (m : CausalMsg α) (n : NodeId)
    (j : Nat) : Prop :=
  ∃ before a after s, actions = before ++ a :: after ∧
    run (step peers) (new nodeIds) before = some s ∧ a.emitter = some n ∧
    (s.sent n).length = j ∧ m ∈ (s.node n).accepted

/-- The second message was sent by a node that had sent or delivered the first
one. -/
def Informs (nodeIds peers : List NodeId) (actions : List (CausalAction α))
    (s : CausalSystem α) (a b : NodeId × Nat) : Prop :=
  ∃ x y, (s.sent a.1)[a.2]? = some x ∧ (s.sent b.1)[b.2]? = some y ∧
    (a.1 = b.1 ∧ a.2 < b.2 ∨
      DeliveredBefore nodeIds peers actions x.msg b.1 b.2)

/-- No chain of informed messages leads from one to the other. -/
def Concurrent (nodeIds peers : List NodeId) (actions : List (CausalAction α))
    (s : CausalSystem α) (a b : NodeId × Nat) : Prop :=
  ¬ Relation.TransGen (Informs nodeIds peers actions s) a b ∧
    ¬ Relation.TransGen (Informs nodeIds peers actions s) b a

/-! ## What one step sends -/

section Emission

variable {peers : List NodeId} {s s' : CausalSystem α} {a : CausalAction α}

theorem emit_sent {n : NodeId} {targets : List NodeId} {data : α}
    (hstep : s.emit n targets data = some s') :
    ∃ vc x, (s.node n).vc.increment = some vc ∧ x.msg.vector = vc.clock ∧
      s'.sent = Function.update s.sent n (s.sent n ++ [x]) := by
  obtain ⟨vc, hvc, rfl⟩ := Option.map_eq_some_iff.mp hstep
  exact ⟨vc, _, hvc, rfl, rfl⟩

theorem sent_of_emitter {n : NodeId} (hstep : s.step peers a = some s')
    (ha : a.emitter = some n) :
    ∃ vc x, (s.node n).vc.increment = some vc ∧ x.msg.vector = vc.clock ∧
      s'.sent = Function.update s.sent n (s.sent n ++ [x]) := by
  cases a with
  | send q target data =>
      cases ha
      exact emit_sent hstep
  | broadcast q data =>
      cases ha
      exact emit_sent hstep
  | arrive packet => cases ha
  | advance q => cases ha

private theorem sent_of_quiet (hstep : s.step peers a = some s')
    (ha : a.emitter = none) : s'.sent = s.sent := by
  cases a with
  | send q target data => cases ha
  | broadcast q data => cases ha
  | arrive packet =>
      simp only [step] at hstep
      split at hstep
      · cases hstep
      · split at hstep
        · cases hstep
          rfl
        · cases hstep
  | advance q =>
      obtain ⟨o, -, rfl⟩ := Option.map_eq_some_iff.mp hstep
      rfl

theorem sent_cases (hstep : s.step peers a = some s') (q : NodeId) :
    s'.sent q = s.sent q ∨
      a.emitter = some q ∧ ∃ x, s'.sent q = s.sent q ++ [x] := by
  cases ha : a.emitter with
  | none => exact .inl (congrFun (sent_of_quiet hstep ha) q)
  | some n =>
      obtain ⟨vc, x, -, -, hsent⟩ := sent_of_emitter hstep ha
      rw [hsent]
      by_cases hq : q = n
      · subst hq
        rw [Function.update_self]
        exact .inr ⟨rfl, x, rfl⟩
      · rw [Function.update_of_ne hq]
        exact .inl rfl

theorem run_sent {actions : List (CausalAction α)}
    (hrun : run (step peers) s actions = some s') (q : NodeId) :
    s.sent q <+: s'.sent q := by
  have hstep : ∀ t a t', s.sent q <+: t.sent q → step peers t a = some t' →
      s.sent q <+: t'.sent q := by
    intro t a t' hprefix hstep
    rcases sent_cases hstep q with hsame | ⟨-, x, hsent⟩
    · rwa [hsame]
    · rw [hsent]
      exact hprefix.trans (List.prefix_append _ _)
  exact run_preserves hstep List.prefix_rfl hrun

theorem sent_of_silent {actions : List (CausalAction α)}
    (hrun : run (step peers) s actions = some s') {q : NodeId}
    (hsilent : ∀ a ∈ actions, a.emitter ≠ some q) :
    s'.sent q = s.sent q := by
  induction actions generalizing s with
  | nil =>
      cases hrun
      rfl
  | cons a rest ih =>
      obtain ⟨t, hstep, hrest⟩ := run_cons.mp hrun
      rw [ih hrest fun b hb => hsilent b (List.mem_cons_of_mem a hb)]
      rcases sent_cases hstep q with hsame | ⟨ha, -⟩
      · exact hsame
      · exact absurd ha (hsilent a (by simp))

theorem run_inv {nodeIds : List NodeId} {actions : List (CausalAction α)}
    (hrun : run (step peers) (new nodeIds) actions = some s) :
    s.Inv nodeIds :=
  run_preserves (fun _ _ _ h hstep => h.step hstep) (inv_new nodeIds) hrun

end Emission

/-! ## The moment of a vector -/

section Moment

variable {nodeIds peers : List NodeId} {actions : List (CausalAction α)}
  {s : CausalSystem α}

/-- The step in which node `n` took the vector of its message number `j`. -/
structure Moment (nodeIds peers : List NodeId)
    (actions : List (CausalAction α)) (s : CausalSystem α) (n : NodeId)
    (j : Nat) (x : Sent α) (s₁ : CausalSystem α) : Prop where
  split : ∃ before a after, actions = before ++ a :: after ∧
    run (step peers) (new nodeIds) before = some s₁ ∧ a.emitter = some n
  inv : s₁.Inv nodeIds
  number : (s₁.sent n).length = j
  older : ∀ q, s₁.sent q <+: s.sent q
  stamp : ∃ vc, (s₁.node n).vc.increment = some vc ∧ x.msg.vector = vc.clock

theorem moment_of_split {before after : List (CausalAction α)}
    {a : CausalAction α} {n : NodeId} {j : Nat} {x : Sent α}
    {s₁ : CausalSystem α}
    (hrun : run (step peers) (new nodeIds) (before ++ a :: after) = some s)
    (hbefore : run (step peers) (new nodeIds) before = some s₁)
    (ha : a.emitter = some n) (hj : (s₁.sent n).length = j)
    (hx : (s.sent n)[j]? = some x) :
    Moment nodeIds peers (before ++ a :: after) s n j x s₁ := by
  obtain ⟨s', hs', hrest⟩ := run_append.mp hrun
  obtain rfl : s₁ = s' := Option.some.inj (hbefore.symm.trans hs')
  obtain ⟨s₂, hstep, hafter⟩ := run_cons.mp hrest
  refine ⟨⟨before, a, after, rfl, hbefore, ha⟩, run_inv hbefore, hj,
    run_sent hrest, ?_⟩
  obtain ⟨vc, y, hvc, hy, hsent⟩ := sent_of_emitter hstep ha
  have hget : (s.sent n)[j]? = some y := by
    have hsent₂ : (s₂.sent n)[j]? = some y := by
      rw [hsent, Function.update_self, ← hj]
      simp
    obtain ⟨more, hmore⟩ := run_sent hafter n
    rw [← hmore, List.getElem?_append_left, hsent₂]
    exact (List.getElem?_eq_some_iff.mp hsent₂).1
  rw [hget] at hx
  obtain rfl := Option.some.inj hx
  exact ⟨vc, hvc, hy⟩

private theorem exists_moment
    (hrun : run (step peers) (new nodeIds) actions = some s) {n : NodeId}
    {j : Nat} {x : Sent α} (hx : (s.sent n)[j]? = some x) :
    ∃ s₁, Moment nodeIds peers actions s n j x s₁ := by
  have hlt := (List.getElem?_eq_some_iff.mp hx).1
  have hnone : ¬ j < ((new nodeIds : CausalSystem α).sent n).length := by
    simp [new]
  obtain ⟨before, a, after, s₁, s₂, rfl, hbefore, hs₁, hstep, hs₂, -⟩ :=
    run_crosses (P := fun s => j < (s.sent n).length) hnone hlt hrun
  rcases sent_cases hstep n with hsame | ⟨ha, y, hsent⟩
  · rw [hsame] at hs₂
    exact absurd hs₂ hs₁
  · rw [hsent, List.length_append, List.length_singleton] at hs₂
    exact ⟨s₁, moment_of_split hrun hbefore ha (by omega) hx⟩

theorem Moment.entry {n : NodeId} {j : Nat} {x : Sent α} {s₁ : CausalSystem α}
    (h : Moment nodeIds peers actions s n j x s₁) (k : NodeId) :
    x.msg.vector.entry k =
      if k = n then j + 1 else (s₁.node n).vc.clock.entry k := by
  obtain ⟨vc, hvc, hstamp⟩ := h.stamp
  have hnode := (h.inv.node n).inOrder
  rw [hstamp, (hnode.keys.increment hvc).2.2 k]
  split
  · next hk => rw [hk, hnode.own, h.number]
  · rfl

end Moment

/-! ## Counted messages are known -/

section Causality

variable {nodeIds peers : List NodeId} {actions : List (CausalAction α)}
  {s : CausalSystem α}

theorem known_of_counted
    (hrun : run (step peers) (new nodeIds) actions = some s) {q n : NodeId}
    {i j : Nat} {x y : Sent α} (hx : (s.sent q)[i]? = some x)
    (hy : (s.sent n)[j]? = some y) (hne : (q, i) ≠ (n, j))
    (hcount : i < y.msg.vector.entry q) :
    q = n ∧ i < j ∨ DeliveredBefore nodeIds peers actions x.msg n j := by
  obtain ⟨s₁, hmoment⟩ := exists_moment hrun hy
  rw [hmoment.entry] at hcount
  by_cases hq : q = n
  · subst hq
    rw [if_pos rfl] at hcount
    have hij : i ≠ j := fun heq => hne (by rw [heq])
    exact .inl ⟨rfl, by omega⟩
  · rw [if_neg hq] at hcount
    have hnode := (hmoment.inv.node n).inOrder
    have hx₁ : (s₁.sent q)[i]? = some x := by
      have hlt : i < (s₁.sent q).length :=
        Nat.lt_of_lt_of_le hcount (hnode.bounded q)
      obtain ⟨more, hmore⟩ := hmoment.older q
      rwa [← hmore, List.getElem?_append_left hlt] at hx
    obtain ⟨before, a, after, hsplit, hbefore, ha⟩ := hmoment.split
    exact .inr ⟨before, a, after, s₁, hsplit, hbefore, ha, hmoment.number,
      hnode.mem_accepted hq hx₁ hcount⟩

theorem below_of_known
    (hrun : run (step peers) (new nodeIds) actions = some s) {q n : NodeId}
    {i j : Nat} {x y : Sent α} (hx : (s.sent q)[i]? = some x)
    (hy : (s.sent n)[j]? = some y)
    (hknown : q = n ∧ i < j ∨
      DeliveredBefore nodeIds peers actions x.msg n j) :
    x.msg.vector.LE y.msg.vector ∧
      x.msg.vector.entry n < y.msg.vector.entry n := by
  have hstamps := (run_inv hrun).stamps
  rcases hknown with ⟨rfl, hij⟩ | ⟨before, a, after, s₁, rfl, hbefore, ha, hj, hm⟩
  · refine ⟨hstamps.increasing q i j x y hij hx hy, ?_⟩
    rw [(hstamps.numbered q i x hx).2, (hstamps.numbered q j y hy).2]
    omega
  · have hmoment := moment_of_split hrun hbefore ha hj hy
    have hnode := (hmoment.inv.node n).inOrder
    have hle := hnode.below x.msg hm
    have hown : x.msg.vector.entry n < y.msg.vector.entry n := by
      have hn := hle n
      rw [hnode.own, hmoment.number] at hn
      rw [hmoment.entry, if_pos rfl]
      omega
    refine ⟨fun k => ?_, hown⟩
    by_cases hk : k = n
    · subst hk
      exact Nat.le_of_lt hown
    · rw [hmoment.entry, if_neg hk]
      exact hle k

theorem happensBefore_iff_known
    (hrun : run (step peers) (new nodeIds) actions = some s) {q n : NodeId}
    {i j : Nat} {x y : Sent α} (hx : (s.sent q)[i]? = some x)
    (hy : (s.sent n)[j]? = some y) (hne : (q, i) ≠ (n, j)) :
    VectorClock.happensBefore x.msg.vector y.msg.vector = true ↔
      q = n ∧ i < j ∨ DeliveredBefore nodeIds peers actions x.msg n j := by
  rw [VectorClock.happensBefore_iff]
  constructor
  · rintro ⟨hle, -⟩
    refine known_of_counted hrun hx hy hne ?_
    have hown := ((run_inv hrun).stamps.numbered q i x hx).2
    have hq := hle q
    omega
  · intro hknown
    obtain ⟨hle, hlt⟩ := below_of_known hrun hx hy hknown
    exact ⟨hle, n, hlt⟩

theorem happensBefore_of_informs
    (hrun : run (step peers) (new nodeIds) actions = some s)
    {a b : NodeId × Nat} {x y : Sent α} (hx : (s.sent a.1)[a.2]? = some x)
    (hy : (s.sent b.1)[b.2]? = some y)
    (hchain : Relation.TransGen (Informs nodeIds peers actions s) a b) :
    VectorClock.happensBefore x.msg.vector y.msg.vector = true := by
  have hlink : ∀ {c d : NodeId × Nat} {v w : Sent α},
      (s.sent c.1)[c.2]? = some v → (s.sent d.1)[d.2]? = some w →
      Informs nodeIds peers actions s c d →
      VectorClock.happensBefore v.msg.vector w.msg.vector = true := by
    rintro c d v w hv hw ⟨v', w', hv', hw', hknown⟩
    obtain rfl := Option.some.inj (hv.symm.trans hv')
    obtain ⟨hle, hlt⟩ := below_of_known hrun hv hw hknown
    exact (VectorClock.happensBefore_iff _ _).mpr ⟨hle, d.1, hlt⟩
  induction hchain generalizing y with
  | single hinforms => exact hlink hx hy hinforms
  | tail _ hinforms ih =>
      obtain ⟨z, -, hz, -, -⟩ := id hinforms
      exact VectorClock.happensBefore_trans (ih hz) (hlink hz hy hinforms)

theorem informs_iff_happensBefore
    (hrun : run (step peers) (new nodeIds) actions = some s) {q n : NodeId}
    {i j : Nat} {x y : Sent α} (hx : (s.sent q)[i]? = some x)
    (hy : (s.sent n)[j]? = some y) (hne : (q, i) ≠ (n, j)) :
    Relation.TransGen (Informs nodeIds peers actions s) (q, i) (n, j) ↔
      VectorClock.happensBefore x.msg.vector y.msg.vector = true := by
  constructor
  · exact happensBefore_of_informs hrun hx hy
  · intro hbefore
    have hknown := (happensBefore_iff_known hrun hx hy hne).mp hbefore
    exact .single ⟨x, y, hx, hy, hknown⟩

end Causality

/--
For two different messages, `happens_before` answers `True` exactly when the first
one was sent by the sender of the second one before it, or was delivered there
before the second one was sent; two messages are concurrent exactly when it
answers `False` both ways.
-/
theorem run_vectorCausality (nodeIds peers : List NodeId)
    (actions : List (CausalAction α)) (s : CausalSystem α)
    (hrun : run (step peers) (new nodeIds) actions = some s) (q n : NodeId)
    (i j : Nat) (x y : Sent α) (hx : (s.sent q)[i]? = some x)
    (hy : (s.sent n)[j]? = some y) (hne : (q, i) ≠ (n, j)) :
    (VectorClock.happensBefore x.msg.vector y.msg.vector = true ↔
      q = n ∧ i < j ∨ DeliveredBefore nodeIds peers actions x.msg n j) ∧
    (Concurrent nodeIds peers actions s (q, i) (n, j) ↔
      VectorClock.happensBefore x.msg.vector y.msg.vector = false ∧
        VectorClock.happensBefore y.msg.vector x.msg.vector = false) := by
  refine ⟨happensBefore_iff_known hrun hx hy hne, ?_⟩
  rw [Concurrent, informs_iff_happensBefore hrun hx hy hne,
    informs_iff_happensBefore hrun hy hx (Ne.symm hne), Bool.not_eq_true,
    Bool.not_eq_true]

/-- Node 2 delivers a broadcast of node 1 and answers it; node 3 broadcasts on
its own. -/
def oneAnswer : List (CausalAction String) :=
  [.broadcast 1 "a", .broadcast 3 "c", .arrive 0, .advance 2,
    .broadcast 2 "b"]

theorem oneAnswer_vectorCausality :
    ∃ s x y z, run (step [1, 2, 3]) (new [1, 2, 3]) oneAnswer = some s ∧
      (s.sent 1)[0]? = some x ∧ (s.sent 2)[0]? = some y ∧
      (s.sent 3)[0]? = some z ∧
      DeliveredBefore [1, 2, 3] [1, 2, 3] oneAnswer x.msg 2 0 ∧
      Concurrent [1, 2, 3] [1, 2, 3] oneAnswer s (2, 0) (3, 0) := by
  have hview : (run (step [1, 2, 3]) (new [1, 2, 3]) oneAnswer).any
      (fun s => ((s.sent 1)[0]?.any fun x => (s.sent 2)[0]?.any fun y =>
        (s.sent 3)[0]?.any fun z =>
          VectorClock.happensBefore x.msg.vector y.msg.vector &&
          !VectorClock.happensBefore y.msg.vector z.msg.vector &&
          !VectorClock.happensBefore z.msg.vector y.msg.vector)) = true := by
    decide +kernel
  obtain ⟨s, hs, hsent⟩ := (Option.any_eq_true _ _).mp hview
  obtain ⟨x, hx, hsent⟩ := (Option.any_eq_true _ _).mp hsent
  obtain ⟨y, hy, hsent⟩ := (Option.any_eq_true _ _).mp hsent
  obtain ⟨z, hz, hsent⟩ := (Option.any_eq_true _ _).mp hsent
  simp only [Bool.and_eq_true, Bool.not_eq_true'] at hsent
  obtain ⟨⟨hxy, hyz⟩, hzy⟩ := hsent
  refine ⟨s, x, y, z, hs, hx, hy, hz, ?_, ?_⟩
  · have h := run_vectorCausality _ _ oneAnswer s hs 1 2 0 0 x y hx hy (by decide)
    exact (h.1.mp hxy).resolve_left (by decide)
  · have h := run_vectorCausality _ _ oneAnswer s hs 2 3 0 0 y z hy hz (by decide)
    exact h.2.mpr ⟨hyz, hzy⟩

end CausalSystem

end DistributedMemory.Network
