import DistributedMemory.Network.CausalSchedule

/-!
# A unicast between two others

`send` takes a vector as `broadcast` does, so a unicast is counted in the entry of
its sender, at the sender and at the target once it has delivered it.  A third node
never gets that message, and delivers nothing whose vector counts it.

As long as no node that counts the unicast sends anything, the messages of the
schedule carry the vectors that they have without it.  A node that does not count
it differs from itself without the unicast only in that the unicast may wait in its
buffer, and so every third node delivers the same.
-/

namespace DistributedMemory.Network

open DistributedMemory.Library

universe u

variable {α : Type u} {a : NodeId} {i : Nat}

def CausalMsg.uncounted (a : NodeId) (i : Nat) (m : CausalMsg α) : Bool :=
  m.vector.entry a ≤ i

namespace CausalOrdering

variable {o o' : CausalOrdering α} {m : CausalMsg α}
  {remaining work remaining' work' : List (CausalMsg α)}

def Counts (a : NodeId) (i : Nat) (o : CausalOrdering α) : Prop :=
  i < o.vc.clock.entry a

def HasEntry (a : NodeId) (o : CausalOrdering α) : Prop :=
  (o.vc.clock.get? a).isSome

structure Alike (a : NodeId) (i : Nat) (o o' : CausalOrdering α) : Prop where
  vc : o'.vc = o.vc
  delivered : o'.delivered = o.delivered
  buffer : o'.buffer.filter (CausalMsg.uncounted a i) = o.buffer

/-! ## A node that counts it does so from then on -/

theorem Counts.deliver (h : o.Counts a i) (m : CausalMsg α) :
    (o.deliver m).Counts a i :=
  Nat.lt_of_lt_of_le h (VectorClock.entry_le_entry_merge o.vc m.vector a)

theorem Counts.flushPass (h : o.Counts a i) (changed : Bool)
    (remaining work : List (CausalMsg α)) :
    (o.flushPass changed remaining work).1.Counts a i := by
  induction work generalizing o changed remaining with
  | nil => exact h
  | cons m work ih =>
      rw [CausalOrdering.flushPass]
      split
      · exact ih (h.deliver m) _ _
      · exact ih h _ _

theorem Counts.flushBuffer (h : o.Counts a i) (fuel : Nat) :
    (flushBuffer fuel o).Counts a i := by
  induction fuel generalizing o with
  | zero => exact h
  | succ fuel ih =>
      have hpass := h.flushPass false [] o.buffer
      rw [CausalOrdering.flushBuffer]
      dsimp only
      split
      · exact ih hpass
      · exact hpass

theorem Counts.handle (h : o.Counts a i) (m : CausalMsg α) :
    (o.handle m).Counts a i := by
  rw [CausalOrdering.handle]
  split
  · exact (h.deliver m).flushBuffer _
  · exact h

theorem HasEntry.deliver (h : o.HasEntry a) (m : CausalMsg α) :
    (o.deliver m).HasEntry a := by
  rw [HasEntry, deliver_vc, VectorClock.isSome_get?_merge]
  exact h

theorem HasEntry.counts_deliver (h : o.HasEntry a)
    (hm : m.uncounted a i = false) : (o.deliver m).Counts a i := by
  rw [CausalMsg.uncounted, decide_eq_false_iff_not, Nat.not_le] at hm
  exact Nat.lt_of_lt_of_le hm (VectorClock.le_entry_merge h m.vector)

/-! ## The same handler with and without the unicast -/

private theorem flushPass_alike (changed : Bool) (hkey : o'.HasEntry a) (hvc : o'.vc = o.vc)
    (hdelivered : o'.delivered = o.delivered)
    (hremaining : remaining'.filter (CausalMsg.uncounted a i) = remaining)
    (hwork : work'.filter (CausalMsg.uncounted a i) = work) :
    (o'.flushPass changed remaining' work').1.Counts a i ∨
      (o'.flushPass changed remaining' work').1.HasEntry a ∧
      (o'.flushPass changed remaining' work').1.vc =
        (o.flushPass changed remaining work).1.vc ∧
      (o'.flushPass changed remaining' work').1.delivered =
        (o.flushPass changed remaining work).1.delivered ∧
      (o'.flushPass changed remaining' work').2.1 =
        (o.flushPass changed remaining work).2.1 ∧
      (o'.flushPass changed remaining' work').2.2.filter (CausalMsg.uncounted a i) =
        (o.flushPass changed remaining work).2.2 := by
  induction work' generalizing o o' changed remaining remaining' work with
  | nil =>
      subst hwork
      exact .inr ⟨hkey, hvc, hdelivered, rfl, hremaining⟩
  | cons m work' ih =>
      rw [flushPass]
      cases hm : m.uncounted a i with
      | true =>
          rw [List.filter_cons_of_pos hm] at hwork
          subst hwork
          rw [flushPass, canDeliver_congr hvc]
          split
          · exact ih true (hkey.deliver m) (by rw [deliver_vc, deliver_vc, hvc])
              (by rw [deliver_delivered, deliver_delivered, hdelivered]) hremaining rfl
          · refine ih changed hkey hvc hdelivered ?_ rfl
            rw [List.filter_append, hremaining, List.filter_cons_of_pos hm]
            rfl
      | false =>
          rw [List.filter_cons_of_neg (by simp [hm])] at hwork
          split
          · exact .inl ((hkey.counts_deliver hm).flushPass _ _ _)
          · refine ih changed hkey hvc hdelivered ?_ hwork
            rw [List.filter_append, hremaining, List.filter_cons_of_neg (by simp [hm])]
            simp

private theorem flushBuffer_alike (h : Alike a i o o') (hkey : o'.HasEntry a) (fuel : Nat) :
    (flushBuffer fuel o').Counts a i ∨
      Alike a i (flushBuffer fuel o) (flushBuffer fuel o') := by
  induction fuel generalizing o o' with
  | zero => exact .inr h
  | succ fuel ih =>
      have hnone : ([] : List (CausalMsg α)).filter (CausalMsg.uncounted a i) = [] :=
        rfl
      have hpass := flushPass_alike false hkey h.vc h.delivered hnone h.buffer
      rw [flushBuffer, flushBuffer]
      dsimp only
      rcases hpass with hcounts | ⟨hkey', hvc, hdelivered, hchanged, hbuffer⟩
      · left
        split
        · apply Counts.flushBuffer
          exact hcounts
        · exact hcounts
      · rw [hchanged]
        split
        · exact ih ⟨hvc, hdelivered, hbuffer⟩ hkey'
        · exact .inr ⟨hvc, hdelivered, hbuffer⟩

theorem Alike.handle (h : Alike a i o o') (hkey : o'.HasEntry a)
    (hm : m.uncounted a i = true) :
    (o'.handle m).Counts a i ∨ Alike a i (o.handle m) (o'.handle m) := by
  rw [CausalOrdering.handle, CausalOrdering.handle, canDeliver_congr h.vc]
  split
  · have hlength : o.buffer.length ≤ o'.buffer.length := by
      rw [← h.buffer]
      exact List.length_filter_le _ _
    have hdeliver : Alike a i (o.deliver m) (o'.deliver m) :=
      ⟨by rw [deliver_vc, deliver_vc, h.vc],
        by rw [deliver_delivered, deliver_delivered, h.delivered], h.buffer⟩
    have hflush := flushBuffer_alike hdeliver (hkey.deliver m) (o'.buffer.length + 1)
    rw [flushBuffer_of_le (o := o.deliver m) (Nat.lt_succ_self _)
      (Nat.succ_le_succ hlength)] at hflush
    exact hflush
  · refine .inr ⟨h.vc, h.delivered, ?_⟩
    rw [List.filter_append, h.buffer, List.filter_cons_of_pos hm]
    rfl

private theorem Alike.handle_counted (h : Alike a i o o') (hkey : o'.HasEntry a)
    (hm : m.uncounted a i = false) :
    (o'.handle m).Counts a i ∨ Alike a i o (o'.handle m) := by
  rw [CausalOrdering.handle]
  split
  · exact .inl ((hkey.counts_deliver hm).flushBuffer _)
  · refine .inr ⟨h.vc, h.delivered, ?_⟩
    rw [List.filter_append, h.buffer, List.filter_cons_of_neg (by simp [hm])]
    simp

end CausalOrdering

namespace CausalSystem

variable {nodeIds peers : List NodeId} {b : NodeId}

/-- An action of the schedule with the unicast as an action of the one without it;
the unicast is packet `p`. -/
def withoutUnicast (p : Nat) : CausalAction α → Option (CausalAction α)
  | .arrive packet =>
      if packet = p then none
      else some (.arrive (if p < packet then packet - 1 else packet))
  | action => some action

/-- A node that sends does not count message `i` of node `a`. -/
def SentUncounted (a : NodeId) (i : Nat) (s : CausalSystem α) :
    CausalAction α → Prop
  | .send n _ _ => (s.node n).vc.clock.entry a ≤ i
  | .broadcast n _ => (s.node n).vc.clock.entry a ≤ i
  | .arrive _ => True
  | .advance _ => True

instance (a : NodeId) (i : Nat) (s : CausalSystem α) :
    ∀ action, Decidable (SentUncounted a i s action)
  | .send n _ _ => inferInstanceAs (Decidable ((s.node n).vc.clock.entry a ≤ i))
  | .broadcast n _ => inferInstanceAs (Decidable ((s.node n).vc.clock.entry a ≤ i))
  | .arrive _ => inferInstanceAs (Decidable True)
  | .advance _ => inferInstanceAs (Decidable True)

def UnicastTo (a : NodeId) (i : Nat) (b : NodeId) (s : CausalSystem α) : Prop :=
  ∃ x, (s.sent a)[i]? = some x ∧ x.targets = [b]

private theorem Inv.entry_le_of_unicast {s : CausalSystem α} (h : s.Inv nodeIds)
    (hunicast : s.UnicastTo a i b) {k : NodeId} (ha : k ≠ a) (hb : k ≠ b) :
    (s.node k).vc.clock.entry a ≤ i := by
  obtain ⟨x, hx, htargets⟩ := hunicast
  rw [← Nat.not_lt]
  intro hlt
  have hinOrder := (h.node k).inOrder
  have haccepted := hinOrder.mem_accepted (Ne.symm ha) hx hlt
  obtain ⟨-, y, hy, heq, htarget⟩ := hinOrder.addressed x.msg haccepted
  have hmem := List.mem_of_getElem? hx
  rw [h.stamps.sender hmem] at hy
  rw [h.stamps.eq_of_msg hy hmem heq, htargets, List.mem_singleton] at htarget
  exact hb htarget

private theorem insertIdx_append {l : List α} {p : Nat} (h : p ≤ l.length) (x : α)
    (l' : List α) : (l ++ l').insertIdx p x = l.insertIdx p x ++ l' := by
  induction l generalizing p with
  | nil =>
      obtain rfl := Nat.le_zero.mp h
      rfl
  | cons y l ih =>
      cases p with
      | zero => rfl
      | succ p =>
          rw [List.cons_append, List.insertIdx_succ_cons, List.insertIdx_succ_cons,
            ih (Nat.le_of_succ_le_succ h), List.cons_append]

/-- The run without and the run with the unicast, which is packet `p` for node
`b`. -/
structure Matches (nodeIds : List NodeId) (a : NodeId) (i : Nat) (b : NodeId) (p : Nat)
    (u : CausalMsg α) (s t : CausalSystem α) : Prop where
  inv : t.Inv nodeIds
  idle : t.Idle
  unicast : t.UnicastTo a i b
  counted : u.uncounted a i = false
  inside : p ≤ s.network.length
  network : t.network = s.network.insertIdx p (b, u)
  uncounted : ∀ packet ∈ s.network, packet.2.uncounted a i = true
  node : ∀ n, (t.node n).Counts a i ∨ CausalOrdering.Alike a i (s.node n) (t.node n)

section Matches

variable {p : Nat} {u : CausalMsg α} {s t t' : CausalSystem α}

theorem Matches.hasEntry (h : Matches nodeIds a i b p u s t) (n : NodeId) :
    (t.node n).HasEntry a := by
  obtain ⟨x, hx, -⟩ := h.unicast
  have hentry := (h.inv.stamps.numbered a i x hx).2
  have hkey : (x.msg.vector.get? a).isSome := by
    cases hget : x.msg.vector.get? a with
    | none => simp [Vector.entry, hget] at hentry
    | some ts => rfl
  have hmem := h.inv.stamps.keys a x (List.mem_of_getElem? hx) a hkey
  exact ((h.inv.node n).inOrder.keys.entries a).mpr hmem

private theorem Matches.sender_counts (h : Matches nodeIds a i b p u s t) :
    i < (t.node a).vc.clock.entry a := by
  obtain ⟨x, hx, -⟩ := h.unicast
  rw [(h.inv.node a).inOrder.own]
  exact (List.getElem?_eq_some_iff.mp hx).1

theorem Matches.emit (h : Matches nodeIds a i b p u s t) {n : NodeId}
    {targets : List NodeId} {data : α} (hn : (t.node n).vc.clock.entry a ≤ i)
    (hinv : t'.Inv nodeIds) (hemit : t.emit n targets data = some t') :
    ∃ s', s.emit n targets data = some s' ∧ Matches nodeIds a i b p u s' t' := by
  have hidle := h.idle.emit hemit
  obtain ⟨vc, hvc, rfl⟩ := Option.map_eq_some_iff.mp hemit
  have hne : a ≠ n := by
    rintro rfl
    exact absurd h.sender_counts (Nat.not_lt.mpr hn)
  have halike : CausalOrdering.Alike a i (s.node n) (t.node n) :=
    (h.node n).resolve_left (Nat.not_lt.mpr hn)
  have hentry : vc.clock.entry a = (t.node n).vc.clock.entry a := by
    rw [((h.inv.node n).inOrder.keys.increment hvc).2.2 a, if_neg hne]
  refine ⟨_, by rw [CausalSystem.emit, ← halike.vc, hvc, Option.map_some], hinv,
    hidle, ?_, h.counted, ?_, ?_, ?_, fun q => ?_⟩
  · obtain ⟨x, hx, htargets⟩ := h.unicast
    refine ⟨x, ?_, htargets⟩
    simpa [hne] using hx
  · rw [List.length_append]
    exact Nat.le_add_right_of_le h.inside
  · rw [insertIdx_append h.inside, ← h.network]
  · intro packet hpacket
    rcases List.mem_append.mp hpacket with hold | hnew
    · exact h.uncounted packet hold
    · obtain ⟨target, -, rfl⟩ := List.mem_map.mp hnew
      rw [CausalMsg.uncounted, decide_eq_true_eq, hentry]
      exact hn
  · by_cases hq : q = n
    · subst hq
      right
      dsimp only
      rw [Function.update_self, Function.update_self]
      exact ⟨rfl, halike.delivered, halike.buffer⟩
    · dsimp only
      rw [Function.update_of_ne hq, Function.update_of_ne hq]
      exact h.node q

theorem Matches.setNode (h : Matches nodeIds a i b p u s t) {n : NodeId}
    {o o' : CausalOrdering α} (hinv : (t.setNode n o').Inv nodeIds)
    (hidle : (t.setNode n o').Idle)
    (hnode : o'.Counts a i ∨ CausalOrdering.Alike a i o o') :
    Matches nodeIds a i b p u (s.setNode n o) (t.setNode n o') := by
  refine ⟨hinv, hidle, h.unicast, h.counted, h.inside, h.network, h.uncounted,
    fun q => ?_⟩
  by_cases hq : q = n
  · subst hq
    simpa [CausalSystem.setNode] using hnode
  · simpa [CausalSystem.setNode, hq] using h.node q

private theorem setNode_self (s : CausalSystem α) (n : NodeId) :
    s.setNode n (s.node n) = s := by
  simp [CausalSystem.setNode]

theorem Matches.arrive (h : Matches nodeIds a i b p u s t) {packet : Nat}
    (hstep : t.wholeStep peers (.arrive packet) = some t') :
    ∃ s', run (wholeStep peers) s
        (withoutUnicast p (.arrive packet : CausalAction α)).toList = some s' ∧
      Matches nodeIds a i b p u s' t' := by
  have hrun : run (wholeStep peers) t [.arrive packet] = some t' := by
    rw [run_cons_of_step hstep, run_nil]
  have hinv := h.inv.schedule h.idle hrun
  have hidle := (run_of_wholeStep h.idle hstep).2
  simp only [wholeStep, h.network] at hstep
  split at hstep
  · cases hstep
  · next n m hpacket =>
    cases hstep
    -- the packet of the schedule without the unicast
    have hboth {packet' : Nat} (hget : s.network[packet']? = some (n, m)) :
        ∃ s', run (wholeStep peers) s [.arrive packet'] = some s' ∧
          Matches nodeIds a i b p u s' (t.setNode n ((t.node n).handle m)) := by
      have harrive : s.wholeStep peers (.arrive packet') =
          some (s.setNode n ((s.node n).handle m)) := by
        simp [wholeStep, hget]
      refine ⟨_, by rw [run_cons_of_step harrive, run_nil], h.setNode hinv hidle ?_⟩
      have hm := h.uncounted (n, m) (List.mem_of_getElem? hget)
      rcases h.node n with hcounts | halike
      · exact .inl (hcounts.handle m)
      · exact halike.handle (h.hasEntry n) hm
    rcases Nat.lt_trichotomy packet p with hlt | rfl | hgt
    · rw [List.getElem?_insertIdx_of_lt hlt] at hpacket
      rw [withoutUnicast, if_neg (by omega), if_neg (by omega)]
      exact hboth hpacket
    · rw [List.getElem?_insertIdx_self, if_pos h.inside] at hpacket
      obtain ⟨rfl, rfl⟩ := Prod.mk.inj (Option.some.inj hpacket)
      rw [withoutUnicast, if_pos rfl]
      refine ⟨s, rfl, ?_⟩
      rw [← setNode_self s b]
      apply h.setNode hinv hidle
      rcases h.node b with hcounts | halike
      · exact .inl (hcounts.handle u)
      · exact halike.handle_counted (h.hasEntry b) h.counted
    · rw [List.getElem?_insertIdx_of_gt hgt] at hpacket
      rw [withoutUnicast, if_neg (by omega), if_pos hgt]
      exact hboth hpacket

theorem Matches.step (h : Matches nodeIds a i b p u s t) {action : CausalAction α}
    (hok : SentUncounted a i t action) (hstep : t.wholeStep peers action = some t') :
    ∃ s', run (wholeStep peers) s (withoutUnicast p action).toList = some s' ∧
      Matches nodeIds a i b p u s' t' := by
  have hrun : run (wholeStep peers) t [action] = some t' := by
    rw [run_cons_of_step hstep, run_nil]
  have hinv := h.inv.schedule h.idle hrun
  cases action with
  | advance n => cases hstep
  | arrive packet => exact h.arrive hstep
  | send n target data =>
      obtain ⟨s', hemit, hmatches⟩ := h.emit hok hinv hstep
      have hsend : s.wholeStep peers (.send n target data) = some s' := hemit
      have himage : withoutUnicast p (.send n target data) =
          some (.send n target data : CausalAction α) := rfl
      rw [himage, Option.toList_some, run_cons_of_step hsend, run_nil]
      exact ⟨s', rfl, hmatches⟩
  | broadcast n data =>
      obtain ⟨s', hemit, hmatches⟩ := h.emit hok hinv hstep
      have hbroadcast : s.wholeStep peers (.broadcast n data) = some s' := hemit
      have himage : withoutUnicast p (.broadcast n data) =
          some (.broadcast n data : CausalAction α) := rfl
      rw [himage, Option.toList_some, run_cons_of_step hbroadcast, run_nil]
      exact ⟨s', rfl, hmatches⟩

theorem Matches.delivered_eq (h : Matches nodeIds a i b p u s t) {k : NodeId}
    (ha : k ≠ a) (hb : k ≠ b) : (t.node k).delivered = (s.node k).delivered := by
  have hentry := h.inv.entry_le_of_unicast h.unicast ha hb
  rcases h.node k with hcounts | halike
  · exact absurd hcounts (Nat.not_lt.mpr hentry)
  · exact halike.delivered

end Matches

theorem Inv.uncounted_of_addressed {s : CausalSystem α} (h : s.Inv nodeIds)
    (a : NodeId) {n : NodeId} {m : CausalMsg α} (hm : Addressed s.sent n m) :
    m.uncounted a ((s.node a).vc.clock.entry a) = true := by
  obtain ⟨x, hx, rfl, -⟩ := hm
  have hstamped := h.stamped _ x hx a
  have hbounded := (h.node x.msg.sender).inOrder.bounded a
  rw [CausalMsg.uncounted, decide_eq_true_eq, (h.node a).inOrder.own]
  exact Nat.le_trans hstamped hbounded

private theorem matches_send {s t : CausalSystem α} (hinv : s.Inv nodeIds) (hidle : s.Idle)
    {data : α} (hsend : s.wholeStep peers (.send a b data) = some t) :
    ∃ u, Matches nodeIds a ((s.node a).vc.clock.entry a) b s.network.length u s t := by
  have hrun : run (wholeStep peers) s [.send a b data] = some t := by
    rw [run_cons_of_step hsend, run_nil]
  have hinv' := hinv.schedule hidle hrun
  have hidle' := (run_of_wholeStep hidle hsend).2
  obtain ⟨vc, hvc, rfl⟩ := Option.map_eq_some_iff.mp hsend
  have hown := (hinv.node a).inOrder.own
  have hentry : vc.clock.entry a = (s.node a).vc.clock.entry a + 1 := by
    rw [((hinv.node a).inOrder.keys.increment hvc).2.2 a, if_pos rfl]
  refine ⟨⟨a, vc.clock, data⟩, hinv', hidle', ?_, ?_, Nat.le_refl _, ?_, ?_,
    fun n => ?_⟩
  · refine ⟨⟨⟨a, vc.clock, data⟩, [b], (s.node a).delivered⟩, ?_, rfl⟩
    simp [hown]
  · rw [CausalMsg.uncounted, decide_eq_false_iff_not, hentry]
    exact Nat.not_succ_le_self _
  · rw [List.insertIdx_length_self]
    rfl
  · intro packet hpacket
    exact hinv.uncounted_of_addressed a (hinv.network packet.1 packet.2 hpacket)
  · by_cases hn : n = a
    · subst hn
      left
      dsimp only
      rw [Function.update_self, CausalOrdering.Counts, hentry]
      exact Nat.lt_succ_self _
    · right
      dsimp only
      rw [Function.update_of_ne hn]
      refine ⟨rfl, rfl, List.filter_eq_self.mpr fun m hm => ?_⟩
      exact hinv.uncounted_of_addressed a ((hinv.node n).buffered m hm)

/--
A unicast from `a` to `b` between two parts of a schedule.  As long as no node that
counts it sends anything behind it, every third node delivers what it delivers in the
schedule without it.
-/
theorem unicast_invisible (nodeIds peers : List NodeId)
    (before later : List (CausalAction α)) (a b : NodeId) (data : α)
    (mid t : CausalSystem α)
    (hbefore : run (wholeStep peers) (new nodeIds) before = some mid)
    (hlater : run (wholeStep peers) mid (.send a b data :: later) = some t)
    (huncounted : Along (wholeStep peers)
      (SentUncounted a ((mid.node a).vc.clock.entry a)) mid (.send a b data :: later)) :
    ∃ s, run (wholeStep peers) (new nodeIds)
        (before ++ later.filterMap (withoutUnicast mid.network.length)) = some s ∧
      ∀ k, k ≠ a → k ≠ b → (s.node k).delivered = (t.node k).delivered := by
  have hinv := (inv_new nodeIds).schedule (idle_new nodeIds) hbefore
  have hidle := (run_of_schedule (idle_new nodeIds) hbefore).2
  obtain ⟨start, hsend, hrest⟩ := run_cons.mp hlater
  obtain ⟨u, hstart⟩ := matches_send hinv hidle hsend
  have hok := ((along_cons_of_step hsend).mp huncounted).2
  obtain ⟨s, hrun, hmatches⟩ := run_simulates
    (fun _ _ _ _ h hok hstep => h.step hok hstep) hstart hok hrest
  refine ⟨s, run_append.mpr ⟨mid, hbefore, hrun⟩, fun k ha hb => ?_⟩
  exact (hmatches.delivered_eq ha hb).symm

/-- What node `k` has delivered at the end of a schedule, with its senders. -/
def deliveredAt (peers : List NodeId) (k : NodeId) (events : List (CausalAction α)) :
    Option (List (NodeId × α)) :=
  (run (wholeStep peers) (new peers) events).map fun s =>
    (s.node k).delivered.map fun m => (m.sender, m.data)

def firstBroadcast : List (CausalAction String) := [.broadcast 1 "a", .arrive 1]

/-- Node 2 gets the unicast before the broadcast in front of it. -/
def behindUnicast : List (CausalAction String) :=
  [.arrive 3, .broadcast 3 "b", .arrive 0, .arrive 6, .arrive 2]

theorem early_unicast_invisible :
    ∃ s t, run (wholeStep [1, 2, 3, 4]) (new [1, 2, 3, 4])
        (firstBroadcast ++ .send 1 2 "u" :: behindUnicast) = some t ∧
      run (wholeStep [1, 2, 3, 4]) (new [1, 2, 3, 4])
        (firstBroadcast ++ [.broadcast 3 "b", .arrive 0, .arrive 5, .arrive 2]) =
          some s ∧
      ∀ k, k ≠ 1 → k ≠ 2 → (s.node k).delivered = (t.node k).delivered := by
  have hall : (run (wholeStep [1, 2, 3, 4]) (new [1, 2, 3, 4]) firstBroadcast).map
      (fun mid => (mid.network.length,
        decide (Along (wholeStep [1, 2, 3, 4])
          (SentUncounted 1 ((mid.node 1).vc.clock.entry 1)) mid
          (.send 1 2 "u" :: behindUnicast)),
        (run (wholeStep [1, 2, 3, 4]) mid
          (.send 1 2 "u" :: behindUnicast)).isSome)) = some (3, true, true) := by
    decide +kernel
  obtain ⟨mid, hmid, hfacts⟩ := Option.map_eq_some_iff.mp hall
  obtain ⟨hlength, hrest⟩ := Prod.mk.inj hfacts
  obtain ⟨halong, hsome⟩ := Prod.mk.inj hrest
  obtain ⟨t, ht⟩ := Option.isSome_iff_exists.mp hsome
  obtain ⟨s, hs, hsame⟩ := unicast_invisible [1, 2, 3, 4] [1, 2, 3, 4] firstBroadcast
    behindUnicast 1 2 "u" mid t hmid ht (of_decide_eq_true halong)
  rw [hlength] at hs
  exact ⟨s, t, run_append.mpr ⟨mid, hmid, ht⟩, hs, hsame⟩

/-- Behind the unicast of node 1 its broadcast does not reach the application of
node 3. -/
theorem broadcast_withheld :
    deliveredAt [1, 2, 3] 3 [.broadcast 1 "x", .arrive 1] = some [(1, "x")] ∧
      deliveredAt [1, 2, 3] 3 [.send 1 2 "u", .broadcast 1 "x", .arrive 2] =
        some [] := by
  constructor <;> decide +kernel

end CausalSystem

end DistributedMemory.Network
