import DistributedMemory.Election.BullyAgreement
import DistributedMemory.Library.Budget
import Mathlib.Algebra.BigOperators.Group.List.Basic

/-!
# What a bully election costs

An ELECTION message makes its receiver start an election of its own, also when it has
just been through one.  The elections that one call leads to so double with every
live node above the caller, and each election of the highest node is announced to
everybody.  Schedules that deliver each COORDINATOR message before the next ELECTION
message reach the bound.
-/

namespace DistributedMemory.Election

open DistributedMemory.Library
open DistributedMemory.Network (NodeId)

/-- What the actions cost; a call of `start_election` pays for the others. -/
structure BullyPrice where
  deliver : Nat
  resume : Nat
  expire : Nat

namespace BullyAction

def starter : BullyAction → Option NodeId
  | .startElection n => some n
  | _ => none

def isDelivery : BullyAction → Bool
  | .deliver _ => true
  | _ => false

def price (p : BullyPrice) : BullyAction → Nat
  | .startElection _ => 0
  | .deliver _ => p.deliver
  | .resume _ => p.resume
  | .expire _ => p.expire

end BullyAction

namespace BullyConfig

variable (c : BullyConfig) (p : BullyPrice)

/-- The live nodes above `n`. -/
def above (n : NodeId) : Nat := (c.live.filter (n < ·)).card

def broadcastCost (targets : List NodeId) : Nat :=
  (targets.length + 1) * p.resume +
    (targets.filter (· ∈ c.live)).length * (p.deliver + p.resume)

def declareCost (n : NodeId) : Nat :=
  2 * p.resume + c.broadcastCost p (c.nodes.filter (· ≠ n))

def timeoutCost (n : NodeId) : Nat :=
  p.resume + if n = c.highest then c.declareCost p n else 0

def victoryCost : Nat :=
  (c.nodes.length + 2) * p.resume + (c.live.card - 1) * (p.deliver + p.resume)

def ownCost : Nat := c.nodes.length * p.resume + p.expire + p.resume

def electionCost (n : NodeId) : Nat :=
  spread (c.ownCost p + c.victoryCost p) (c.ownCost p)
    (2 * (p.deliver + p.resume)) (c.above n)

/-- An ELECTION message to `n`, the answer to it and the election at `n`. -/
def callCost (n : NodeId) : Nat :=
  2 * (p.deliver + p.resume) + c.electionCost p n

def worth (n : NodeId) : BullyItem → Nat
  | .message _ (.election _) => c.callCost p n
  | .message _ .electionOk => p.deliver
  | .message _ (.coordinator _ _) => p.deliver + p.resume
  | .task (.answer _) => 2 * p.resume + p.deliver + c.electionCost p n
  | .task .start => p.resume + c.electionCost p n
  | .task (.elect _ targets) =>
      (targets.length + 1) * p.resume +
        ((targets.filter (· ∈ c.live)).map (c.callCost p)).sum +
        (p.expire + c.timeoutCost p n)
  | .task (.onTimeout _) => c.timeoutCost p n
  | .task (.declare _) => c.declareCost p n
  | .task (.announce _) =>
      p.resume + c.broadcastCost p (c.nodes.filter (· ≠ n))
  | .task (.broadcast _ targets) => c.broadcastCost p targets
  | .task (.adopt _) => p.resume
  | .timer _ => p.expire + c.timeoutCost p n

variable {c} {n : NodeId}

theorem above_eq_zero (hn : n ∈ c.live) : c.above n = 0 ↔ n = c.highest := by
  rw [above, Finset.card_eq_zero, Finset.filter_eq_empty_iff]
  constructor
  · intro hnone
    exact Nat.le_antisymm (c.le_highest hn)
      (Nat.not_lt.mp (hnone c.highest_live))
  · rintro rfl m hm
    exact Nat.not_lt.mpr (c.le_highest hm)

section Distinct

variable (hdistinct : c.nodes.Nodup)

include hdistinct

theorem toFinset_live (q : NodeId → Bool) :
    ((c.nodes.filter q).filter (· ∈ c.live)).Nodup ∧
      ((c.nodes.filter q).filter (· ∈ c.live)).toFinset =
        c.live.filter (q · = true) := by
  refine ⟨(hdistinct.filter _).filter _, ?_⟩
  ext m
  simp only [List.mem_toFinset, List.mem_filter, Finset.mem_filter,
    decide_eq_true_eq]
  constructor
  · rintro ⟨⟨-, hq⟩, hlive⟩
    exact ⟨hlive, hq⟩
  · rintro ⟨hlive, hq⟩
    exact ⟨⟨c.known m hlive, hq⟩, hlive⟩

private theorem declareCost_le (p : BullyPrice) (hn : n ∈ c.live) :
    c.declareCost p n ≤ c.victoryCost p := by
  have hothers : (c.nodes.filter (· ≠ n)).length + 1 ≤ c.nodes.length := by
    refine List.length_filter_lt_length_iff_exists.mpr ⟨n, c.known n hn, ?_⟩
    simp
  have hlive : ((c.nodes.filter (· ≠ n)).filter (· ∈ c.live)).length ≤
      c.live.card - 1 := by
    obtain ⟨hnodup, hset⟩ := toFinset_live hdistinct fun m => decide (m ≠ n)
    rw [← List.toFinset_card_of_nodup hnodup, hset, ← Finset.card_erase_of_mem hn]
    refine Finset.card_le_card fun m hm => ?_
    obtain ⟨hm, hne⟩ := Finset.mem_filter.mp hm
    exact Finset.mem_erase.mpr ⟨by simpa using hne, hm⟩
  have hresumes := Nat.mul_le_mul_right p.resume hothers
  have hmessages := Nat.mul_le_mul_right (p.deliver + p.resume) hlive
  simp only [declareCost, broadcastCost, victoryCost, Nat.add_mul] at *
  omega

private theorem sum_callCost (p : BullyPrice) (n : NodeId) :
    (((c.higherNodes n).filter (· ∈ c.live)).map (c.callCost p)).sum =
      ∑ j ∈ Finset.range (c.above n), (2 * (p.deliver + p.resume) +
        spread (c.ownCost p + c.victoryCost p) (c.ownCost p)
          (2 * (p.deliver + p.resume)) j) := by
  obtain ⟨hnodup, hset⟩ := toFinset_live hdistinct fun m => decide (n < m)
  have hnodup' : ((c.higherNodes n).filter (· ∈ c.live)).Nodup := hnodup
  have hset' : ((c.higherNodes n).filter (· ∈ c.live)).toFinset =
      c.live.filter (n < ·) := by
    simpa [higherNodes] using hset
  rw [← List.sum_toFinset _ hnodup', above, ← sum_above]
  refine Finset.sum_congr hset' fun m hm => ?_
  have hlower : n < m := (Finset.mem_filter.mp hm).2
  have habove : (c.live.filter (n < ·)).filter (m < ·) =
      c.live.filter (m < ·) := by
    rw [Finset.filter_filter]
    refine Finset.filter_congr fun x _ => ?_
    exact ⟨fun h => h.2, fun h => ⟨Nat.lt_trans hlower h, h⟩⟩
  rw [habove, callCost, electionCost, above]

private theorem first_le (p : BullyPrice) (hn : n ∈ c.live) (epoch : Nat) :
    c.worth p n (.task (if c.higherNodes n = [] then .declare epoch
      else .elect epoch (c.higherNodes n))) ≤ c.electionCost p n := by
  have hvictory := declareCost_le hdistinct p hn
  have hhigher : (c.higherNodes n).length + 1 ≤ c.nodes.length := by
    refine List.length_filter_lt_length_iff_exists.mpr ⟨n, c.known n hn, ?_⟩
    simp
  have hsends := Nat.mul_le_mul_right p.resume hhigher
  have hcalls := sum_callCost hdistinct p n
  by_cases htop : n = c.highest
  · have hzero := (above_eq_zero hn).mpr htop
    rw [hzero, Finset.range_zero, Finset.sum_empty] at hcalls
    rw [electionCost, hzero]
    split
    · simp only [worth, spread]
      omega
    · simp only [worth, spread, hcalls, timeoutCost, if_pos htop, ownCost]
      omega
  · have hsome : c.higherNodes n ≠ [] :=
      List.ne_nil_of_mem (c.highest_mem_higherNodes hn htop)
    obtain ⟨h, hh⟩ : ∃ h, c.above n = h + 1 :=
      Nat.exists_eq_succ_of_ne_zero fun h => htop ((above_eq_zero hn).mp h)
    rw [hh] at hcalls
    rw [if_neg hsome, electionCost, hh, ← sum_spread]
    simp only [worth, hcalls, timeoutCost, if_neg htop]
    rw [ownCost]
    omega

end Distinct

end BullyConfig

namespace BullySystem

variable {c : BullyConfig} {p : BullyPrice} {s s' t : BullySystem} {n : NodeId}

def cost (c : BullyConfig) (p : BullyPrice) (s : BullySystem) : Nat :=
  (s.items.map fun x => c.worth p x.1 x.2).sum

theorem cost_perm {items : List (NodeId × BullyItem)} (h : s.items.Perm items) :
    cost c p s = (items.map fun x => c.worth p x.1 x.2).sum :=
  (h.map _).sum_nat

theorem cost_gone {item : BullyItem}
    (h : s.items.Perm ((n, item) :: t.items)) :
    cost c p s = c.worth p n item + cost c p t := by
  rw [cost_perm h, List.map_cons, List.sum_cons]
  rfl

@[simp] theorem cost_setNode (s : BullySystem) (n : NodeId) (e : BullyElection) :
    cost c p (s.setNode n e) = cost c p s := rfl

@[simp] theorem cost_later (s : BullySystem) (n : NodeId) (todo : BullyTask) :
    cost c p (s.later n todo) = c.worth p n (.task todo) + cost c p s :=
  cost_gone (items_later s n todo)

theorem cost_send (s : BullySystem) (n target : NodeId) (msg : BullyMsg) :
    cost c p (s.send c n target msg) =
      (if target ∈ c.live then c.worth p target (.message n msg) else 0) +
        cost c p s := by
  rw [cost, items_send, List.map_append, List.sum_append]
  split
  · rw [List.map_singleton, List.sum_singleton]
    rfl
  · rfl

private theorem cost_cancelTimer (s : BullySystem) (n : NodeId) :
    cost c p (s.cancelTimer n) ≤ cost c p s := by
  obtain ⟨cancelled, -, hperm, -⟩ := items_cancelTimer s n
  rw [cost_perm hperm, List.map_append, List.sum_append]
  exact Nat.le_add_left _ _

theorem cost_startElection (hdistinct : c.nodes.Nodup) (hn : n ∈ c.live)
    (s : BullySystem) :
    cost c p (s.startElection c n) ≤ cost c p s + c.electionCost p n := by
  simp only [startElection]
  split
  · exact Nat.le_add_right _ _
  · have hfirst := BullyConfig.first_le hdistinct p hn ((s.node n).epoch + 1)
    rw [cost_later, cost_setNode]
    omega

theorem cost_handle (s : BullySystem) (packet : BullyPacket) :
    cost c p (s.handle packet) + p.deliver ≤ cost c p s +
      c.worth p packet.target (.message packet.sender packet.msg) := by
  obtain ⟨sender, n, msg⟩ := packet
  have hcancel := cost_cancelTimer (c := c) (p := p) s n
  cases msg with
  | election epoch =>
      simp only [handle, BullyConfig.worth, BullyConfig.callCost]
      split
      · rw [cost_later, BullyConfig.worth]
        omega
      · omega
  | electionOk =>
      simp only [handle, handleElectionOk, cost_setNode, BullyConfig.worth]
      omega
  | coordinator leaderId epoch =>
      simp only [handle, handleCoordinator, BullyConfig.worth]
      split
      · omega
      · rw [cost_later, cost_setNode, BullyConfig.worth]
        omega

theorem cost_execute (hdistinct : c.nodes.Nodup) (s : BullySystem)
    {todo : BullyTask} (hn : n ∈ c.live) (hfits : Fits c s n (.task todo)) :
    cost c p (s.execute c (n, todo)) + p.resume ≤
      cost c p s + c.worth p n (.task todo) := by
  cases todo with
  | answer sender =>
      simp only [execute, cost_later, cost_send, BullyConfig.worth]
      split <;> omega
  | start =>
      have hstart := cost_startElection (p := p) hdistinct hn s
      simp only [execute, BullyConfig.worth]
      omega
  | elect epoch targets =>
      cases targets with
      | nil =>
          have htimer : cost c p (s.execute c (n, .elect epoch [])) =
              c.worth p n (.timer epoch) + cost c p s :=
            cost_gone (t := s) (items_timer
              (s.setNode n { s.node n with timer := some epoch }) n epoch)
          rw [htimer]
          simp only [BullyConfig.worth, List.filter_nil, List.map_nil,
            List.sum_nil, List.length_nil]
          omega
      | cons target targets =>
          simp only [execute, cost_later, cost_send, BullyConfig.worth,
            List.filter_cons, List.length_cons, decide_eq_true_eq]
          rw [Nat.add_mul (targets.length + 1) 1]
          split
          · rw [List.map_cons, List.sum_cons]
            omega
          · omega
  | onTimeout epoch =>
      simp only [execute, BullyConfig.worth]
      split
      · rw [BullyConfig.timeoutCost]
        omega
      · next hepoch =>
        have heq : epoch = (s.node n).epoch := not_not.mp hepoch
        split
        · rw [BullyConfig.timeoutCost]
          omega
        · next hok =>
          split
          · rw [BullyConfig.timeoutCost]
            omega
          · -- The timer of another node finds its election over or answered.
            have htop : n = c.highest := by
              rcases hfits with htop | hlt | ⟨-, hgot⟩
              · exact htop
              · exact absurd hlt (heq ▸ Nat.lt_irrefl _)
              · exact absurd hgot hok
            rw [cost_later, BullyConfig.worth, BullyConfig.timeoutCost,
              if_pos htop]
            omega
  | declare epoch =>
      simp only [execute, BullyConfig.worth, BullyConfig.declareCost]
      split
      · omega
      · rw [cost_later, cost_setNode, BullyConfig.worth]
        omega
  | announce epoch =>
      simp only [execute, cost_later, cost_setNode, BullyConfig.worth]
      omega
  | broadcast epoch targets =>
      cases targets with
      | nil =>
          simp only [execute, cost_setNode, BullyConfig.worth,
            BullyConfig.broadcastCost, List.filter_nil, List.length_nil]
          omega
      | cons target targets =>
          simp only [execute, cost_later, cost_send, BullyConfig.worth,
            BullyConfig.broadcastCost, List.filter_cons, List.length_cons,
            decide_eq_true_eq]
          rw [Nat.add_mul (targets.length + 1) 1]
          have hmore := Nat.add_mul (targets.filter (· ∈ c.live)).length 1
            (p.deliver + p.resume)
          split
          · rw [List.length_cons]
            omega
          · omega
  | adopt leaderId =>
      simp only [execute, cost_setNode, BullyConfig.worth]
      omega

def income (c : BullyConfig) (p : BullyPrice) : BullyAction → Nat
  | .startElection n => c.electionCost p n
  | _ => 0

theorem cost_step (hdistinct : c.nodes.Nodup) {a : BullyAction} (h : s.Inv c)
    (hstep : s.step c a = some s') :
    cost c p s' + a.price p ≤ cost c p s + income c p a := by
  cases a with
  | startElection n =>
      obtain ⟨hn, heq⟩ := Option.ite_none_right_eq_some.mp hstep
      obtain rfl := Option.some.inj heq
      exact cost_startElection hdistinct hn s
  | deliver packet =>
      obtain ⟨⟨content, network⟩, hpick, rfl⟩ :=
        Option.map_eq_some_iff.mp hstep
      have hbefore := cost_gone (c := c) (p := p) (items_network hpick)
      have hafter := cost_handle (c := c) (p := p) { s with network := network }
        content
      simp only [BullyAction.price, income]
      omega
  | resume task =>
      obtain ⟨⟨⟨n, todo⟩, running⟩, hpick, rfl⟩ :=
        Option.map_eq_some_iff.mp hstep
      have hbefore := cost_gone (c := c) (p := p) (items_running hpick)
      have hmem : (n, BullyItem.task todo) ∈ s.items :=
        (items_running hpick).mem_iff.mpr List.mem_cons_self
      obtain ⟨hn, hfits⟩ := h.fits n _ hmem
      have hafter := cost_execute (p := p) hdistinct
        { s with running := running } hn hfits
      simp only [BullyAction.price, income]
      omega
  | expire timer =>
      obtain ⟨⟨⟨n, epoch⟩, timers⟩, hpick, hrest⟩ :=
        Option.bind_eq_some_iff.mp hstep
      obtain ⟨-, heq⟩ := Option.ite_none_right_eq_some.mp hrest
      obtain rfl := Option.some.inj heq
      have hbefore := cost_gone (c := c) (p := p) (items_timers (pick_perm hpick))
      rw [cost_later]
      simp only [BullyAction.price, income, BullyConfig.worth] at hbefore ⊢
      omega

/-! ## Every run -/

theorem length_le_cost (c : BullyConfig) (s : BullySystem) :
    s.network.length ≤ cost c ⟨1, 0, 0⟩ s := by
  have hsum : ∀ network : List BullyPacket, network.length ≤
      (network.map fun packet => c.worth ⟨1, 0, 0⟩ packet.target
        (.message packet.sender packet.msg)).sum := by
    intro network
    induction network with
    | nil => exact Nat.le_refl 0
    | cons packet rest ih =>
        have hpos : 1 ≤ c.worth ⟨1, 0, 0⟩ packet.target
            (.message packet.sender packet.msg) := by
          cases packet.msg with
          | election epoch =>
              simp only [BullyConfig.worth, BullyConfig.callCost]
              omega
          | electionOk => exact Nat.le_refl 1
          | coordinator leaderId epoch => exact Nat.le_refl 1
        rw [List.length_cons, List.map_cons, List.sum_cons]
        omega
  have hnetwork := hsum s.network
  rw [cost, items, List.map_append, List.sum_append, List.map_map]
  exact Nat.le_add_right_of_le hnetwork

private theorem sum_income (c : BullyConfig) (p : BullyPrice)
    (actions : List BullyAction) :
    (actions.map (income c p)).sum =
      ((actions.filterMap BullyAction.starter).map (c.electionCost p)).sum := by
  induction actions with
  | nil => rfl
  | cons a rest ih =>
      rw [List.map_cons, List.sum_cons, ih]
      cases a with
      | startElection n => rfl
      | deliver packet => exact Nat.zero_add _
      | resume task => exact Nat.zero_add _
      | expire timer => exact Nat.zero_add _

theorem run_cost (hdistinct : c.nodes.Nodup) (p : BullyPrice)
    {actions : List BullyAction} (hrun : run (step c) new actions = some t) :
    cost c p t + (actions.map (BullyAction.price p)).sum ≤
      ((actions.filterMap BullyAction.starter).map (c.electionCost p)).sum := by
  have hfree : Along (step c) (fun _ _ => True) new actions :=
    along_of_forall (fun _ _ => trivial) new actions
  have h := run_afford (cost c p) (fun _ => 0) (BullyAction.price p) (income c p)
    (fun s a s' h _ hstep => ⟨Inv.step h hstep, cost_step hdistinct h hstep⟩)
    (inv_new c) hfree hrun
  have hstart : cost c p new = 0 := rfl
  rw [sum_income] at h
  omega

private theorem sum_price_messages (actions : List BullyAction) :
    (actions.map (BullyAction.price ⟨1, 0, 0⟩)).sum =
      actions.countP BullyAction.isDelivery := by
  induction actions with
  | nil => rfl
  | cons a rest ih =>
      rw [List.map_cons, List.sum_cons, ih, List.countP_cons, Nat.add_comm]
      cases a <;> rfl

private theorem sum_price_steps (actions : List BullyAction) :
    (actions.map (BullyAction.price ⟨1, 1, 1⟩)).sum +
      (actions.filterMap BullyAction.starter).length = actions.length := by
  induction actions with
  | nil => rfl
  | cons a rest ih =>
      rw [List.map_cons, List.sum_cons, List.length_cons, ← ih]
      cases a <;> simp only [BullyAction.price, BullyAction.starter,
        List.filterMap_cons, List.length_cons] <;>
        omega

/--
Where no timer expires too early (`MayExpire`), a call of `start_election` with `h`
live nodes above leads to at most `2 ^ (h - 1) * (k + 3) - 2` messages, where `k`
nodes are live (`k - 1` with none above), and to a number of steps that grows in the
same way; so no run goes on for ever.
-/
theorem run_bullyCost (c : BullyConfig) (hdistinct : c.nodes.Nodup)
    (actions : List BullyAction) (t : BullySystem)
    (hrun : run (step c) new actions = some t) :
    actions.countP BullyAction.isDelivery + t.network.length ≤
      ((actions.filterMap BullyAction.starter).map fun n =>
        spread (c.live.card - 1) 0 2 (c.above n)).sum ∧
    actions.length ≤ ((actions.filterMap BullyAction.starter).map fun n =>
      1 + spread (2 * c.nodes.length + 2 * c.live.card + 2) (c.nodes.length + 2) 4
        (c.above n)).sum := by
  have hlive : 0 < c.live.card := Finset.card_pos.mpr c.someLive
  have hmessages := run_cost hdistinct ⟨1, 0, 0⟩ hrun
  have hsteps := run_cost hdistinct ⟨1, 1, 1⟩ hrun
  have hflight := length_le_cost c t
  have hkinds := sum_price_steps actions
  rw [sum_price_messages] at hmessages
  have helection : c.electionCost ⟨1, 0, 0⟩ = fun n =>
      spread (c.live.card - 1) 0 2 (c.above n) := by
    funext n
    simp [BullyConfig.electionCost, BullyConfig.ownCost, BullyConfig.victoryCost]
  have hall : c.electionCost ⟨1, 1, 1⟩ = fun n =>
      spread (2 * c.nodes.length + 2 * c.live.card + 2) (c.nodes.length + 2) 4
        (c.above n) := by
    funext n
    have htop : c.nodes.length * 1 + 1 + 1 +
        ((c.nodes.length + 2) * 1 + (c.live.card - 1) * (1 + 1)) =
        2 * c.nodes.length + 2 * c.live.card + 2 := by omega
    simp only [BullyConfig.electionCost, BullyConfig.ownCost,
      BullyConfig.victoryCost, htop]
    rw [Nat.mul_one, Nat.add_assoc]
  rw [helection] at hmessages
  rw [hall] at hsteps
  refine ⟨by omega, ?_⟩
  rw [List.sum_map_add, List.map_const', List.sum_replicate_nat, Nat.mul_one]
  omega

def threeUp : BullyConfig :=
  ⟨[0, 1, 2], [0, 1, 2].toFinset, fun _ => List.mem_toFinset.mp, ⟨0, by decide⟩⟩

/-- Node 0 starts an election, and node 2 gets its ELECTION message only after node 1
has been told of the leader. -/
def toldInBetween : List BullyAction :=
  [.startElection 0, .resume 0, .resume 0, .resume 0, .deliver 0, .resume 0,
    .resume 0, .resume 0, .resume 0, .resume 0, .resume 0, .resume 0, .deliver 0,
    .resume 0, .deliver 0, .resume 0, .deliver 0, .deliver 0, .resume 0, .resume 0,
    .resume 0, .resume 0, .deliver 1, .deliver 0, .resume 0, .resume 0, .resume 0,
    .resume 0, .resume 0, .resume 0, .resume 0, .deliver 0, .resume 0, .deliver 0,
    .resume 0, .deliver 0]

/-- The bound is reached. -/
theorem toldInBetween_bullyCost :
    ∃ t, run (step threeUp) new toldInBetween = some t ∧
      toldInBetween.countP BullyAction.isDelivery = 10 ∧
      ((toldInBetween.filterMap BullyAction.starter).map fun n =>
        spread (threeUp.live.card - 1) 0 2 (threeUp.above n)).sum = 10 ∧
      toldInBetween.countP BullyAction.isDelivery + t.network.length ≤
        ((toldInBetween.filterMap BullyAction.starter).map fun n =>
          spread (threeUp.live.card - 1) 0 2 (threeUp.above n)).sum ∧
      toldInBetween.length ≤
        ((toldInBetween.filterMap BullyAction.starter).map fun n =>
          1 + spread (2 * threeUp.nodes.length + 2 * threeUp.live.card + 2)
            (threeUp.nodes.length + 2) 4 (threeUp.above n)).sum := by
  have hruns : (run (step threeUp) new toldInBetween).isSome = true := by
    decide +kernel
  obtain ⟨t, ht⟩ := Option.isSome_iff_exists.mp hruns
  exact ⟨t, ht, by decide, by decide,
    run_bullyCost threeUp (by decide) toldInBetween t ht⟩

end BullySystem

end DistributedMemory.Election
