import DistributedMemory.Election.RingLeader
import DistributedMemory.Library.Budget
import Mathlib.Algebra.BigOperators.Group.List.Basic
import Mathlib.Algebra.Order.Ring.Nat

/-!
# What an election in the ring costs

A token goes on to the highest live node at most, under whatever candidate; from
there the token of the highest node goes once round, and so does its announcement.
Each message is worth the messages that can still come of it.
-/

namespace DistributedMemory.Election

open DistributedMemory.Library
open DistributedMemory.Network (NodeId)

namespace RingAction

def isStart : RingAction → Bool
  | .startElection _ => true
  | _ => false

def isDelivery : RingAction → Bool
  | .deliver _ => true
  | _ => false

def isResume : RingAction → Bool
  | .resume _ => true
  | _ => false

private theorem count_kinds (actions : List RingAction) :
    actions.length = actions.countP isStart + actions.countP isDelivery +
      actions.countP isResume := by
  induction actions with
  | nil => rfl
  | cons a rest ih =>
      simp only [List.length_cons, List.countP_cons, ih]
      cases a <;> simp [isStart, isDelivery, isResume] <;> omega

end RingAction

namespace RingConfig

variable (c : RingConfig)

/-- The sends that bring a message from `n` to the highest node, where the highest
node itself sends it once round. -/
def ahead (n : NodeId) : Nat := (c.live.filter fun x => c.rank n ≤ c.rank x).card

def left (n : NodeId) : Nat := if n = c.highest then 0 else c.ahead n

theorem ahead_highest : c.ahead c.highest = c.live.card := by
  simp [ahead, c.rank_highest]

private theorem ahead_lt {n : NodeId} (hn : n ∈ c.live) (hne : n ≠ c.highest) :
    c.ahead n < c.live.card := by
  have hpos := c.rank_pos hn hne
  apply Finset.card_lt_card
  rw [Finset.ssubset_iff_of_subset (Finset.filter_subset _ _)]
  refine ⟨c.highest, c.highest_live, ?_⟩
  rw [Finset.mem_filter, c.rank_highest]
  omega

private theorem left_le_ahead (n : NodeId) : c.left n ≤ c.ahead n := by
  unfold left
  split <;> omega

theorem ahead_follows {n m : NodeId} (hn : n ∈ c.live) (hm : m ∈ c.live)
    (h : RingSystem.Follows c n m) : c.ahead n = c.left m + 1 := by
  rcases h with ⟨hbeyond, hnearest⟩ | ⟨rfl, hlast⟩
  · have hne : m ≠ c.highest := by
      rintro rfl
      rw [c.rank_highest] at hbeyond
      omega
    have hsplit : (c.live.filter fun x => c.rank n ≤ c.rank x) =
        insert n (c.live.filter fun x => c.rank m ≤ c.rank x) := by
      ext x
      simp only [Finset.mem_filter, Finset.mem_insert]
      constructor
      · rintro ⟨hx, hle⟩
        rcases Nat.eq_or_lt_of_le hle with heq | hlt
        · exact .inl (c.eq_of_rank_eq hx hn heq.symm)
        · exact .inr ⟨hx, hnearest x hx hlt⟩
      · rintro (rfl | ⟨hx, hle⟩)
        · exact ⟨hn, Nat.le_refl _⟩
        · exact ⟨hx, by omega⟩
    have hfresh : n ∉ c.live.filter fun x => c.rank m ≤ c.rank x := by
      rw [Finset.mem_filter]
      omega
    rw [left, if_neg hne, ahead, hsplit, Finset.card_insert_of_notMem hfresh,
      ahead]
  · have honly : (c.live.filter fun x => c.rank n ≤ c.rank x) = {n} := by
      ext x
      simp only [Finset.mem_filter, Finset.mem_singleton]
      constructor
      · rintro ⟨hx, hle⟩
        exact c.eq_of_rank_eq hx hn (Nat.le_antisymm (hlast x hx) hle)
      · rintro rfl
        exact ⟨hn, Nat.le_refl _⟩
    rw [left, if_pos rfl, ahead, honly, Finset.card_singleton]

/-- What the rounds of the highest node cost that a token with this candidate leads
to. -/
def rounds (cand : NodeId) : Nat :=
  if cand = c.highest then c.live.card else 2 * c.live.card

theorem rounds_le (cand : NodeId) : c.rounds cand ≤ 2 * c.live.card := by
  unfold rounds
  split <;> omega

def taskCost (n : NodeId) : RingTask → Nat
  | .passElection cand => c.ahead n + c.rounds cand
  | .announce => c.ahead n
  | .adopt _ => c.left n
  | .passElected _ => c.ahead n

def messageCost (n : NodeId) : RingMsg → Nat
  | .election cand => c.left n + c.rounds cand + 1
  | .elected _ => c.left n + 1

end RingConfig

namespace RingSystem

variable {c : RingConfig} {s s' t : RingSystem} {n : NodeId}

def cost (c : RingConfig) (s : RingSystem) : Nat :=
  (s.network.map fun p => c.messageCost p.1 p.2).sum +
    (s.running.map fun p => c.taskCost p.1 p.2).sum

private theorem cost_deliver {packet : Nat} {p : NodeId × RingMsg}
    {network : List (NodeId × RingMsg)}
    (hpick : pick s.network packet = some (p, network)) :
    cost c s = cost c { s with network := network } + c.messageCost p.1 p.2 := by
  have hperm := ((pick_perm hpick).map fun p => c.messageCost p.1 p.2).sum_nat
  rw [List.map_cons, List.sum_cons] at hperm
  simp only [cost]
  omega

private theorem cost_resume {task : Nat} {p : NodeId × RingTask}
    {running : List (NodeId × RingTask)}
    (hpick : pick s.running task = some (p, running)) :
    cost c s = cost c { s with running := running } + c.taskCost p.1 p.2 := by
  have hperm := ((pick_perm hpick).map fun p => c.taskCost p.1 p.2).sum_nat
  rw [List.map_cons, List.sum_cons] at hperm
  simp only [cost]
  omega

@[simp] theorem cost_setNode (s : RingSystem) (n : NodeId)
    (e : ChangRobertsElection) : cost c (s.setNode n e) = cost c s := rfl

@[simp] theorem cost_later (s : RingSystem) (n : NodeId) (todo : RingTask) :
    cost c (s.later n todo) = cost c s + c.taskCost n todo := by
  simp only [cost, later, List.map_cons, List.sum_cons]
  omega

private theorem cost_sendToSuccessor (hn : n ∈ c.live) (s : RingSystem) :
    (∀ cand, cost c (s.sendToSuccessor c n (.election cand)) =
      cost c s + c.ahead n + c.rounds cand) ∧
    ∀ leaderId, cost c (s.sendToSuccessor c n (.elected leaderId)) =
      cost c s + c.ahead n := by
  constructor
  · intro cand
    obtain ⟨m, hm, hfollows, heq⟩ := sendToSuccessor_eq hn s (.election cand)
    have hahead := c.ahead_follows hn hm hfollows
    rw [heq]
    simp only [cost, List.map_cons, List.sum_cons, RingConfig.messageCost]
    omega
  · intro leaderId
    obtain ⟨m, hm, hfollows, heq⟩ := sendToSuccessor_eq hn s (.elected leaderId)
    have hahead := c.ahead_follows hn hm hfollows
    rw [heq]
    simp only [cost, List.map_cons, List.sum_cons, RingConfig.messageCost]
    omega

theorem cost_startElection (hn : n ∈ c.live) (s : RingSystem) :
    cost c (s.startElection n) ≤ cost c s + (3 * c.live.card - 1) := by
  have hseveral := c.several
  simp only [startElection, cost_later, cost_setNode, RingConfig.taskCost]
  by_cases hhigh : n = c.highest
  · rw [hhigh, c.ahead_highest, RingConfig.rounds, if_pos rfl]
    omega
  · have hlt := c.ahead_lt hn hhigh
    have hle := c.rounds_le n
    omega

theorem cost_handle (s : RingSystem) {msg : RingMsg} (hn : n ∈ c.live)
    (hfits : Fits c n (.message msg)) :
    cost c (s.handle (n, msg)) + 1 ≤ cost c s + c.messageCost n msg := by
  have hle := c.left_le_ahead n
  cases msg with
  | election cand =>
      have hcand : cand ≤ c.highest := c.le_highest hfits.1
      simp only [handle, handleElectionRing, RingConfig.messageCost]
      split
      · next hraised =>
        -- The highest node is raised by nobody.
        have hleft : c.left n = c.ahead n := by
          rw [RingConfig.left, if_neg]
          rintro rfl
          exact Nat.not_lt.mpr hcand hraised
        simp only [cost_later, cost_setNode, RingConfig.taskCost]
        omega
      · split
        · next hhigher =>
          have hrounds : c.rounds cand = 2 * c.live.card := by
            rw [RingConfig.rounds, if_neg]
            rintro rfl
            exact Nat.not_lt.mpr (c.le_highest hn) hhigher
          split
          · omega
          · simp only [cost_later, cost_setNode, RingConfig.taskCost]
            have hbound : c.ahead n + c.rounds n ≤ c.left n + 2 * c.live.card := by
              by_cases hhigh : n = c.highest
              · rw [hhigh, c.ahead_highest, RingConfig.rounds, if_pos rfl]
                omega
              · have hn' := c.rounds_le n
                rw [RingConfig.left, if_neg hhigh]
                omega
            omega
        · next hnothigher =>
          have hown : cand = n :=
            Nat.le_antisymm (Nat.not_lt.mp ‹_›) (Nat.not_lt.mp hnothigher)
          simp only [cost_later, cost_setNode, RingConfig.taskCost]
          have hbound : c.ahead n ≤ c.left n + c.rounds cand := by
            subst hown
            by_cases hhigh : cand = c.highest
            · rw [RingConfig.rounds, if_pos hhigh, hhigh, c.ahead_highest]
              omega
            · rw [RingConfig.left, if_neg hhigh]
              omega
          omega
  | elected leaderId =>
      simp only [handle, handleElectedRing, cost_later, cost_setNode,
        RingConfig.taskCost, RingConfig.messageCost]
      omega

theorem cost_execute (s : RingSystem) {todo : RingTask} (hn : n ∈ c.live)
    (hfits : Fits c n (.task todo)) :
    cost c (s.execute c (n, todo)) ≤ cost c s + c.taskCost n todo := by
  obtain ⟨helection, helected⟩ := cost_sendToSuccessor hn s
  cases todo with
  | passElection cand =>
      simp only [execute, RingConfig.taskCost, helection]
      omega
  | announce =>
      simp only [execute, RingConfig.taskCost, cost_setNode, helected]
      omega
  | adopt leaderId =>
      simp only [execute, RingConfig.taskCost]
      split
      · next hother =>
        -- Only the highest node does not send the announcement on.
        have hleft : c.left n = c.ahead n := by
          have heq : leaderId = c.highest := hfits
          rw [RingConfig.left, if_neg fun h => hother (heq.trans h.symm)]
        simp only [cost_later, cost_setNode, RingConfig.taskCost]
        omega
      · rw [cost_setNode]
        omega
  | passElected leaderId =>
      simp only [execute, RingConfig.taskCost, helected]
      omega

def startIncome (c : RingConfig) (a : RingAction) : Nat :=
  if a.isStart then 3 * c.live.card - 1 else 0

theorem cost_step {a : RingAction} (h : s.Inv c) (hstep : s.step c a = some s') :
    cost c s' + (if a.isDelivery then 1 else 0) ≤ cost c s + startIncome c a := by
  cases a with
  | startElection n =>
      obtain ⟨hn, heq⟩ := Option.ite_none_right_eq_some.mp hstep
      obtain rfl := Option.some.inj heq
      simpa [startIncome, RingAction.isStart, RingAction.isDelivery] using
        cost_startElection hn s
  | deliver packet =>
      obtain ⟨⟨⟨n, msg⟩, network⟩, hpick, rfl⟩ :=
        Option.map_eq_some_iff.mp hstep
      obtain ⟨hn, hfits⟩ := h.safe.fits n (.message msg)
        (by simp [items, mem_of_pick hpick])
      have hbefore := cost_deliver (c := c) hpick
      have hafter := cost_handle { s with network := network } hn hfits
      simp only [startIncome, RingAction.isStart, RingAction.isDelivery]
      simp only at hbefore
      simp
      omega
  | resume task =>
      obtain ⟨⟨⟨n, todo⟩, running⟩, hpick, rfl⟩ :=
        Option.map_eq_some_iff.mp hstep
      obtain ⟨hn, hfits⟩ := h.safe.fits n (.task todo)
        (by simp [items, mem_of_pick hpick])
      have hbefore := cost_resume (c := c) hpick
      have hafter := cost_execute { s with running := running } hn hfits
      simp only at hbefore
      simp [startIncome, RingAction.isStart, RingAction.isDelivery]
      omega

theorem length_le_cost (c : RingConfig) (s : RingSystem) :
    s.network.length ≤ cost c s := by
  have hsum : ∀ network : List (NodeId × RingMsg), network.length ≤
      (network.map fun p => c.messageCost p.1 p.2).sum := by
    intro network
    induction network with
    | nil => exact Nat.le_refl 0
    | cons p rest ih =>
        have hpos : 0 < c.messageCost p.1 p.2 := by
          cases p.2 <;> exact Nat.succ_pos _
        rw [List.length_cons, List.map_cons, List.sum_cons]
        omega
  exact Nat.le_add_right_of_le (hsum s.network)

/-! ## The lines that threads have left to run -/

def taskSteps : RingTask → Nat
  | .adopt _ => 2
  | _ => 1

def threadSteps (s : RingSystem) : Nat :=
  (s.running.map fun p => taskSteps p.2).sum

private theorem threadSteps_resume {task : Nat} {p : NodeId × RingTask}
    {running : List (NodeId × RingTask)}
    (hpick : pick s.running task = some (p, running)) :
    threadSteps s = threadSteps { s with running := running } + taskSteps p.2 := by
  have hperm := ((pick_perm hpick).map fun p => taskSteps p.2).sum_nat
  rw [List.map_cons, List.sum_cons] at hperm
  simp only [threadSteps]
  omega

@[simp] theorem threadSteps_later (s : RingSystem) (n : NodeId)
    (todo : RingTask) :
    threadSteps (s.later n todo) = threadSteps s + taskSteps todo := by
  simp only [threadSteps, later, List.map_cons, List.sum_cons]
  omega

@[simp] theorem threadSteps_setNode (s : RingSystem) (n : NodeId)
    (e : ChangRobertsElection) : threadSteps (s.setNode n e) = threadSteps s := rfl

@[simp] theorem threadSteps_sendToSuccessor (s : RingSystem) (n : NodeId)
    (msg : RingMsg) : threadSteps (s.sendToSuccessor c n msg) = threadSteps s := by
  unfold sendToSuccessor
  split <;> rfl

private theorem threadSteps_handle (s : RingSystem) (n : NodeId) (msg : RingMsg) :
    threadSteps (s.handle (n, msg)) ≤ threadSteps s + 2 := by
  cases msg with
  | election cand =>
      simp only [handle, handleElectionRing]
      split
      · simp [taskSteps]
      · split
        · split
          · omega
          · simp [taskSteps]
        · simp [taskSteps]
  | elected leaderId => simp [handle, handleElectedRing, taskSteps]

private theorem threadSteps_execute (s : RingSystem) (n : NodeId) (todo : RingTask) :
    threadSteps (s.execute c (n, todo)) + 1 ≤ threadSteps s + taskSteps todo := by
  cases todo with
  | passElection cand => simp [execute, taskSteps]
  | announce => simp [execute, taskSteps]
  | adopt leaderId =>
      simp only [execute, taskSteps]
      split <;> simp [taskSteps]
  | passElected leaderId => simp [execute, taskSteps]

def threadIncome (a : RingAction) : Nat :=
  (if a.isStart then 1 else 0) + if a.isDelivery then 2 else 0

private theorem threadSteps_step {a : RingAction} (hstep : s.step c a = some s') :
    threadSteps s' + (if a.isResume then 1 else 0) ≤
      threadSteps s + threadIncome a := by
  cases a with
  | startElection n =>
      obtain ⟨-, heq⟩ := Option.ite_none_right_eq_some.mp hstep
      obtain rfl := Option.some.inj heq
      simp [startElection, taskSteps, threadIncome, RingAction.isStart,
        RingAction.isDelivery, RingAction.isResume]
  | deliver packet =>
      obtain ⟨⟨⟨n, msg⟩, network⟩, -, rfl⟩ := Option.map_eq_some_iff.mp hstep
      exact threadSteps_handle { s with network := network } n msg
  | resume task =>
      obtain ⟨⟨⟨n, todo⟩, running⟩, hpick, rfl⟩ :=
        Option.map_eq_some_iff.mp hstep
      have hbefore := threadSteps_resume hpick
      have hafter := threadSteps_execute (c := c) { s with running := running } n
        todo
      simp only at hbefore
      simp [threadIncome, RingAction.isStart, RingAction.isDelivery,
        RingAction.isResume]
      omega

/-- With `k` live nodes, at least two, every start of an election pays for `3 * k - 1`
messages, and for no more than `9 * k - 1` steps in all. -/
theorem run_ringCost (c : RingConfig) (actions : List RingAction) (t : RingSystem)
    (hrun : run (step c) new actions = some t) :
    actions.countP RingAction.isDelivery + t.network.length ≤
      (3 * c.live.card - 1) * actions.countP RingAction.isStart ∧
    actions.length ≤
      (9 * c.live.card - 1) * actions.countP RingAction.isStart := by
  have hfree : Along (step c) (fun _ _ => True) new actions :=
    along_of_forall (fun _ _ => trivial) new actions
  have hmessages := run_afford (cost c) (fun _ => 0)
    (fun a => if a.isDelivery then 1 else 0) (startIncome c)
    (fun s a s' h _ hstep => ⟨Inv.step h hstep, cost_step h hstep⟩) (inv_new c)
    hfree hrun
  have hsteps := run_afford (I := fun _ => True) threadSteps (fun _ => 0)
    (fun a => if a.isResume then 1 else 0) threadIncome
    (fun s a s' _ _ hstep => ⟨trivial, threadSteps_step hstep⟩) trivial hfree hrun
  have hincome : (actions.map (startIncome c)).sum =
      (3 * c.live.card - 1) * actions.countP RingAction.isStart :=
    sum_map_ite actions RingAction.isStart _
  have hthreads : (actions.map threadIncome).sum =
      1 * actions.countP RingAction.isStart +
        2 * actions.countP RingAction.isDelivery := by
    rw [← sum_map_ite, ← sum_map_ite, ← List.sum_map_add]
    rfl
  rw [sum_map_ite, hincome] at hmessages
  rw [sum_map_ite, hthreads] at hsteps
  have hcost : cost c new = 0 := rfl
  have hstart : threadSteps new = 0 := rfl
  have hflight := length_le_cost c t
  refine ⟨by omega, ?_⟩
  have hsplit : 9 * c.live.card - 1 = 3 * (3 * c.live.card - 1) + 2 := by
    have hseveral := c.several
    omega
  have hkinds := RingAction.count_kinds actions
  rw [hsplit, Nat.add_mul, Nat.mul_assoc]
  omega

/-- The bound is reached: the election of `oneStarter`, and node 0 is the first live
node after the highest. -/
theorem oneStarter_ringCost : ∃ t, run (step threeLive) new oneStarter = some t ∧
    oneStarter.countP RingAction.isDelivery = 3 * threeLive.live.card - 1 ∧
    oneStarter.countP RingAction.isDelivery + t.network.length ≤
      (3 * threeLive.live.card - 1) * oneStarter.countP RingAction.isStart ∧
    oneStarter.length ≤
      (9 * threeLive.live.card - 1) * oneStarter.countP RingAction.isStart := by
  have hruns : (run (step threeLive) new oneStarter).isSome = true := by
    decide +kernel
  obtain ⟨t, ht⟩ := Option.isSome_iff_exists.mp hruns
  exact ⟨t, ht, by decide, run_ringCost threeLive oneStarter t ht⟩

end RingSystem

end DistributedMemory.Election
