import DistributedMemory.Election.ChangRoberts

/-!
# Chang-Roberts elects the highest live node

Positions are counted along the ring from the highest live node, which has
position 0.  A token whose candidate is not the highest node has not passed that
node yet, so its position is beyond that of its candidate, and it never comes back
to the candidate: nobody else becomes leader.

Until the highest node has announced itself no participant forgets that it takes
part, so the largest participant has a token under way.  After the announcement,
every live node either has the right leader or has an ELECTED message before it.
-/

namespace DistributedMemory.Election

open DistributedMemory.Library
open DistributedMemory.Network (NodeId)

/-! ## The next live node -/

namespace RingConfig

variable (c : RingConfig)

private theorem live_nonempty : c.live.Nonempty :=
  Finset.card_pos.mp (Nat.lt_of_succ_lt c.several)

/-- The highest live id. -/
def highest : NodeId := c.live.max' c.live_nonempty

theorem highest_live : c.highest ∈ c.live := c.live.max'_mem _

theorem le_highest {n : NodeId} (h : n ∈ c.live) : n ≤ c.highest :=
  c.live.le_max' n h

theorem highest_onRing : c.highest ∈ c.order :=
  c.onRing _ c.highest_live

def place (k : Nat) : NodeId := Cycle.place c.order c.highest k

def rank (n : NodeId) : Nat := Cycle.position c.order c.highest n

theorem rank_lt (n : NodeId) : c.rank n < c.order.length :=
  Cycle.position_lt c.highest_onRing n

theorem rank_highest : c.rank c.highest = 0 :=
  Cycle.position_start c.nodup c.highest_onRing

theorem place_rank {n : NodeId} (h : n ∈ c.live) : c.place (c.rank n) = n :=
  Cycle.place_position c.highest_onRing (c.onRing n h)

theorem eq_of_rank_eq {m n : NodeId} (hm : m ∈ c.live) (hn : n ∈ c.live)
    (h : c.rank m = c.rank n) : m = n := by
  rw [← c.place_rank hm, h, c.place_rank hn]

theorem rank_pos {n : NodeId} (hn : n ∈ c.live) (hne : n ≠ c.highest) :
    0 < c.rank n :=
  Cycle.position_pos c.highest_onRing (c.onRing n hn) hne

private theorem successorOf_spec {n : NodeId} (hn : n ∈ c.live) :
    ∃ m ∈ c.live, c.successorOf n = some m ∧
      ((c.rank n < c.rank m ∧
          ∀ x ∈ c.live, c.rank n < c.rank x → c.rank m ≤ c.rank x) ∨
        (m = c.highest ∧ ∀ x ∈ c.live, c.rank x ≤ c.rank n)) := by
  rcases successorOf_cases (· ∈ c.live) c.nodup (c.onRing n hn) with
    ⟨m, -, hne, hm, hnearest, hresult⟩ | ⟨hnone, -⟩
  · refine ⟨m, hm, hresult, ?_⟩
    have hcases := Cycle.nearest_cases c.nodup c.highest_onRing c.onRing
      (c.onRing n hn) hm hne fun x hx hxn => hnearest x (c.onRing x hx) hxn hx
    rcases hcases with hbeyond | ⟨hlast, hfirst⟩
    · exact .inl hbeyond
    · right
      refine ⟨c.eq_of_rank_eq hm c.highest_live ?_, hlast⟩
      have hle : c.rank m ≤ c.rank c.highest := hfirst _ c.highest_live
      rw [c.rank_highest] at hle ⊢
      exact Nat.le_zero.mp hle
  · -- There is another live node.
    exfalso
    obtain ⟨a, ha, b, hb, hab⟩ := Finset.one_lt_card.mp c.several
    by_cases han : a = n
    · exact hnone b (c.onRing b hb) (fun hbn => hab (han.trans hbn.symm)) hb
    · exact hnone a (c.onRing a ha) han ha

end RingConfig

/-! ## What a step does -/

inductive RingItem where
  | message (msg : RingMsg)
  | task (todo : RingTask)

namespace RingItem

def candidate? : RingItem → Option NodeId
  | .message (.election candidateId) => some candidateId
  | .task (.passElection candidateId) => some candidateId
  | _ => none

def leader? (n : NodeId) : RingItem → Option NodeId
  | .message (.elected leaderId) => some leaderId
  | .task .announce => some n
  | .task (.adopt leaderId) => some leaderId
  | .task (.passElected leaderId) => some leaderId
  | _ => none

end RingItem

namespace RingSystem

def items (s : RingSystem) : List (NodeId × RingItem) :=
  s.network.map (fun (n, msg) => (n, .message msg)) ++
    s.running.map (fun (n, todo) => (n, .task todo))

/-- A step at node `n` takes the item `gone` away and puts `fresh` in; `rest` is
what stays. -/
structure Effect (s s' : RingSystem) (n : NodeId)
    (gone fresh : Option (NodeId × RingItem))
    (rest : List (NodeId × RingItem)) : Prop where
  elsewhere : ∀ q, q ≠ n → s'.node q = s.node q
  before : s.items.Perm (gone.toList ++ rest)
  after : s'.items.Perm (fresh.toList ++ rest)

section Effect

variable {s s' : RingSystem} {n : NodeId} {gone fresh : Option (NodeId × RingItem)}
  {rest : List (NodeId × RingItem)}

theorem Effect.mem_before (h : Effect s s' n gone fresh rest)
    {x : NodeId × RingItem} : x ∈ s.items ↔ gone = some x ∨ x ∈ rest := by
  rw [h.before.mem_iff, List.mem_append, Option.mem_toList]

theorem Effect.mem_after (h : Effect s s' n gone fresh rest)
    {x : NodeId × RingItem} : x ∈ s'.items ↔ fresh = some x ∨ x ∈ rest := by
  rw [h.after.mem_iff, List.mem_append, Option.mem_toList]

theorem Effect.kept (h : Effect s s' n gone fresh rest)
    {x : NodeId × RingItem} (hx : x ∈ s.items) (hne : gone ≠ some x) :
    x ∈ s'.items :=
  h.mem_after.mpr (.inr ((h.mem_before.mp hx).resolve_left hne))

theorem Effect.came (h : Effect s s' n gone fresh rest)
    {x : NodeId × RingItem} (hx : x ∈ s'.items) :
    x ∈ s.items ∨ fresh = some x := by
  rcases h.mem_after.mp hx with hx | hx
  · exact .inr hx
  · exact .inl (h.mem_before.mpr (.inr hx))

private theorem effect_start {todo : RingTask}
    (helsewhere : ∀ q, q ≠ n → s'.node q = s.node q)
    (hnetwork : s'.network = s.network)
    (hrunning : s'.running = (n, todo) :: s.running) :
    ∃ rest, Effect s s' n none (some (n, .task todo)) rest := by
  refine ⟨s.items, helsewhere, List.Perm.refl _, ?_⟩
  rw [items, hnetwork, hrunning]
  exact List.perm_middle

theorem effect_deliver {packet : Nat} {msg : RingMsg}
    {network : List (NodeId × RingMsg)}
    (hpick : pick s.network packet = some ((n, msg), network))
    (helsewhere : ∀ q, q ≠ n → s'.node q = s.node q)
    (hnetwork : s'.network = network) (todo : Option RingTask)
    (hrunning : s'.running =
      (todo.map fun todo => (n, todo)).toList ++ s.running) :
    ∃ rest, Effect s s' n (some (n, .message msg))
      (todo.map fun todo => (n, .task todo)) rest := by
  refine ⟨({ s with network := network } : RingSystem).items, helsewhere, ?_,
    ?_⟩
  · exact ((pick_perm hpick).map _).append_right _
  · rw [items, hnetwork, hrunning]
    cases todo with
    | none => exact List.Perm.refl _
    | some todo => exact List.perm_middle

theorem effect_resume {task : Nat} {todo : RingTask}
    {running : List (NodeId × RingTask)}
    (hpick : pick s.running task = some ((n, todo), running))
    (helsewhere : ∀ q, q ≠ n → s'.node q = s.node q)
    (hnetwork : s'.network = s.network) (next : Option RingTask)
    (hrunning : s'.running =
      (next.map fun next => (n, next)).toList ++ running) :
    ∃ rest, Effect s s' n (some (n, .task todo))
      (next.map fun next => (n, .task next)) rest := by
  refine ⟨({ s with running := running } : RingSystem).items, helsewhere, ?_,
    ?_⟩
  · exact (((pick_perm hpick).map _).append_left _).trans List.perm_middle
  · rw [items, hnetwork, hrunning]
    cases next with
    | none => exact List.Perm.refl _
    | some next => exact List.perm_middle

theorem effect_send {task : Nat} {todo : RingTask}
    {running : List (NodeId × RingTask)}
    (hpick : pick s.running task = some ((n, todo), running))
    (helsewhere : ∀ q, q ≠ n → s'.node q = s.node q) {target : NodeId}
    {msg : RingMsg} (hnetwork : s'.network = (target, msg) :: s.network)
    (hrunning : s'.running = running) :
    ∃ rest, Effect s s' n (some (n, .task todo)) (some (target, .message msg))
      rest := by
  refine ⟨({ s with running := running } : RingSystem).items, helsewhere, ?_,
    ?_⟩
  · exact (((pick_perm hpick).map _).append_left _).trans List.perm_middle
  · rw [items, hnetwork, hrunning]
    exact List.Perm.refl _

end Effect

def Follows (c : RingConfig) (n m : NodeId) : Prop :=
  (c.rank n < c.rank m ∧
      ∀ x ∈ c.live, c.rank n < c.rank x → c.rank m ≤ c.rank x) ∨
    (m = c.highest ∧ ∀ x ∈ c.live, c.rank x ≤ c.rank n)

/-- Node `n` sends `msg` on; only `electionComplete` may change. -/
structure Sends (c : RingConfig) (s s' : RingSystem) (n : NodeId)
    (todo : RingTask) (msg : RingMsg) : Prop where
  effect : ∃ m ∈ c.live, Follows c n m ∧ ∃ rest,
    Effect s s' n (some (n, .task todo)) (some (m, .message msg)) rest
  participant : (s'.node n).participant = (s.node n).participant
  leader : (s'.node n).leaderId = (s.node n).leaderId

/-- Node `n` takes part, and a token with candidate `cand` is to be sent. -/
structure Enters (s s' : RingSystem) (n cand : NodeId)
    (gone : Option (NodeId × RingItem)) : Prop where
  effect : ∃ rest, Effect s s' n gone (some (n, .task (.passElection cand))) rest
  participant : (s'.node n).participant = true
  leader : (s'.node n).leaderId = (s.node n).leaderId

inductive Move (c : RingConfig) (s s' : RingSystem) : Prop where
  | started (n : NodeId) (live : n ∈ c.live) (enters : Enters s s' n n none)
  | raised (n cand : NodeId) (lower : n < cand)
      (enters : Enters s s' n cand (some (n, .message (.election cand))))
  | replaced (n cand : NodeId) (higher : cand < n)
      (enters : Enters s s' n n (some (n, .message (.election cand))))
  | swallowed (n cand : NodeId) (higher : cand < n)
      (participant : (s.node n).participant = true) (node : s'.node = s.node)
      (effect : ∃ rest,
        Effect s s' n (some (n, .message (.election cand))) none rest)
  | won (n : NodeId) (leader : (s'.node n).leaderId = some n)
      (effect : ∃ rest, Effect s s' n (some (n, .message (.election n)))
        (some (n, .task .announce)) rest)
  | heard (n leaderId : NodeId)
      (leader : (s'.node n).leaderId = (s.node n).leaderId)
      (effect : ∃ rest, Effect s s' n (some (n, .message (.elected leaderId)))
        (some (n, .task (.adopt leaderId))) rest)
  | passed (n cand : NodeId)
      (sends : Sends c s s' n (.passElection cand) (.election cand))
  | announced (n : NodeId) (sends : Sends c s s' n .announce (.elected n))
  | adopted (n leaderId : NodeId) (leader : (s'.node n).leaderId = some leaderId)
      (effect : ∃ rest, Effect s s' n (some (n, .task (.adopt leaderId)))
        (if leaderId ≠ n then some (n, .task (.passElected leaderId)) else none)
        rest)
  | relayed (n leaderId : NodeId)
      (sends : Sends c s s' n (.passElected leaderId) (.elected leaderId))

section Step

variable {c : RingConfig} {s s' : RingSystem}

theorem setNode_elsewhere (s : RingSystem) {n q : NodeId} (hq : q ≠ n)
    (e : ChangRobertsElection) : (s.setNode n e).node q = s.node q :=
  Function.update_of_ne hq _ _

theorem setNode_here (s : RingSystem) (n : NodeId) (e : ChangRobertsElection) :
    (s.setNode n e).node n = e :=
  Function.update_self _ _ _

theorem sendToSuccessor_eq {n : NodeId} (hn : n ∈ c.live) (s : RingSystem)
    (msg : RingMsg) :
    ∃ m ∈ c.live, Follows c n m ∧ s.sendToSuccessor c n msg =
      { s with network := (m, msg) :: s.network } := by
  obtain ⟨m, hm, hnext, hfollows⟩ := c.successorOf_spec hn
  refine ⟨m, hm, hfollows, ?_⟩
  unfold sendToSuccessor
  rw [hnext]

private theorem move_deliver {packet : Nat} {n : NodeId} {msg : RingMsg}
    {network : List (NodeId × RingMsg)}
    (hpick : pick s.network packet = some ((n, msg), network)) :
    Move c s ({ s with network := network }.handle (n, msg)) := by
  cases msg with
  | election cand =>
      simp only [handle, handleElectionRing]
      by_cases hlower : cand > n
      · rw [if_pos hlower]
        refine .raised n cand hlower ⟨?_, ?_, ?_⟩
        · exact effect_deliver hpick
            (fun q hq => by exact setNode_elsewhere _ hq _) (by rfl)
            (some (.passElection cand)) (by rfl)
        · simp [later, setNode_here]
        · simp [later, setNode_here]
      · rw [if_neg hlower]
        by_cases hhigher : cand < n
        · rw [if_pos hhigher]
          by_cases hpart : (s.node n).participant = true
          · rw [if_pos hpart]
            refine .swallowed n cand hhigher hpart rfl ?_
            exact effect_deliver hpick (fun q hq => by rfl) (by rfl) none
              (by rfl)
          · rw [if_neg hpart]
            refine .replaced n cand hhigher ⟨?_, ?_, ?_⟩
            · exact effect_deliver hpick
                (fun q hq => by exact setNode_elsewhere _ hq _) (by rfl)
                (some (.passElection n)) (by rfl)
            · simp [later, setNode_here]
            · simp [later, setNode_here]
        · rw [if_neg hhigher]
          obtain rfl : cand = n :=
            Nat.le_antisymm (Nat.le_of_not_lt hlower) (Nat.le_of_not_lt hhigher)
          refine .won cand (by simp [later, setNode_here]) ?_
          exact effect_deliver hpick
            (fun q hq => by exact setNode_elsewhere _ hq _) (by rfl)
            (some .announce) (by rfl)
  | elected leaderId =>
      refine .heard n leaderId ?_ ?_
      · simp [handle, handleElectedRing, later, setNode_here]
      · exact effect_deliver hpick
          (fun q hq => by exact setNode_elsewhere _ hq _) (by rfl)
          (some (.adopt leaderId)) (by rfl)

private theorem move_resume {task : Nat} {n : NodeId} {todo : RingTask}
    {running : List (NodeId × RingTask)}
    (hpick : pick s.running task = some ((n, todo), running))
    (hn : n ∈ c.live) :
    Move c s ({ s with running := running }.execute c (n, todo)) := by
  cases todo with
  | passElection cand =>
      obtain ⟨m, hm, hfollows, heq⟩ := sendToSuccessor_eq hn
        { s with running := running } (.election cand)
      simp only [execute, heq]
      refine .passed n cand ⟨⟨m, hm, hfollows, ?_⟩, rfl, rfl⟩
      exact effect_send hpick (fun q hq => by rfl) (by rfl) (by rfl)
  | announce =>
      obtain ⟨m, hm, hfollows, heq⟩ := sendToSuccessor_eq hn
        { s with running := running } (.elected n)
      simp only [execute, heq]
      refine .announced n ⟨⟨m, hm, hfollows, ?_⟩, ?_, ?_⟩
      · exact effect_send hpick
          (fun q hq => by exact setNode_elsewhere _ hq _) (by rfl) (by rfl)
      · rw [setNode_here]
      · rw [setNode_here]
  | adopt leaderId =>
      simp only [execute]
      by_cases hother : leaderId ≠ n
      · rw [if_pos hother]
        refine .adopted n leaderId (by simp [later, setNode_here]) ?_
        rw [if_pos hother]
        exact effect_resume hpick
          (fun q hq => by exact setNode_elsewhere _ hq _) (by rfl)
          (some (.passElected leaderId)) (by rfl)
      · rw [if_neg hother]
        refine .adopted n leaderId (by rw [setNode_here]) ?_
        rw [if_neg hother]
        exact effect_resume hpick
          (fun q hq => by exact setNode_elsewhere _ hq _) (by rfl) none (by rfl)
  | passElected leaderId =>
      obtain ⟨m, hm, hfollows, heq⟩ := sendToSuccessor_eq hn
        { s with running := running } (.elected leaderId)
      simp only [execute, heq]
      refine .relayed n leaderId ⟨⟨m, hm, hfollows, ?_⟩, rfl, rfl⟩
      exact effect_send hpick (fun q hq => by rfl) (by rfl) (by rfl)

theorem move_of_step {a : RingAction}
    (hlive : ∀ n todo, (n, todo) ∈ s.running → n ∈ c.live)
    (hstep : s.step c a = some s') : Move c s s' := by
  cases a with
  | startElection n =>
      obtain ⟨hn, heq⟩ := Option.ite_none_right_eq_some.mp hstep
      obtain rfl := Option.some.inj heq
      refine .started n hn ⟨?_, ?_, ?_⟩
      · exact effect_start (fun q hq => by exact setNode_elsewhere _ hq _)
          (by rfl) (by rfl)
      · simp [startElection, later, setNode_here]
      · simp [startElection, later, setNode_here]
  | deliver packet =>
      obtain ⟨⟨⟨n, msg⟩, network⟩, hpick, rfl⟩ :=
        Option.map_eq_some_iff.mp hstep
      exact move_deliver hpick
  | resume task =>
      obtain ⟨⟨⟨n, todo⟩, running⟩, hpick, rfl⟩ :=
        Option.map_eq_some_iff.mp hstep
      exact move_resume hpick (hlive n todo (mem_of_pick hpick))

end Step

/-! ## The invariant -/

def Announced (c : RingConfig) (s : RingSystem) : Prop :=
  (s.node c.highest).leaderId = some c.highest

/-- Where an item may be: a token of another candidate than the highest node is
beyond its candidate, unless it has come to the highest node; an announcement is
that of the highest node. -/
def Fits (c : RingConfig) (n : NodeId) : RingItem → Prop
  | .message (.election cand) =>
      cand ∈ c.live ∧
        (cand = c.highest ∨ n = c.highest ∨ c.rank cand < c.rank n)
  | .task (.passElection cand) =>
      cand ∈ c.live ∧ (cand = c.highest ∨ c.rank cand ≤ c.rank n)
  | .message (.elected leaderId) => leaderId = c.highest
  | .task .announce => n = c.highest
  | .task (.adopt leaderId) => leaderId = c.highest
  | .task (.passElected leaderId) => leaderId = c.highest

def Covers (c : RingConfig) (n x : NodeId) : RingItem → Prop
  | .message (.elected _) => 0 < c.rank n ∧ c.rank n ≤ c.rank x
  | .task (.adopt _) => 0 < c.rank n ∧ c.rank n ≤ c.rank x
  | .task .announce => c.rank n < c.rank x
  | .task (.passElected _) => c.rank n < c.rank x
  | .message (.election _) => False
  | .task (.passElection _) => False

def Offered (s : RingSystem) (cand : NodeId) : Prop :=
  ∃ n item, (n, item) ∈ s.items ∧ item.candidate? = some cand

structure Safe (c : RingConfig) (s : RingSystem) : Prop where
  fits : ∀ n item, (n, item) ∈ s.items → n ∈ c.live ∧ Fits c n item
  leaders : ∀ n leaderId, (s.node n).leaderId = some leaderId →
    leaderId = c.highest
  heralds : ∀ n item leaderId, (n, item) ∈ s.items →
    item.leader? n = some leaderId → s.Announced c

/-- Candidates take part, and the largest participant has a token under way. -/
structure Undecided (s : RingSystem) : Prop where
  candidates : ∀ cand, s.Offered cand → (s.node cand).participant = true
  largest : (∃ q, (s.node q).participant = true) →
    ∃ cand, s.Offered cand ∧ ∀ q, (s.node q).participant = true → q ≤ cand

def Told (c : RingConfig) (s : RingSystem) (x : NodeId) : Prop :=
  (s.node x).leaderId = some c.highest ∨
    ∃ n item, (n, item) ∈ s.items ∧ Covers c n x item

structure Inv (c : RingConfig) (s : RingSystem) : Prop where
  safe : s.Safe c
  undecided : ¬ s.Announced c → s.Undecided
  told : s.Announced c → ∀ x ∈ c.live, s.Told c x

theorem inv_new (c : RingConfig) : new.Inv c := by
  refine ⟨⟨by simp [new, items], ?_, by simp [new, items]⟩, fun _ => ⟨?_, ?_⟩,
    fun h => ?_⟩
  · intro n leaderId h
    cases h
  · rintro cand ⟨n, item, hmem, -⟩
    simp [new, items] at hmem
  · rintro ⟨q, hq⟩
    cases hq
  · cases h

section Preservation

variable {c : RingConfig} {s s' : RingSystem} {n : NodeId}
  {gone fresh : Option (NodeId × RingItem)} {rest : List (NodeId × RingItem)}

/-- A step changes no leader but that of its node, and that only to the highest
node. -/
def LeaderKept (c : RingConfig) (s s' : RingSystem) (n : NodeId) : Prop :=
  (s'.node n).leaderId = (s.node n).leaderId ∨
    (s'.node n).leaderId = some c.highest

theorem leaderId_kept (he : Effect s s' n gone fresh rest)
    (hleader : LeaderKept c s s' n) {x : NodeId}
    (hx : (s.node x).leaderId = some c.highest) :
    (s'.node x).leaderId = some c.highest := by
  by_cases hxn : x = n
  · subst hxn
    rcases hleader with hsame | hset
    · rw [hsame, hx]
    · exact hset
  · rw [he.elsewhere x hxn, hx]

theorem Safe.effect (h : s.Safe c) (he : Effect s s' n gone fresh rest)
    (hleader : LeaderKept c s s' n)
    (hfresh : ∀ q item, fresh = some (q, item) → q ∈ c.live ∧ Fits c q item ∧
      ∀ leaderId, item.leader? q = some leaderId → s'.Announced c) :
    s'.Safe c := by
  refine ⟨fun q item hmem => ?_, fun q leaderId hq => ?_,
    fun q item leaderId hmem hitem => ?_⟩
  · rcases he.came hmem with hold | hnew
    · exact h.fits q item hold
    · exact ⟨(hfresh q item hnew).1, (hfresh q item hnew).2.1⟩
  · by_cases hqn : q = n
    · subst hqn
      rcases hleader with hsame | hset
      · exact h.leaders q leaderId (hsame ▸ hq)
      · rw [hset] at hq
        exact (Option.some.inj hq).symm
    · exact h.leaders q leaderId (he.elsewhere q hqn ▸ hq)
  · rcases he.came hmem with hold | hnew
    · exact leaderId_kept he hleader (h.heralds q item leaderId hold hitem)
    · exact (hfresh q item hnew).2.2 leaderId hitem

theorem told_effect (htold : ∀ x ∈ c.live, s.Told c x)
    (he : Effect s s' n gone fresh rest) (hleader : LeaderKept c s s' n)
    (hpass : ∀ q item x, gone = some (q, item) → x ∈ c.live →
      Covers c q x item → (s'.node x).leaderId = some c.highest ∨
        ∃ q' item', fresh = some (q', item') ∧ Covers c q' x item')
    (x : NodeId) (hx : x ∈ c.live) : s'.Told c x := by
  rcases htold x hx with hdone | ⟨q, item, hmem, hcovers⟩
  · exact .inl (leaderId_kept he hleader hdone)
  · by_cases hgone : gone = some (q, item)
    · rcases hpass q item x hgone hx hcovers with hdone | ⟨q', item', hnew, hc⟩
      · exact .inl hdone
      · exact .inr ⟨q', item', he.mem_after.mpr (.inl hnew), hc⟩
    · exact .inr ⟨q, item, he.kept hmem hgone, hcovers⟩

theorem announced_iff (he : Effect s s' n gone fresh rest)
    (hsame : (s'.node n).leaderId = (s.node n).leaderId) :
    s'.Announced c ↔ s.Announced c := by
  unfold Announced
  by_cases hn : c.highest = n
  · rw [hn, hsame]
  · rw [he.elsewhere _ hn]

theorem offered_of_fresh (he : Effect s s' n gone fresh rest) {q cand : NodeId}
    {item : RingItem} (hfresh : fresh = some (q, item))
    (hcand : item.candidate? = some cand) : s'.Offered cand :=
  ⟨q, item, he.mem_after.mpr (.inl hfresh), hcand⟩

theorem offered_kept (he : Effect s s' n gone fresh rest) {cand : NodeId}
    (h : s.Offered cand)
    (hgone : ∀ q item, gone = some (q, item) → item.candidate? ≠ some cand) :
    s'.Offered cand := by
  obtain ⟨q, item, hmem, hitem⟩ := h
  exact ⟨q, item, he.kept hmem fun heq => hgone q item heq hitem, hitem⟩

theorem offered_came (he : Effect s s' n gone fresh rest) {cand : NodeId}
    (h : s'.Offered cand) :
    s.Offered cand ∨ ∃ q item, fresh = some (q, item) ∧
      item.candidate? = some cand := by
  obtain ⟨q, item, hmem, hitem⟩ := h
  rcases he.came hmem with hold | hnew
  · exact .inl ⟨q, item, hold, hitem⟩
  · exact .inr ⟨q, item, hnew, hitem⟩

theorem Inv.enters (h : s.Inv c) {cand : NodeId}
    (henters : Enters s s' n cand gone) (hn : n ∈ c.live)
    (hcand : cand ∈ c.live ∧ (cand = c.highest ∨ c.rank cand ≤ c.rank n))
    (hle : n ≤ cand)
    (hgone : ∀ q item, gone = some (q, item) →
      ∃ old, old ≤ cand ∧ item = .message (.election old))
    (hcandidate : cand = n ∨ s.Offered cand) : s'.Inv c := by
  obtain ⟨⟨rest, he⟩, hpart, hsame⟩ := henters
  have hiff := announced_iff (c := c) he hsame
  have hparticipant : ∀ q, (s'.node q).participant = true ↔
      q = n ∨ (s.node q).participant = true := by
    intro q
    by_cases hq : q = n
    · subst hq
      simp [hpart]
    · simp [he.elsewhere q hq, hq]
  refine ⟨h.safe.effect he (.inl hsame) ?_, fun hopen => ?_, fun hdone => ?_⟩
  · rintro q item heq
    cases heq
    exact ⟨hn, hcand, fun leaderId hleader => by cases hleader⟩
  · have hold := h.undecided (fun ha => hopen (hiff.mpr ha))
    refine ⟨fun w hw => ?_, fun _ => ?_⟩
    · rw [hparticipant]
      rcases offered_came he hw with hw | ⟨q, item, heq, hitem⟩
      · exact .inr (hold.candidates w hw)
      · cases heq
        cases hitem
        exact hcandidate.imp id (hold.candidates cand)
    · have hoffered : s'.Offered cand := offered_of_fresh he rfl rfl
      by_cases hsmall : ∀ q, (s.node q).participant = true → q ≤ cand
      · refine ⟨cand, hoffered, fun q hq => ?_⟩
        rcases (hparticipant q).mp hq with rfl | hq
        · exact hle
        · exact hsmall q hq
      · -- A participant above the candidate: its token is another one.
        simp only [not_forall, Nat.not_le] at hsmall
        obtain ⟨p, hp, hlt⟩ := hsmall
        obtain ⟨w, hw, hmax⟩ := hold.largest ⟨p, hp⟩
        have hwlt : cand < w := Nat.lt_of_lt_of_le hlt (hmax p hp)
        refine ⟨w, offered_kept he hw ?_, fun q hq => ?_⟩
        · intro q item heq hitem
          obtain ⟨old, hold', rfl⟩ := hgone q item heq
          cases hitem
          exact Nat.not_le.mpr hwlt hold'
        · rcases (hparticipant q).mp hq with rfl | hq
          · exact Nat.le_of_lt (Nat.lt_of_le_of_lt hle hwlt)
          · exact hmax q hq
  · refine told_effect (h.told (hiff.mp hdone)) he (.inl hsame) ?_
    intro q item x heq _ hcovers
    obtain ⟨old, -, rfl⟩ := hgone q item heq
    cases hcovers

theorem Inv.swallowed (h : s.Inv c) {cand : NodeId} (hlt : cand < n)
    (hpart : (s.node n).participant = true) (hnode : s'.node = s.node)
    (he : Effect s s' n (some (n, .message (.election cand))) none rest) :
    s'.Inv c := by
  have hsame : (s'.node n).leaderId = (s.node n).leaderId := by rw [hnode]
  have hiff := announced_iff (c := c) he hsame
  refine ⟨h.safe.effect he (.inl hsame) (by rintro q item ⟨⟩), fun hopen => ?_,
    fun hdone => ?_⟩
  · have hold := h.undecided (fun ha => hopen (hiff.mpr ha))
    refine ⟨fun w hw => ?_, fun _ => ?_⟩
    · rcases offered_came he hw with hw | ⟨q, item, heq, -⟩
      · rw [hnode]
        exact hold.candidates w hw
      · cases heq
    · rw [hnode]
      obtain ⟨w, hw, hmax⟩ := hold.largest ⟨n, hpart⟩
      refine ⟨w, offered_kept he hw ?_, hmax⟩
      rintro q item heq hitem
      cases heq
      cases hitem
      exact absurd (hmax n hpart) (Nat.not_le.mpr hlt)
  · refine told_effect (h.told (hiff.mp hdone)) he (.inl hsame) ?_
    rintro q item x heq - hcovers
    cases heq
    cases hcovers

theorem Inv.won (h : s.Inv c) (hleader : (s'.node n).leaderId = some n)
    (he : Effect s s' n (some (n, .message (.election n)))
      (some (n, .task .announce)) rest) : s'.Inv c := by
  obtain ⟨hn, -, hplace⟩ := h.safe.fits n _ (he.mem_before.mpr (.inl rfl))
  have hhigh : n = c.highest := by
    rcases hplace with hhigh | hhigh | hlt
    · exact hhigh
    · exact hhigh
    · exact absurd hlt (Nat.lt_irrefl _)
  subst hhigh
  refine ⟨h.safe.effect he (.inr hleader) ?_, fun hopen => absurd hleader hopen,
    fun _ x hx => ?_⟩
  · rintro q item heq
    cases heq
    exact ⟨hn, rfl, fun leaderId _ => hleader⟩
  · by_cases hxn : x = c.highest
    · rw [hxn]
      exact .inl hleader
    · refine .inr ⟨c.highest, .task .announce, he.mem_after.mpr (.inl rfl), ?_⟩
      change c.rank c.highest < c.rank x
      rw [c.rank_highest]
      exact c.rank_pos hx hxn

theorem Inv.herald (h : s.Inv c) (he : Effect s s' n gone fresh rest)
    (hleader : LeaderKept c s s' n) {q : NodeId} {item : RingItem}
    {leaderId : NodeId} (hgone : gone = some (q, item))
    (hitem : item.leader? q = some leaderId)
    (hfresh : ∀ q item, fresh = some (q, item) → q ∈ c.live ∧ Fits c q item)
    (hpass : ∀ x ∈ c.live, Covers c q x item →
      (s'.node x).leaderId = some c.highest ∨
        ∃ q' item', fresh = some (q', item') ∧ Covers c q' x item') :
    s'.Inv c := by
  have hdone : s.Announced c :=
    h.safe.heralds q item leaderId (he.mem_before.mpr (.inl hgone)) hitem
  have hdone' : s'.Announced c := leaderId_kept he hleader hdone
  refine ⟨h.safe.effect he hleader fun q item heq => ?_,
    fun hopen => absurd hdone' hopen,
    fun _ => told_effect (h.told hdone) he hleader ?_⟩
  · exact ⟨(hfresh q item heq).1, (hfresh q item heq).2, fun _ _ => hdone'⟩
  · intro q' item' x heq hx hcovers
    rw [hgone] at heq
    cases heq
    exact hpass x hx hcovers

theorem Inv.passed (h : s.Inv c) {cand : NodeId}
    (hsends : Sends c s s' n (.passElection cand) (.election cand)) :
    s'.Inv c := by
  obtain ⟨⟨m, hm, hfollows, rest, he⟩, hpart, hsame⟩ := hsends
  have hiff := announced_iff (c := c) he hsame
  have hparticipant : ∀ q,
      (s'.node q).participant = (s.node q).participant := by
    intro q
    by_cases hq : q = n
    · rw [hq, hpart]
    · rw [he.elsewhere q hq]
  obtain ⟨-, hcand, hplace⟩ := h.safe.fits n _ (he.mem_before.mpr (.inl rfl))
  refine ⟨h.safe.effect he (.inl hsame) ?_, fun hopen => ?_, fun hdone => ?_⟩
  · rintro q item heq
    cases heq
    refine ⟨hm, ⟨hcand, ?_⟩, fun leaderId hleader => by cases hleader⟩
    rcases hplace with hhigh | hle
    · exact .inl hhigh
    · rcases hfollows with ⟨hlt, -⟩ | ⟨hhigh, -⟩
      · exact .inr (.inr (Nat.lt_of_le_of_lt hle hlt))
      · exact .inr (.inl hhigh)
  · have hold := h.undecided (fun ha => hopen (hiff.mpr ha))
    have hoffered : ∀ w, s'.Offered w ↔ s.Offered w := by
      intro w
      constructor
      · intro hw
        rcases offered_came he hw with hw | ⟨q, item, heq, hitem⟩
        · exact hw
        · cases heq
          exact ⟨n, _, he.mem_before.mpr (.inl rfl), hitem⟩
      · intro hw
        by_cases hwc : w = cand
        · rw [hwc]
          exact offered_of_fresh he rfl rfl
        · refine offered_kept he hw ?_
          rintro q item heq hitem
          cases heq
          cases hitem
          exact hwc rfl
    refine ⟨fun w hw => ?_, fun hsome => ?_⟩
    · rw [hparticipant]
      exact hold.candidates w ((hoffered w).mp hw)
    · simp only [hparticipant] at hsome ⊢
      obtain ⟨w, hw, hmax⟩ := hold.largest hsome
      exact ⟨w, (hoffered w).mpr hw, hmax⟩
  · refine told_effect (h.told (hiff.mp hdone)) he (.inl hsame) ?_
    rintro q item x heq - hcovers
    cases heq
    cases hcovers

theorem Inv.announces (h : s.Inv c) {todo : RingTask} {leaderId : NodeId}
    (hsends : Sends c s s' n todo (.elected leaderId))
    (hitem : (RingItem.task todo).leader? n = some leaderId)
    (hcovers : ∀ x, Covers c n x (.task todo) → c.rank n < c.rank x)
    (hhigh : leaderId = c.highest) : s'.Inv c := by
  obtain ⟨⟨m, hm, hfollows, rest, he⟩, -, hsame⟩ := hsends
  refine h.herald he (.inl hsame) rfl hitem ?_ fun x hx hcov => .inr ?_
  · rintro q item heq
    cases heq
    exact ⟨hm, hhigh⟩
  · have hlt := hcovers x hcov
    refine ⟨m, _, rfl, ?_⟩
    rcases hfollows with ⟨hnext, hgap⟩ | ⟨-, hlast⟩
    · exact ⟨Nat.lt_of_le_of_lt (Nat.zero_le _) hnext, hgap x hx hlt⟩
    · exact absurd (hlast x hx) (Nat.not_le.mpr hlt)

theorem Inv.adopted (h : s.Inv c) {leaderId : NodeId}
    (hleader : (s'.node n).leaderId = some leaderId)
    (he : Effect s s' n (some (n, .task (.adopt leaderId)))
      (if leaderId ≠ n then some (n, .task (.passElected leaderId)) else none)
      rest) : s'.Inv c := by
  obtain ⟨hn, hhigh⟩ := h.safe.fits n _ (he.mem_before.mpr (.inl rfl))
  change leaderId = c.highest at hhigh
  subst hhigh
  have hitem : (RingItem.task (.adopt c.highest)).leader? n =
      some c.highest := rfl
  refine h.herald he (.inr hleader) rfl hitem ?_ ?_
  · intro q item heq
    obtain ⟨-, heq⟩ := Option.ite_none_right_eq_some.mp heq
    cases heq
    exact ⟨hn, rfl⟩
  · rintro x hx ⟨hpos, hle⟩
    by_cases hxn : x = n
    · rw [hxn]
      exact .inl hleader
    · have hne : c.highest ≠ n := by
        intro heq
        rw [← heq, c.rank_highest] at hpos
        exact Nat.lt_irrefl _ hpos
      rw [if_pos hne]
      refine .inr ⟨n, _, rfl, Nat.lt_of_le_of_ne hle fun heq => hxn ?_⟩
      exact (c.eq_of_rank_eq hn hx heq).symm

theorem Inv.move (h : s.Inv c) (hmove : Move c s s') : s'.Inv c := by
  have htoken : ∀ {gone fresh rest n cand},
      Effect s s' n gone fresh rest →
      gone = some (n, .message (.election cand)) →
      n ∈ c.live ∧ cand ∈ c.live ∧
        (cand = c.highest ∨ n = c.highest ∨ c.rank cand < c.rank n) ∧
        s.Offered cand := by
    intro gone fresh rest n cand he hgone
    have hmem := he.mem_before.mpr (.inl hgone)
    obtain ⟨hn, hcand, hplace⟩ := h.safe.fits n _ hmem
    exact ⟨hn, hcand, hplace, n, _, hmem, rfl⟩
  cases hmove with
  | started n live henters =>
      exact h.enters henters live ⟨live, .inr (Nat.le_refl _)⟩ (Nat.le_refl n)
        (by rintro q item ⟨⟩) (.inl rfl)
  | raised n cand lower henters =>
      obtain ⟨rest, he⟩ := henters.effect
      obtain ⟨hn, hcand, hplace, hoffered⟩ := htoken he rfl
      refine h.enters henters hn ⟨hcand, ?_⟩ (Nat.le_of_lt lower) ?_
        (.inr hoffered)
      · rcases hplace with hhigh | hhigh | hlt
        · exact .inl hhigh
        · -- No candidate is above the highest node.
          rw [hhigh] at lower
          exact absurd (c.le_highest hcand) (Nat.not_le.mpr lower)
        · exact .inr (Nat.le_of_lt hlt)
      · rintro q item heq
        cases heq
        exact ⟨cand, Nat.le_refl _, rfl⟩
  | replaced n cand higher henters =>
      obtain ⟨rest, he⟩ := henters.effect
      obtain ⟨hn, -, -, -⟩ := htoken he rfl
      refine h.enters henters hn ⟨hn, .inr (Nat.le_refl _)⟩ (Nat.le_refl n) ?_
        (.inl rfl)
      rintro q item heq
      cases heq
      exact ⟨cand, Nat.le_of_lt higher, rfl⟩
  | swallowed n cand higher participant node effect =>
      obtain ⟨rest, he⟩ := effect
      exact h.swallowed higher participant node he
  | won n leader effect =>
      obtain ⟨rest, he⟩ := effect
      exact h.won leader he
  | heard n leaderId leader effect =>
      obtain ⟨rest, he⟩ := effect
      obtain ⟨hn, hhigh⟩ := h.safe.fits n _ (he.mem_before.mpr (.inl rfl))
      refine h.herald he (.inl leader) rfl rfl ?_ fun x _ hcovers =>
        .inr ⟨n, _, rfl, hcovers⟩
      rintro q item heq
      cases heq
      exact ⟨hn, hhigh⟩
  | passed n cand sends => exact h.passed sends
  | announced n sends =>
      obtain ⟨m, -, -, rest, he⟩ := sends.effect
      have hhigh := (h.safe.fits n _ (he.mem_before.mpr (.inl rfl))).2
      exact h.announces sends rfl (fun _ => id) hhigh
  | adopted n leaderId leader effect =>
      obtain ⟨rest, he⟩ := effect
      exact h.adopted leader he
  | relayed n leaderId sends =>
      obtain ⟨m, -, -, rest, he⟩ := sends.effect
      have hhigh := (h.safe.fits n _ (he.mem_before.mpr (.inl rfl))).2
      exact h.announces sends rfl (fun _ => id) hhigh

theorem mem_items_task {todo : RingTask} :
    (n, RingItem.task todo) ∈ s.items ↔ (n, todo) ∈ s.running := by
  simp [items]

theorem Inv.step {a : RingAction} (h : s.Inv c) (hstep : s.step c a = some s') :
    s'.Inv c := by
  refine h.move (move_of_step (fun n todo hmem => ?_) hstep)
  exact (h.safe.fits n _ (mem_items_task.mpr hmem)).1

end Preservation

/-! ## Every run -/

section Run

variable {c : RingConfig} {s t : RingSystem}

theorem run_inv {actions : List RingAction} (hs : s.Inv c)
    (hrun : run (step c) s actions = some t) : t.Inv c :=
  run_preserves (fun _ _ _ h hstep => h.step hstep) hs hrun

/-- An election has begun: somebody takes part or the leader is known. -/
def Begun (c : RingConfig) (s : RingSystem) : Prop :=
  s.Announced c ∨ ∃ q, (s.node q).participant = true

private theorem begun_of_item (h : s.Inv c) {n : NodeId} {item : RingItem}
    (hmem : (n, item) ∈ s.items) : s.Begun c := by
  have hherald : ∀ leaderId, item.leader? n = some leaderId → s.Begun c :=
    fun leaderId hitem => .inl (h.safe.heralds n item leaderId hmem hitem)
  have htoken : ∀ cand, item.candidate? = some cand → s.Begun c := by
    intro cand hitem
    by_cases hdone : s.Announced c
    · exact .inl hdone
    · exact .inr ⟨cand, (h.undecided hdone).candidates cand
        ⟨n, item, hmem, hitem⟩⟩
  cases item with
  | message msg =>
      cases msg with
      | election cand => exact htoken cand rfl
      | elected leaderId => exact hherald leaderId rfl
  | task todo =>
      cases todo with
      | passElection cand => exact htoken cand rfl
      | announce => exact hherald n rfl
      | adopt leaderId => exact hherald leaderId rfl
      | passElected leaderId => exact hherald leaderId rfl

private theorem begun_move (h : s.Inv c) (hmove : Move c s t) : t.Begun c := by
  have hinv := h.move hmove
  have hfresh : ∀ {n gone q item rest},
      Effect s t n gone (some (q, item)) rest → t.Begun c :=
    fun he => begun_of_item hinv (he.mem_after.mpr (.inl rfl))
  cases hmove with
  | started n live enters =>
      obtain ⟨rest, he⟩ := enters.effect
      exact hfresh he
  | raised n cand lower enters =>
      obtain ⟨rest, he⟩ := enters.effect
      exact hfresh he
  | replaced n cand higher enters =>
      obtain ⟨rest, he⟩ := enters.effect
      exact hfresh he
  | swallowed n cand higher participant node effect =>
      exact .inr ⟨n, by rw [node, participant]⟩
  | won n leader effect =>
      obtain ⟨rest, he⟩ := effect
      exact hfresh he
  | heard n leaderId leader effect =>
      obtain ⟨rest, he⟩ := effect
      exact hfresh he
  | passed n cand sends =>
      obtain ⟨m, -, -, rest, he⟩ := sends.effect
      exact hfresh he
  | announced n sends =>
      obtain ⟨m, -, -, rest, he⟩ := sends.effect
      exact hfresh he
  | adopted n leaderId leader effect =>
      obtain ⟨rest, he⟩ := effect
      have hmem := he.mem_before.mpr (.inl rfl)
      have hhigh := hinv.safe.leaders n leaderId leader
      rw [hhigh] at leader
      exact .inl (leaderId_kept he (.inr leader)
        (h.safe.heralds n _ leaderId hmem rfl))
  | relayed n leaderId sends =>
      obtain ⟨m, -, -, rest, he⟩ := sends.effect
      exact hfresh he

private theorem begun_step {a : RingAction} (h : s.Inv c) (hstep : s.step c a = some t) :
    t.Begun c := by
  refine begun_move h (move_of_step (fun n todo hmem => ?_) hstep)
  exact (h.safe.fits n _ (mem_items_task.mpr hmem)).1

private theorem run_begun {actions : List RingAction} (hs : s.Inv c)
    (hne : actions ≠ []) (hrun : run (step c) s actions = some t) :
    t.Begun c := by
  induction actions generalizing s with
  | nil => exact absurd rfl hne
  | cons a rest ih =>
      obtain ⟨s', hstep, hrest⟩ := run_cons.mp hrun
      by_cases hempty : rest = []
      · rw [hempty] at hrest
        cases hrest
        exact begun_step hs hstep
      · exact ih (hs.step hstep) hempty hrest

private theorem leader_of_quiet (h : s.Inv c) (hbegun : s.Begun c) (hquiet : s.Quiet)
    {n : NodeId} (hn : n ∈ c.live) :
    (s.node n).leaderId = some c.highest := by
  have hitems : s.items = [] := by
    rw [items, hquiet.1, hquiet.2]
    rfl
  by_cases hdone : s.Announced c
  · rcases h.told hdone n hn with hleader | ⟨q, item, hmem, -⟩
    · exact hleader
    · rw [hitems] at hmem
      cases hmem
  · have hsome := hbegun.resolve_left hdone
    obtain ⟨cand, ⟨q, item, hmem, -⟩, -⟩ := (h.undecided hdone).largest hsome
    rw [hitems] at hmem
    cases hmem

end Run

/--
No node ever sets `leader_id` to anything but the highest live id; and whenever no
message is in flight and no thread has anything left to do, every live node has it
if an election was started.
-/
theorem run_ringLeader (c : RingConfig) (actions : List RingAction)
    (s : RingSystem) (hrun : run (step c) new actions = some s) :
    (∀ n leaderId, (s.node n).leaderId = some leaderId →
      leaderId = c.highest) ∧
    (s.Quiet → (∃ n, .startElection n ∈ actions) →
      ∀ n ∈ c.live, (s.node n).leaderId = some c.highest) := by
  have hinv := run_inv (inv_new c) hrun
  refine ⟨hinv.safe.leaders, fun hquiet hstarted n hn => ?_⟩
  obtain ⟨starter, hmem⟩ := hstarted
  have hbegun := run_begun (inv_new c) (List.ne_nil_of_mem hmem) hrun
  exact leader_of_quiet hinv hbegun hquiet hn

/-- Four nodes in a ring, the second of them down. -/
def threeLive : RingConfig :=
  ⟨[0, 1, 2, 3], by decide, {0, 2, 3}, by decide, by decide⟩

/-- Node 0 starts; its token is replaced at nodes 2 and 3, and the announcement
goes round. -/
def oneStarter : List RingAction :=
  [.startElection 0, .resume 0, .deliver 0, .resume 0, .deliver 0, .resume 0,
    .deliver 0, .resume 0, .deliver 0, .resume 0, .deliver 0, .resume 0,
    .deliver 0, .resume 0, .resume 0, .deliver 0, .resume 0, .resume 0,
    .deliver 0, .resume 0]

theorem oneStarter_ringLeader :
    ∃ s, run (step threeLive) new oneStarter = some s ∧ s.Quiet ∧
      ∀ n ∈ threeLive.live, (s.node n).leaderId = some threeLive.highest := by
  have hview : (run (step threeLive) new oneStarter).any
      (fun s => s.network.isEmpty && s.running.isEmpty) = true := by
    decide +kernel
  obtain ⟨s, hs, hempty⟩ := (Option.any_eq_true _ _).mp hview
  have hquiet : s.Quiet := by
    simpa [Quiet] using hempty
  exact ⟨s, hs, hquiet, (run_ringLeader threeLive oneStarter s hs).2 hquiet
    ⟨0, by simp [oneStarter]⟩⟩

end RingSystem

end DistributedMemory.Election
