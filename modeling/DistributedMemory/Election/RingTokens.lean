import DistributedMemory.Election.RingCrash

/-!
# How long a ring message travels

A message stops at the node whose id it carries, and an election token also at any
higher node.  As long as a crash leaves such a node for every message under way, a
message is handled at most once by each node for each time that it was made: it
never passes the node that made it.  Otherwise it goes round for ever.

Distances are counted along the ring from the node whose id the message carries,
and that node itself is a whole round away.
-/

namespace DistributedMemory.Election

open DistributedMemory.Library
open DistributedMemory.Network (NodeId)

namespace RingMsg

def origin : RingMsg → NodeId
  | .election candidateId => candidateId
  | .elected leaderId => leaderId

def Stoppable (live : Finset NodeId) : RingMsg → Prop
  | .election candidateId => ∃ n ∈ live, candidateId ≤ n
  | .elected leaderId => leaderId ∈ live

instance (live : Finset NodeId) (msg : RingMsg) :
    Decidable (msg.Stoppable live) :=
  match msg with
  | .election candidateId =>
      inferInstanceAs (Decidable (∃ n ∈ live, candidateId ≤ n))
  | .elected leaderId => inferInstanceAs (Decidable (leaderId ∈ live))

end RingMsg

/-- The message that is under way at node `n`. -/
def RingItem.msg (n : NodeId) : RingItem → RingMsg
  | .message msg => msg
  | .task (.passElection candidateId) => .election candidateId
  | .task .announce => .elected n
  | .task (.adopt leaderId) => .elected leaderId
  | .task (.passElected leaderId) => .elected leaderId

namespace CrashRing

/-- The crash of `x` leaves at most one live node, or a node that stops each of
the messages under way that it does not take with it. -/
def Spares (s : CrashRing) (x : NodeId) : Prop :=
  1 < (s.live.erase x).card → ∀ item ∈ s.ring.items, item.1 ≠ x →
    (item.2.msg item.1).Stoppable (s.live.erase x)

/-- Crashes are as `Spares` says. -/
def Spared (s : CrashRing) : CrashRingAction → Prop
  | .crash x => s.Spares x
  | _ => True

instance (s : CrashRing) (a : CrashRingAction) : Decidable (s.Spared a) :=
  match a with
  | .crash x => inferInstanceAs (Decidable
      (1 < (s.live.erase x).card → ∀ item ∈ s.ring.items, item.1 ≠ x →
        (item.2.msg item.1).Stoppable (s.live.erase x)))
  | .startElection _ => inferInstanceAs (Decidable True)
  | .deliver _ => inferInstanceAs (Decidable True)
  | .resume _ _ => inferInstanceAs (Decidable True)

end CrashRing

/-! ## Distances -/

section Distance

variable (order : List NodeId)

/-- The number of steps that a message of `origin` makes to reach `n`. -/
def distance (origin n : NodeId) : Nat :=
  if n = origin then order.length else Cycle.position order origin n

def covered (n : NodeId) : RingItem → Nat
  | .message msg => distance order msg.origin n - 1
  | .task (.passElection candidateId) => Cycle.position order candidateId n
  | .task .announce => 0
  | .task (.adopt leaderId) => distance order leaderId n
  | .task (.passElected leaderId) => Cycle.position order leaderId n

def Awaits (n : NodeId) (msg : RingMsg) (item : NodeId × RingItem) : Prop :=
  item.2.msg item.1 = msg ∧
    covered order item.1 item.2 < distance order msg.origin n

instance (n : NodeId) (msg : RingMsg) (item : NodeId × RingItem) :
    Decidable (Awaits order n msg item) :=
  inferInstanceAs (Decidable (_ ∧ _))

def pending (n : NodeId) (msg : RingMsg) (items : List (NodeId × RingItem)) :
    Nat :=
  items.countP fun item => Awaits order n msg item

variable {order}

theorem distance_pos {origin n : NodeId} (horigin : origin ∈ order)
    (hn : n ∈ order) : 0 < distance order origin n := by
  unfold distance
  split
  · exact List.length_pos_of_mem hn
  · next hne => exact Cycle.position_pos horigin hn hne

theorem distance_of_ne {origin n : NodeId} (hne : n ≠ origin) :
    distance order origin n = Cycle.position order origin n :=
  if_neg hne

theorem distance_self (origin : NodeId) :
    distance order origin origin = order.length :=
  if_pos rfl

private theorem eq_of_distance_eq {origin m n : NodeId} (horigin : origin ∈ order)
    (hm : m ∈ order) (hn : n ∈ order)
    (h : distance order origin m = distance order origin n) : m = n := by
  by_cases hmo : m = origin
  · by_cases hno : n = origin
    · exact hmo.trans hno.symm
    · rw [hmo, distance_self, distance_of_ne hno] at h
      exact absurd h.symm (Nat.ne_of_lt (Cycle.position_lt horigin n))
  · by_cases hno : n = origin
    · rw [hno, distance_self, distance_of_ne hmo] at h
      exact absurd h (Nat.ne_of_lt (Cycle.position_lt horigin m))
    · rw [distance_of_ne hmo, distance_of_ne hno] at h
      exact Cycle.eq_of_position_eq horigin hm hn h

end Distance

/-! ## What is under way -/

/-- An item at a live node whose message can still be stopped, and whose stops all
lie ahead of it. -/
structure Travels (order : List NodeId) (live : Finset NodeId) (n : NodeId)
    (item : RingItem) : Prop where
  here : n ∈ live
  onRing : (item.msg n).origin ∈ order
  stops : 1 < live.card → (item.msg n).Stoppable live
  ahead : ∀ candidateId, item.msg n = .election candidateId →
    ∀ w ∈ live, candidateId ≤ w →
      covered order n item < distance order candidateId w

section Travels

variable {order : List NodeId} {live : Finset NodeId}

theorem travels_make (hnodup : order.Nodup) (honRing : ∀ x ∈ live, x ∈ order)
    {n : NodeId} (hn : n ∈ live) :
    Travels order live n (.task (.passElection n)) ∧
      Travels order live n (.task .announce) := by
  have hn' := honRing n hn
  refine ⟨⟨hn, hn', fun _ => ⟨n, hn, Nat.le_refl n⟩, ?_⟩,
    ⟨hn, hn', fun _ => hn, ?_⟩⟩
  · rintro candidateId heq w hw -
    cases heq
    rw [covered, Cycle.position_start hnodup hn']
    exact distance_pos hn' (honRing w hw)
  · rintro candidateId heq
    cases heq

theorem Travels.raise (honRing : ∀ x ∈ live, x ∈ order) {n candidateId : NodeId}
    (h : Travels order live n (.message (.election candidateId)))
    (hlower : n < candidateId) :
    Travels order live n (.task (.passElection candidateId)) := by
  refine ⟨h.here, h.onRing, h.stops, ?_⟩
  rintro _ heq w hw hle
  cases heq
  have hahead := h.ahead candidateId rfl w hw hle
  have hne : n ≠ candidateId := Nat.ne_of_lt hlower
  have hn := honRing n h.here
  simp only [covered, RingMsg.origin, distance_of_ne hne] at hahead ⊢
  have hdiff : Cycle.position order candidateId n ≠
      distance order candidateId w := by
    rw [← distance_of_ne hne]
    intro hdist
    have hnw := eq_of_distance_eq h.onRing hn (honRing w hw) hdist
    exact absurd (hnw ▸ hle) (Nat.not_le_of_lt hlower)
  omega

theorem Travels.next (hnodup : order.Nodup) (honRing : ∀ x ∈ live, x ∈ order)
    {x y : NodeId} {todo : RingTask} {msg : RingMsg}
    (h : Travels order live x (.task todo))
    (hmsg : (RingItem.task todo).msg x = msg)
    (hcovered : covered order x (.task todo) =
      Cycle.position order msg.origin x)
    (hy : y ∈ live) (hne : y ≠ x) (hnearest : ∀ z ∈ live, z ≠ x →
      Cycle.position order x y ≤ Cycle.position order x z) :
    covered order x (.task todo) < distance order msg.origin y ∧
      ∀ w ∈ live, covered order x (.task todo) < distance order msg.origin w →
        distance order msg.origin y ≤ distance order msg.origin w := by
  have horigin : msg.origin ∈ order := hmsg ▸ h.onRing
  have hzero := Cycle.position_start hnodup horigin
  have hx := Cycle.position_lt horigin x
  rw [hcovered]
  rcases Cycle.nearest_cases (P := (· ∈ live)) hnodup horigin honRing
    (honRing x h.here) hy hne hnearest with ⟨hbeyond, hfirst⟩ | ⟨hlast, hfirst⟩
  · have hyo : y ≠ msg.origin := by
      rintro rfl
      omega
    rw [distance_of_ne hyo]
    refine ⟨hbeyond, fun w hw hahead => ?_⟩
    by_cases hwo : w = msg.origin
    · rw [hwo, distance_self]
      exact Nat.le_of_lt (Cycle.position_lt horigin y)
    · rw [distance_of_ne hwo] at hahead ⊢
      exact hfirst w hw hahead
  · -- No live node is beyond `x`, so that the origin is live and comes next.
    have hlive : msg.origin ∈ live := by
      have hstops := h.stops
        (Finset.one_lt_card.mpr ⟨y, hy, x, h.here, hne⟩)
      rw [hmsg] at hstops
      cases msg with
      | elected leaderId => exact hstops
      | election candidateId =>
          obtain ⟨w, hw, hle⟩ := hstops
          have hahead := h.ahead candidateId hmsg w hw hle
          by_cases hwc : w = candidateId
          · exact hwc ▸ hw
          · rw [distance_of_ne hwc, hcovered] at hahead
            exact absurd (hlast w hw) (Nat.not_le_of_lt hahead)
    have hyo : y = msg.origin := by
      apply Cycle.eq_of_position_eq horigin (honRing y hy) horigin
      have hle := hfirst _ hlive
      omega
    rw [hyo, distance_self]
    refine ⟨hx, fun w hw hahead => ?_⟩
    by_cases hwo : w = msg.origin
    · rw [hwo, distance_self]
    · rw [distance_of_ne hwo] at hahead
      exact absurd (hlast w hw) (Nat.not_le_of_lt hahead)

theorem Travels.send (hnodup : order.Nodup) (honRing : ∀ x ∈ live, x ∈ order)
    {x y : NodeId} {todo : RingTask} {msg : RingMsg}
    (h : Travels order live x (.task todo))
    (hmsg : (RingItem.task todo).msg x = msg)
    (hcovered : covered order x (.task todo) =
      Cycle.position order msg.origin x)
    (hy : y ∈ live) (hne : y ≠ x) (hnearest : ∀ z ∈ live, z ≠ x →
      Cycle.position order x y ≤ Cycle.position order x z) :
    Travels order live y (.message msg) ∧
      covered order x (.task todo) ≤ covered order y (.message msg) := by
  obtain ⟨hreach, hfirst⟩ :=
    h.next hnodup honRing hmsg hcovered hy hne hnearest
  refine ⟨⟨hy, hmsg ▸ h.onRing, hmsg ▸ h.stops, ?_⟩, ?_⟩
  · rintro candidateId rfl w hw hle
    have hdist := hfirst w hw (h.ahead candidateId hmsg w hw hle)
    simp only [covered, RingMsg.origin] at hreach hdist ⊢
    omega
  · simp only [covered] at hreach ⊢
    omega

end Travels

/-! ## Counting -/

section Pending

variable {order : List NodeId} {n : NodeId}

theorem pending_le {x y : NodeId × RingItem}
    (hmsg : y.2.msg y.1 = x.2.msg x.1)
    (hcovered : covered order x.1 x.2 ≤ covered order y.1 y.2) (n : NodeId)
    (msg : RingMsg) : pending order n msg [y] ≤ pending order n msg [x] := by
  simp only [pending, List.countP_singleton, decide_eq_true_eq]
  split
  · next hy =>
    have hx : Awaits order n msg x :=
      ⟨hmsg ▸ hy.1, Nat.lt_of_le_of_lt hcovered hy.2⟩
    rw [if_pos hx]
  · exact Nat.zero_le _

theorem count_le_pending {msg : RingMsg} (horigin : msg.origin ∈ order)
    (hn : n ∈ order) (m : NodeId) (msg' : RingMsg) :
    [(n, msg)].count (m, msg') ≤ pending order m msg' [(n, .message msg)] := by
  rw [pending, List.countP_singleton, List.count_singleton]
  split
  · next heq =>
    obtain ⟨rfl, rfl⟩ := Prod.mk.inj (eq_of_beq heq)
    have hpos := distance_pos horigin hn
    have hawaits : Awaits order n msg (n, .message msg) := by
      refine ⟨rfl, ?_⟩
      simp only [covered]
      omega
    simp [hawaits]
  · exact Nat.zero_le _

private theorem count_add_pending_le {msg : RingMsg} (horigin : msg.origin ∈ order)
    (hn : n ∈ order) {item : RingItem} (hmsg : item.msg n = msg)
    (hcovered : covered order n item = distance order msg.origin n)
    (m : NodeId) (msg' : RingMsg) :
    [(n, msg)].count (m, msg') + pending order m msg' [(n, item)] ≤
      pending order m msg' [(n, .message msg)] := by
  by_cases hpassed : Awaits order m msg' (n, item)
  · have hne : (m, msg') ≠ (n, msg) := by
      rintro heq
      obtain ⟨rfl, rfl⟩ := Prod.mk.inj heq
      have hlt := hpassed.2
      simp only [hcovered] at hlt
      exact lt_irrefl _ hlt
    have hzero : [(n, msg)].count (m, msg') = 0 := by
      rw [List.count_eq_zero, List.mem_singleton]
      exact hne
    rw [hzero, Nat.zero_add]
    apply pending_le hmsg
    change distance order msg.origin n - 1 ≤ covered order n item
    omega
  · have hzero : pending order m msg' [(n, item)] = 0 := by
      simp [pending, hpassed]
    rw [hzero]
    exact count_le_pending horigin hn m msg'

theorem pending_le_count (item : RingItem) (m : NodeId) (msg : RingMsg) :
    pending order m msg [(n, item)] ≤ [item.msg n].count msg := by
  rw [pending, List.countP_singleton, List.count_singleton]
  split
  · next hawaits =>
    have heq := (of_decide_eq_true hawaits).1
    simp only at heq
    simp [heq]
  · exact Nat.zero_le _

end Pending

/-! ## The invariant -/

def followUp (e : ChangRobertsElection) (n : NodeId) : RingMsg → Option RingTask
  | .election candidateId =>
      if candidateId > n then some (.passElection candidateId)
      else if candidateId < n then
        if e.participant then none else some (.passElection n)
      else some .announce
  | .elected leaderId => some (.adopt leaderId)

theorem items_handle {r : RingSystem} {packet : Nat} {n : NodeId}
    {msg : RingMsg} {network : List (NodeId × RingMsg)}
    (hpick : pick r.network packet = some ((n, msg), network)) :
    ∃ rest, r.items.Perm ((n, .message msg) :: rest) ∧
      (({ r with network := network } : RingSystem).handle (n, msg)).items.Perm
        (((followUp (r.node n) n msg).map fun todo =>
          (n, RingItem.task todo)).toList ++ rest) := by
  have heffect : ∀ (r' : RingSystem) (todo : Option RingTask),
      (∀ q, q ≠ n → r'.node q = r.node q) → r'.network = network →
      r'.running = (todo.map fun todo => (n, todo)).toList ++ r.running →
      ∃ rest, r.items.Perm ((n, .message msg) :: rest) ∧
        r'.items.Perm ((todo.map fun todo =>
          (n, RingItem.task todo)).toList ++ rest) := by
    intro r' todo helsewhere hnetwork hrunning
    obtain ⟨rest, heffect⟩ := RingSystem.effect_deliver hpick helsewhere
      hnetwork todo hrunning
    exact ⟨rest, heffect.before, heffect.after⟩
  have hother : ∀ (e : ChangRobertsElection) (q : NodeId), q ≠ n →
      (r.setNode n e).node q = r.node q := fun e q hq =>
    RingSystem.setNode_elsewhere r hq e
  cases msg with
  | election candidateId =>
      simp only [RingSystem.handle, RingSystem.handleElectionRing, followUp]
      by_cases hlower : candidateId > n
      · rw [if_pos hlower, if_pos hlower]
        exact heffect _ (some _) (hother _) rfl rfl
      · rw [if_neg hlower, if_neg hlower]
        by_cases hhigher : candidateId < n
        · rw [if_pos hhigher, if_pos hhigher]
          by_cases hparticipant : (r.node n).participant = true
          · rw [if_pos hparticipant, if_pos hparticipant]
            exact heffect _ none (fun _ _ => rfl) rfl rfl
          · rw [if_neg hparticipant, if_neg hparticipant]
            exact heffect _ (some _) (hother _) rfl rfl
        · rw [if_neg hhigher, if_neg hhigher]
          exact heffect _ (some _) (hother _) rfl rfl
  | elected leaderId => exact heffect _ (some _) (hother _) rfl rfl

namespace CrashRing

structure Inv (order : List NodeId) (s : CrashRing) : Prop where
  onRing : ∀ n ∈ s.live, n ∈ order
  travels : ∀ item ∈ s.ring.items, Travels order s.live item.1 item.2
  bounded : ∀ n msg, s.handled.count (n, msg) +
    pending order n msg s.ring.items ≤ s.originated.count msg

theorem inv_new {order : List NodeId} {live : Finset NodeId}
    (hlive : ∀ n ∈ live, n ∈ order) : (new live).Inv order :=
  ⟨hlive, by simp [new, RingSystem.new, RingSystem.items],
    fun n msg => by
      simp [new, RingSystem.new, RingSystem.items, pending]⟩

variable {order : List NodeId} {s : CrashRing}

theorem Inv.effect (h : s.Inv order) (s' : CrashRing)
    {gone fresh rest : List (NodeId × RingItem)} (hlive : s'.live = s.live)
    (hbefore : s.ring.items.Perm (gone ++ rest))
    (hafter : s'.ring.items.Perm (fresh ++ rest))
    (hfresh : ∀ item ∈ fresh, Travels order s.live item.1 item.2)
    (hcount : ∀ n msg, s'.handled.count (n, msg) + pending order n msg fresh +
      s.originated.count msg ≤ s.handled.count (n, msg) +
        pending order n msg gone + s'.originated.count msg) :
    s'.Inv order := by
  refine ⟨hlive ▸ h.onRing, fun item hitem => ?_, fun n msg => ?_⟩
  · rw [hlive]
    rcases List.mem_append.mp (hafter.subset hitem) with hitem | hitem
    · exact hfresh item hitem
    · exact h.travels item
        (hbefore.symm.subset (List.mem_append_right _ hitem))
  · have hbound := h.bounded n msg
    have hstep := hcount n msg
    have hgone : pending order n msg s.ring.items = pending order n msg gone +
        pending order n msg rest := by
      rw [pending, hbefore.countP_eq, List.countP_append]
      rfl
    have hcame : pending order n msg s'.ring.items =
        pending order n msg fresh + pending order n msg rest := by
      rw [pending, hafter.countP_eq, List.countP_append]
      rfl
    omega

theorem Inv.relay (h : s.Inv order) (r : RingSystem)
    {gone fresh rest : List (NodeId × RingItem)}
    (hbefore : s.ring.items.Perm (gone ++ rest))
    (hafter : r.items.Perm (fresh ++ rest))
    (hfresh : ∀ item ∈ fresh, Travels order s.live item.1 item.2)
    (hle : ∀ n msg, pending order n msg fresh ≤ pending order n msg gone) :
    ({ s with ring := r } : CrashRing).Inv order := by
  refine h.effect _ rfl hbefore hafter hfresh fun n msg => ?_
  have := hle n msg
  dsimp only
  omega

theorem Inv.deliver (h : s.Inv order) (hnodup : order.Nodup) {packet : Nat}
    {n : NodeId} {msg : RingMsg} {network : List (NodeId × RingMsg)}
    (hpick : pick s.ring.network packet = some ((n, msg), network)) :
    ({ s with ring := { s.ring with network := network } }.deliver n
      msg).Inv order := by
  obtain ⟨rest, hbefore, hafter⟩ := items_handle hpick
  have hmem : (n, RingItem.message msg) ∈ s.ring.items :=
    hbefore.symm.subset List.mem_cons_self
  have htravels := h.travels _ hmem
  have hn := h.onRing n htravels.here
  have hmake := travels_make hnodup h.onRing htravels.here
  have hhandled := count_le_pending htravels.onRing hn
  -- One case per outcome of the handler: what it makes, and what it passes on.
  have hcase : ∀ (todo : Option RingTask) (made : Option RingMsg),
      followUp (s.ring.node n) n msg = todo →
      originates (s.ring.node n) n msg = made →
      (∀ t ∈ todo, Travels order s.live n (.task t)) →
      (∀ m msg', [(n, msg)].count (m, msg') + pending order m msg'
          (todo.map fun t => (n, RingItem.task t)).toList ≤
        pending order m msg' [(n, .message msg)] + made.toList.count msg') →
      ({ s with ring := { s.ring with network := network } }.deliver n
        msg).Inv order := by
    intro todo made htodo hmade hfresh hcount
    rw [htodo] at hafter
    have hgone : s.ring.items.Perm ([(n, .message msg)] ++ rest) := hbefore
    refine h.effect _ rfl hgone hafter
      (fun item hitem => ?_) fun m msg' => ?_
    · obtain ⟨t, ht, rfl⟩ := Option.map_eq_some_iff.mp
        (Option.mem_toList.mp hitem)
      exact hfresh t ht
    · have hle := hcount m msg'
      simp only [CrashRing.deliver, hmade, List.count_append]
      omega
  have hforward : ∀ todo, followUp (s.ring.node n) n msg = some todo →
      originates (s.ring.node n) n msg = none →
      Travels order s.live n (.task todo) →
      (RingItem.task todo).msg n = msg →
      covered order n (.task todo) = distance order msg.origin n →
      ({ s with ring := { s.ring with network := network } }.deliver n
        msg).Inv order := by
    intro todo htodo hmade htask hmsg hcovered
    refine hcase (some todo) none htodo hmade (by simpa using htask) ?_
    intro m msg'
    exact count_add_pending_le htravels.onRing hn hmsg hcovered m msg'
  have hreplace : ∀ todo, followUp (s.ring.node n) n msg = some todo →
      originates (s.ring.node n) n msg = some ((RingItem.task todo).msg n) →
      Travels order s.live n (.task todo) →
      ({ s with ring := { s.ring with network := network } }.deliver n
        msg).Inv order := by
    intro todo htodo hmade htask
    refine hcase (some todo) _ htodo hmade (by simpa using htask) ?_
    intro m msg'
    exact Nat.add_le_add (hhandled m msg') (pending_le_count (.task todo) m msg')
  cases msg with
  | election candidateId =>
      rcases Nat.lt_trichotomy candidateId n with hlt | heq | hgt
      · have hnot := Nat.lt_asymm hlt
        cases hparticipant : (s.ring.node n).participant with
        | true =>
            refine hcase none none ?_ ?_ (by simp) fun m msg' => hhandled m msg'
            · rw [followUp, if_neg hnot, if_pos hlt, if_pos hparticipant]
            · rw [originates, if_neg hnot, if_pos hlt, if_pos hparticipant]
        | false =>
            refine hreplace (.passElection n) ?_ ?_ hmake.1
            · rw [followUp, if_neg hnot, if_pos hlt, hparticipant]
              rfl
            · rw [originates, if_neg hnot, if_pos hlt, hparticipant]
              rfl
      · subst heq
        refine hreplace .announce ?_ ?_ hmake.2
        · rw [followUp, if_neg (lt_irrefl _), if_neg (lt_irrefl _)]
        · rw [originates, if_neg (lt_irrefl _), if_neg (lt_irrefl _)]
          rfl
      · refine hforward (.passElection candidateId) ?_ ?_
          (htravels.raise h.onRing hgt) rfl ?_
        · rw [followUp, if_pos hgt]
        · rw [originates, if_pos hgt]
        · exact (distance_of_ne (Nat.ne_of_lt hgt)).symm
  | elected leaderId =>
      refine hforward (.adopt leaderId) rfl rfl
        ⟨htravels.here, htravels.onRing, htravels.stops, ?_⟩ rfl rfl
      rintro candidateId heq
      cases heq

theorem items_resume {r : RingSystem} {task : Nat} {n : NodeId}
    {todo : RingTask} {running : List (NodeId × RingTask)}
    (hpick : pick r.running task = some ((n, todo), running)) (r' : RingSystem)
    (sent : List (NodeId × RingMsg)) (next : List (NodeId × RingTask))
    (hnetwork : r'.network = sent ++ r.network)
    (hrunning : r'.running = next ++ running) :
    ∃ rest, r.items.Perm ([(n, .task todo)] ++ rest) ∧
      r'.items.Perm (sent.map (fun (n, msg) => (n, .message msg)) ++
        next.map (fun (n, todo) => (n, .task todo)) ++ rest) := by
  refine ⟨({ r with running := running } : RingSystem).items, ?_, ?_⟩
  · exact (((pick_perm hpick).map _).append_left _).trans List.perm_middle
  · simp only [RingSystem.items, hnetwork, hrunning, List.map_append,
      List.append_assoc]
    apply List.Perm.append_left
    rw [← List.append_assoc, ← List.append_assoc]
    exact List.perm_append_comm.append_right _

theorem Inv.send (h : s.Inv order) (hnodup : order.Nodup) {task : Nat}
    {n : NodeId} {todo : RingTask} {msg : RingMsg}
    {running : List (NodeId × RingTask)} {stale : List NodeId}
    (hpick : pick s.ring.running task = some ((n, todo), running))
    (hmsg : (RingItem.task todo).msg n = msg)
    (hcovered : covered order n (.task todo) =
      Cycle.position order msg.origin n)
    {r : RingSystem} (hnetwork : r.network = (sendToSuccessor order stale s.live
      { s.ring with running := running } n msg).network)
    (hrunning : r.running = running) :
    ({ s with ring := r } : CrashRing).Inv order := by
  have hmem : (n, RingItem.task todo) ∈ s.ring.items := by
    apply List.mem_append_right
    exact List.mem_map.mpr ⟨(n, todo), mem_of_pick hpick, rfl⟩
  have htravels := h.travels _ hmem
  have hn := h.onRing n htravels.here
  rcases sendToSuccessor_cases hnodup h.onRing hn stale
    { s.ring with running := running } msg with
    ⟨y, hy, hne, hnearest, hsend⟩ | ⟨-, hsend⟩
  · obtain ⟨hfresh, hle⟩ :=
      htravels.send hnodup h.onRing hmsg hcovered hy hne hnearest
    obtain ⟨rest, hbefore, hafter⟩ := items_resume hpick r [(y, msg)] []
      (by rw [hnetwork, hsend]; rfl) (by rw [hrunning]; rfl)
    refine h.relay r hbefore hafter (fun item hitem => ?_)
      (pending_le (y := (y, .message msg)) hmsg.symm hle)
    obtain rfl := List.mem_singleton.mp hitem
    exact hfresh
  · obtain ⟨rest, hbefore, hafter⟩ := items_resume hpick r [] []
      (by rw [hnetwork, hsend]; rfl) (by rw [hrunning]; rfl)
    exact h.relay r hbefore hafter (by simp) fun _ _ => Nat.zero_le _

theorem Inv.resume (h : s.Inv order) (hnodup : order.Nodup) {task : Nat}
    {stale : List NodeId} {todo : NodeId × RingTask}
    {running : List (NodeId × RingTask)}
    (hpick : pick s.ring.running task = some (todo, running)) :
    ({ s with
      ring := execute order stale s.live
        { s.ring with running := running } todo } : CrashRing).Inv order := by
  obtain ⟨n, todo⟩ := todo
  have hmem : (n, RingItem.task todo) ∈ s.ring.items := by
    apply List.mem_append_right
    exact List.mem_map.mpr ⟨(n, todo), mem_of_pick hpick, rfl⟩
  have htravels := h.travels _ hmem
  have hn := h.onRing n htravels.here
  cases todo with
  | passElection candidateId =>
      exact h.send hnodup hpick rfl rfl rfl (running_sendToSuccessor _ _ _ _ _ _)
  | announce =>
      refine h.send hnodup hpick rfl ?_ rfl
        (running_sendToSuccessor order stale s.live _ n _)
      exact (Cycle.position_start hnodup hn).symm
  | passElected leaderId =>
      exact h.send hnodup hpick rfl rfl rfl (running_sendToSuccessor _ _ _ _ _ _)
  | adopt leaderId =>
      by_cases hother : leaderId = n
      · rw [execute, if_neg (not_not.mpr hother)]
        obtain ⟨rest, hbefore, hafter⟩ := items_resume hpick
          (RingSystem.setNode { s.ring with running := running } n
            { s.ring.node n with
              leaderId := some leaderId
              electionComplete := true }) [] [] rfl rfl
        exact h.relay _ hbefore hafter (by simp) fun _ _ => Nat.zero_le _
      · rw [execute, if_pos hother]
        obtain ⟨rest, hbefore, hafter⟩ := items_resume hpick
          ((RingSystem.setNode { s.ring with running := running } n
            { s.ring.node n with
              leaderId := some leaderId
              electionComplete := true }).later n (.passElected leaderId))
          [] [(n, .passElected leaderId)] rfl rfl
        refine h.relay _ hbefore hafter (fun item hitem => ?_)
          (pending_le (y := (n, .task (.passElected leaderId))) rfl
            (Nat.le_of_eq (distance_of_ne (Ne.symm hother))))
        obtain rfl := List.mem_singleton.mp hitem
        refine ⟨htravels.here, htravels.onRing, htravels.stops, ?_⟩
        rintro candidateId heq
        cases heq

theorem items_filter (r : RingSystem) (x : NodeId) :
    ({ r with
      network := r.network.filter (·.1 ≠ x)
      running := r.running.filter (·.1 ≠ x) } : RingSystem).items =
      r.items.filter (·.1 ≠ x) := by
  simp only [RingSystem.items, List.filter_append, List.filter_map]
  rfl

theorem Inv.crash (h : s.Inv order) {x : NodeId} (hspares : s.Spares x) :
    ({ s with
      live := s.live.erase x
      ring := { s.ring with
        network := s.ring.network.filter (·.1 ≠ x)
        running := s.ring.running.filter (·.1 ≠ x) } } : CrashRing).Inv
      order := by
  have hsub : ∀ n ∈ s.live.erase x, n ∈ s.live :=
    fun n hn => Finset.mem_of_mem_erase hn
  refine ⟨fun n hn => h.onRing n (hsub n hn), fun item hitem => ?_,
    fun n msg => ?_⟩
  · rw [items_filter, List.mem_filter] at hitem
    have hne : item.1 ≠ x := of_decide_eq_true hitem.2
    have htravels := h.travels item hitem.1
    exact ⟨Finset.mem_erase.mpr ⟨hne, htravels.here⟩, htravels.onRing,
      fun hcard => hspares hcard item hitem.1 hne,
      fun candidateId heq w hw => htravels.ahead candidateId heq w (hsub w hw)⟩
  · rw [items_filter]
    have hle : pending order n msg (s.ring.items.filter (·.1 ≠ x)) ≤
        pending order n msg s.ring.items := List.filter_sublist.countP_le
    exact Nat.le_trans (Nat.add_le_add_left hle _) (h.bounded n msg)

theorem Inv.step {s' : CrashRing} {a : CrashRingAction} (h : s.Inv order)
    (hnodup : order.Nodup) (hspared : s.Spared a)
    (hstep : s.step order a = some s') : s'.Inv order := by
  cases a with
  | startElection n =>
      obtain ⟨hn, heq⟩ := Option.ite_none_right_eq_some.mp hstep
      obtain rfl := Option.some.inj heq
      have hafter : (s.ring.startElection n).items.Perm
          ([(n, .task (.passElection n))] ++ s.ring.items) :=
        List.perm_middle
      refine h.effect _ rfl (List.Perm.refl ([] ++ s.ring.items)) hafter
        (fun item hitem => ?_) fun m msg => ?_
      · obtain rfl := List.mem_singleton.mp hitem
        exact (travels_make hnodup h.onRing hn).1
      · have hle : pending order m msg [(n, .task (.passElection n))] ≤
            [RingMsg.election n].count msg :=
          pending_le_count (.task (.passElection n)) m msg
        simp only [List.count_append]
        omega
  | deliver packet =>
      obtain ⟨⟨⟨n, msg⟩, network⟩, hpick, rfl⟩ :=
        Option.map_eq_some_iff.mp hstep
      exact h.deliver hnodup hpick
  | resume task stale =>
      obtain ⟨⟨todo, running⟩, hpick, rfl⟩ := Option.map_eq_some_iff.mp hstep
      exact h.resume hnodup hpick
  | crash x =>
      obtain ⟨-, heq⟩ := Option.ite_none_right_eq_some.mp hstep
      obtain rfl := Option.some.inj heq
      exact h.crash hspared

/-! ## How often messages are made -/

end CrashRing

/-- A message of the first kind may give rise to one of the second kind. -/
def RingMsg.Precedes : RingMsg → RingMsg → Prop
  | .election candidateId, .election candidateId' => candidateId < candidateId'
  | .election candidateId, .elected leaderId => candidateId ≤ leaderId
  | .elected _, _ => False

instance (msg msg' : RingMsg) : Decidable (msg.Precedes msg') :=
  match msg, msg' with
  | .election c, .election c' => inferInstanceAs (Decidable (c < c'))
  | .election c, .elected l => inferInstanceAs (Decidable (c ≤ l))
  | .elected _, _ => inferInstanceAs (Decidable False)

def CrashRingAction.starts : CrashRingAction → Bool
  | .startElection _ => true
  | _ => false

def ancestors (msg : RingMsg) (items : List (NodeId × RingItem)) : Nat :=
  items.countP fun item => (item.2.msg item.1).Precedes msg

theorem ancestors_singleton (msg : RingMsg) (n : NodeId) (item : RingItem) :
    ancestors msg [(n, item)] = if (item.msg n).Precedes msg then 1 else 0 := by
  simp [ancestors, List.countP_singleton]

theorem ancestors_le_of_msg_eq (msg : RingMsg) {n m : NodeId}
    {fresh gone : RingItem} (h : fresh.msg n = gone.msg m) :
    ancestors msg [(n, fresh)] ≤ ancestors msg [(m, gone)] := by
  rw [ancestors_singleton, ancestors_singleton, h]

theorem not_precedes_self (msg : RingMsg) : ¬ msg.Precedes msg := by
  cases msg with
  | election candidateId => exact lt_irrefl candidateId
  | elected leaderId => exact id

private theorem count_add_ancestors_le_one (made : RingMsg) {n : NodeId}
    {fresh : RingItem} (hfresh : fresh.msg n = made) (msg : RingMsg) :
    [made].count msg + ancestors msg [(n, fresh)] ≤ 1 := by
  rw [ancestors_singleton, hfresh]
  by_cases hmsg : msg = made
  · subst hmsg
    rw [if_neg (not_precedes_self msg), List.count_singleton_self]
  · have hzero : [made].count msg = 0 := by
      rw [List.count_eq_zero, List.mem_singleton]
      exact hmsg
    rw [hzero, Nat.zero_add]
    split <;> omega

theorem count_add_ancestors_le (made : RingMsg) {n : NodeId}
    {fresh gone : RingItem} (hfresh : fresh.msg n = made)
    (hgone : (gone.msg n).Precedes made)
    (hlater : ∀ msg, made.Precedes msg → (gone.msg n).Precedes msg)
    (msg : RingMsg) :
    [made].count msg + ancestors msg [(n, fresh)] ≤
      ancestors msg [(n, gone)] := by
  rw [ancestors_singleton, ancestors_singleton, hfresh]
  by_cases hmsg : msg = made
  · subst hmsg
    rw [if_neg (not_precedes_self msg), if_pos hgone, List.count_singleton_self]
  · have hzero : [made].count msg = 0 := by
      rw [List.count_eq_zero, List.mem_singleton]
      exact hmsg
    rw [hzero, Nat.zero_add]
    by_cases hprecedes : made.Precedes msg
    · rw [if_pos hprecedes, if_pos (hlater msg hprecedes)]
    · rw [if_neg hprecedes]
      exact Nat.zero_le _

namespace CrashRing

/-- The times that `msg` was made, and those that it may still be made without
another call of `start_election`. -/
def lineage (msg : RingMsg) (s : CrashRing) : Nat :=
  s.originated.count msg + ancestors msg s.ring.items

theorem lineage_effect (msg : RingMsg) (s' : CrashRing)
    {gone fresh rest : List (NodeId × RingItem)}
    (hbefore : s.ring.items.Perm (gone ++ rest))
    (hafter : s'.ring.items.Perm (fresh ++ rest)) (k : Nat)
    (hcount : s'.originated.count msg + ancestors msg fresh ≤
      s.originated.count msg + ancestors msg gone + k) :
    lineage msg s' ≤ lineage msg s + k := by
  have hgone : ancestors msg s.ring.items =
      ancestors msg gone + ancestors msg rest := by
    rw [ancestors, hbefore.countP_eq, List.countP_append]
    rfl
  have hcame : ancestors msg s'.ring.items =
      ancestors msg fresh + ancestors msg rest := by
    rw [ancestors, hafter.countP_eq, List.countP_append]
    rfl
  rw [lineage, lineage]
  omega

private theorem lineage_deliver (msg : RingMsg) {packet : Nat} {n : NodeId}
    {msg' : RingMsg} {network : List (NodeId × RingMsg)}
    (hpick : pick s.ring.network packet = some ((n, msg'), network)) :
    lineage msg ({ s with ring := { s.ring with network := network } }.deliver n
      msg') ≤ lineage msg s := by
  obtain ⟨rest, hbefore, hafter⟩ := items_handle hpick
  have hgone : s.ring.items.Perm ([(n, .message msg')] ++ rest) := hbefore
  refine lineage_effect msg _ hgone hafter 0 ?_
  simp only [deliver, List.count_append]
  suffices hle : (originates (s.ring.node n) n msg').toList.count msg +
      ancestors msg ((followUp (s.ring.node n) n msg').map fun todo =>
        (n, RingItem.task todo)).toList ≤
          ancestors msg [(n, .message msg')] by omega
  cases msg' with
  | elected leaderId =>
      simp only [originates, followUp, Option.toList_none, List.count_nil,
        Nat.zero_add, Option.map_some, Option.toList_some]
      exact ancestors_le_of_msg_eq msg rfl
  | election candidateId =>
      rcases Nat.lt_trichotomy candidateId n with hlt | heq | hgt
      · have hnot := Nat.lt_asymm hlt
        cases hparticipant : (s.ring.node n).participant with
        | true => simp [originates, followUp, hnot, hlt, hparticipant, ancestors]
        | false =>
            simp only [originates, followUp, hnot, hlt, hparticipant, if_true,
              if_false, Bool.false_eq_true, Option.map_some, Option.toList_some]
            apply count_add_ancestors_le (.election n) rfl
            · exact hlt
            · intro msg hlater
              cases msg with
              | election c => exact Nat.lt_trans hlt hlater
              | elected l => exact Nat.le_trans (Nat.le_of_lt hlt) hlater
      · subst heq
        simp only [originates, followUp, gt_iff_lt, lt_irrefl, if_false,
          Option.map_some, Option.toList_some]
        apply count_add_ancestors_le (.elected candidateId) rfl
        · exact Nat.le_refl candidateId
        · intro msg hlater
          cases hlater
      · simp only [originates, followUp, gt_iff_lt, hgt, if_true,
          Option.toList_none, List.count_nil, Nat.zero_add, Option.map_some,
          Option.toList_some]
        exact ancestors_le_of_msg_eq msg rfl

private theorem lineage_resume (msg : RingMsg) {task : Nat} {stale : List NodeId}
    {todo : NodeId × RingTask} {running : List (NodeId × RingTask)}
    (hpick : pick s.ring.running task = some (todo, running)) :
    lineage msg { s with
      ring := execute order stale s.live
        { s.ring with running := running } todo } ≤ lineage msg s := by
  obtain ⟨n, todo⟩ := todo
  have hsend : ∀ (r : RingSystem) (msg' : RingMsg),
      (RingItem.task todo).msg n = msg' →
      r.network = (sendToSuccessor order stale s.live
        { s.ring with running := running } n msg').network →
      r.running = running → lineage msg { s with ring := r } ≤
        lineage msg s := by
    intro r msg' hmsg hnetwork hrunning
    obtain ⟨sent, hsent, hcases⟩ := network_sendToSuccessor order stale s.live
      { s.ring with running := running } n msg'
    obtain ⟨rest, hbefore, hafter⟩ := items_resume hpick r sent []
      (hnetwork.trans hsent) hrunning
    refine lineage_effect msg _ hbefore hafter 0 ?_
    rcases hcases with rfl | ⟨target, rfl⟩
    · simp [ancestors]
    · rw [← hmsg]
      exact Nat.le_refl _
  cases todo with
  | passElection candidateId =>
      exact hsend _ _ rfl rfl (running_sendToSuccessor _ _ _ _ _ _)
  | announce =>
      exact hsend _ _ rfl rfl
        (running_sendToSuccessor order stale s.live _ n _)
  | passElected leaderId =>
      exact hsend _ _ rfl rfl (running_sendToSuccessor _ _ _ _ _ _)
  | adopt leaderId =>
      rw [execute]
      dsimp only
      split
      · obtain ⟨rest, hbefore, hafter⟩ := items_resume hpick
          ((RingSystem.setNode { s.ring with running := running } n
            { s.ring.node n with
              leaderId := some leaderId
              electionComplete := true }).later n (.passElected leaderId))
          [] [(n, .passElected leaderId)] rfl rfl
        apply lineage_effect msg _ hbefore hafter 0
        have hle : ancestors msg [(n, .task (.passElected leaderId))] ≤
            ancestors msg [(n, .task (.adopt leaderId))] :=
          ancestors_le_of_msg_eq msg rfl
        exact Nat.add_le_add_left hle _
      · obtain ⟨rest, hbefore, hafter⟩ := items_resume hpick
          (RingSystem.setNode { s.ring with running := running } n
            { s.ring.node n with
              leaderId := some leaderId
              electionComplete := true }) [] [] rfl rfl
        refine lineage_effect msg _ hbefore hafter 0 ?_
        simp [ancestors]

private theorem lineage_step (msg : RingMsg) {s' : CrashRing} {a : CrashRingAction}
    (hstep : s.step order a = some s') :
    lineage msg s' ≤ lineage msg s + [a].countP CrashRingAction.starts := by
  cases a with
  | startElection n =>
      obtain ⟨hn, heq⟩ := Option.ite_none_right_eq_some.mp hstep
      obtain rfl := Option.some.inj heq
      have hafter : (s.ring.startElection n).items.Perm
          ([(n, .task (.passElection n))] ++ s.ring.items) :=
        List.perm_middle
      refine lineage_effect msg _ (List.Perm.refl ([] ++ s.ring.items)) hafter 1
        ?_
      have hle : [RingMsg.election n].count msg +
          ancestors msg [(n, .task (.passElection n))] ≤ 1 :=
        count_add_ancestors_le_one (.election n) rfl msg
      simp only [List.count_append]
      omega
  | deliver packet =>
      obtain ⟨⟨⟨n, msg'⟩, network⟩, hpick, rfl⟩ :=
        Option.map_eq_some_iff.mp hstep
      exact lineage_deliver msg hpick
  | resume task stale =>
      obtain ⟨⟨todo, running⟩, hpick, rfl⟩ := Option.map_eq_some_iff.mp hstep
      exact lineage_resume msg hpick
  | crash x =>
      obtain ⟨-, heq⟩ := Option.ite_none_right_eq_some.mp hstep
      obtain rfl := Option.some.inj heq
      have hle : ancestors msg (s.ring.items.filter (·.1 ≠ x)) ≤
          ancestors msg s.ring.items := List.filter_sublist.countP_le
      rw [lineage, lineage, items_filter]
      exact Nat.add_le_add_left hle _

private theorem run_lineage (msg : RingMsg) {s' : CrashRing}
    {actions : List CrashRingAction}
    (hrun : run (step order) s actions = some s') :
    lineage msg s' ≤
      lineage msg s + actions.countP CrashRingAction.starts := by
  induction actions generalizing s with
  | nil =>
      cases hrun
      exact Nat.le_refl _
  | cons a rest ih =>
      obtain ⟨s₁, hstep, hrest⟩ := run_cons.mp hrun
      have h₁ := lineage_step msg hstep
      have h₂ := ih hrest
      rw [List.countP_singleton] at h₁
      rw [List.countP_cons]
      omega

/--
In every run in which each crash leaves a node to stop the messages under way,
each node has handled each message at most once for each time it was made, and no
message was made more often than an election was started.
-/
theorem run_dies_out {order : List NodeId} (hnodup : order.Nodup)
    {live : Finset NodeId} (hlive : ∀ n ∈ live, n ∈ order)
    (actions : List CrashRingAction) (s : CrashRing)
    (hspared : Along (step order) Spared (new live) actions)
    (hrun : run (step order) (new live) actions = some s) (n : NodeId)
    (msg : RingMsg) : s.handled.count (n, msg) ≤ s.originated.count msg ∧
      s.originated.count msg ≤ actions.countP CrashRingAction.starts := by
  have h : s.Inv order :=
    run_invariant (fun _ _ _ h hok hstep => h.step hnodup hok hstep)
      (inv_new hlive) hspared hrun
  refine ⟨Nat.le_trans (Nat.le_add_right _ _) (h.bounded n msg), ?_⟩
  have hmade := run_lineage msg hrun
  have hzero : lineage msg (new live) = 0 := rfl
  rw [hzero, Nat.zero_add] at hmade
  exact Nat.le_trans (Nat.le_add_right _ _) hmade

/-- The new leader crashes while its announcement is under way, and the other two
nodes pass the announcement to each other. -/
def leaderless : List CrashRingAction :=
  [.startElection 2, .resume 0 [], .deliver 0, .resume 0 [], .deliver 0,
    .resume 0 [], .deliver 0, .resume 0 [], .crash 2] ++
  (List.replicate 6 [.deliver 0, .resume 0 [], .resume 0 []]).flatten

theorem leaderless_circulates :
    ∃ s, run (step [0, 1, 2]) (new {0, 1, 2}) leaderless = some s ∧
      s.originated.count (.elected 2) = 1 ∧
      s.handled.count (0, .elected 2) = 3 ∧
      s.ring.network = [(0, .elected 2)] := by
  have hend : (run (step [0, 1, 2]) (new {0, 1, 2}) leaderless).map (fun s =>
      decide (s.originated.count (.elected 2) = 1 ∧
        s.handled.count (0, .elected 2) = 3 ∧
        s.ring.network = [(0, .elected 2)])) = some true := by
    decide +kernel
  obtain ⟨s, hs, hdec⟩ := Option.map_eq_some_iff.mp hend
  exact ⟨s, hs, of_decide_eq_true hdec⟩

/-- Node 1 crashes while the token of node 2 is under way. -/
def lowerCrash : List CrashRingAction :=
  [.startElection 2, .resume 0 [], .crash 1, .deliver 0, .resume 0 [],
    .deliver 0, .resume 0 [], .deliver 0, .resume 0 [], .resume 0 [],
    .deliver 0, .resume 0 []]

theorem lowerCrash_dies_out :
    ∃ s, run (step [0, 1, 2]) (new {0, 1, 2}) lowerCrash = some s ∧
      s.ring.Quiet ∧ ∀ n msg,
        s.handled.count (n, msg) ≤ s.originated.count msg ∧
          s.originated.count msg ≤ 1 := by
  have hend : (run (step [0, 1, 2]) (new {0, 1, 2}) lowerCrash).map (fun s =>
      decide (s.ring.network = [] ∧ s.ring.running = [])) = some true := by
    decide +kernel
  obtain ⟨s, hs, hdec⟩ := Option.map_eq_some_iff.mp hend
  have hquiet : s.ring.network = [] ∧ s.ring.running = [] :=
    of_decide_eq_true hdec
  exact ⟨s, hs, hquiet, run_dies_out (by decide) (by decide) lowerCrash s
    (by decide +kernel) hs⟩

end CrashRing

end DistributedMemory.Election
