import DistributedMemory.Election.RingCrash

/-!
# An election after crashes

Earlier elections that were cut off by crashes leave nodes that still hold
themselves for participants.  When nothing is under way and one node starts an
election, a single token walks round: its candidate is the highest node met so
far, until it meets a higher node that is a participant, which swallows it.  If
that does not happen the token comes back to the highest live node.

`c` is the ring with the nodes that are live when the election starts.  Positions
in the first round are counted from the node that starts, and in the round of the
announcement from the highest live node.
-/

namespace DistributedMemory.Election

open DistributedMemory.Library
open DistributedMemory.Network (NodeId)

def Overtakes (order : List NodeId) (live : Finset NodeId) (k n : NodeId) :
    Prop :=
  ∀ x ∈ live, Cycle.position order k x < Cycle.position order k n → x < n

/-- No node that is higher than all live nodes from `k` on up to it holds itself
for a participant. -/
def Unobstructed (order : List NodeId) (s : CrashRing) (k : NodeId) : Prop :=
  ∀ n ∈ s.live, n ≠ k → Overtakes order s.live k n →
    (s.ring.node n).participant = false

def CrashRingAction.handles : CrashRingAction → Bool
  | .deliver _ => true
  | .resume _ stale => stale.isEmpty
  | _ => false

/-- Node `k` starts an election in `s`, and everything that results is handled;
no message is lost, no node crashes, and no other election is started. -/
structure Completes (order : List NodeId) (s : CrashRing) (k : NodeId)
    (actions : List CrashRingAction) (t : CrashRing) : Prop where
  reaches : run (CrashRing.step order) s (.startElection k :: actions) = some t
  handles : ∀ a ∈ actions, a.handles = true
  quiet : t.ring.Quiet

section Walk

variable (c : RingConfig) (k : NodeId) (s : RingSystem)

/-- The token has passed the nodes before position `p`, and its candidate is the
highest of them.  The other nodes are as they were in `s`. -/
structure Searching (candidateId : NodeId) (p : Nat) (r : RingSystem) :
    Prop where
  candidate : candidateId ∈ c.live ∧ Cycle.position c.order k candidateId < p
  highest : ∀ x ∈ c.live, Cycle.position c.order k x < p → x ≤ candidateId
  passed : ∀ n ∈ c.live, n ≠ k → Cycle.position c.order k n < p →
    Overtakes c.order c.live k n → (s.node n).participant = false
  ahead : ∀ n ∈ c.live, p ≤ Cycle.position c.order k n →
    (r.node n).participant = (s.node n).participant
  leaders : ∀ n ∈ c.live, (r.node n).leaderId = (s.node n).leaderId

def Told (p : Nat) (r : RingSystem) : Prop :=
  ∀ n ∈ c.live, c.rank n < p → (r.node n).leaderId = some c.highest

def NoneObstructs : Prop :=
  ∀ n ∈ c.live, n ≠ k → Overtakes c.order c.live k n →
    (s.node n).participant = false

/-- Where the election stands, with a bound on the steps that are left. -/
inductive Stage : Nat → RingSystem → Prop
  | search {m : Nat} {r : RingSystem} {candidateId y : NodeId}
      (hy : y ∈ c.live)
      (hsearch : Searching c k s candidateId (Cycle.position c.order k y) r)
      (hnetwork : r.network = [(y, .election candidateId)])
      (hrunning : r.running = [])
      (hm : 8 * c.order.length ≤ m + 2 * Cycle.position c.order k y) :
      Stage m r
  | pass {m : Nat} {r : RingSystem} {candidateId x : NodeId}
      (hx : x ∈ c.live)
      (hsearch : Searching c k s candidateId (Cycle.position c.order k x + 1) r)
      (hnetwork : r.network = [])
      (hrunning : r.running = [(x, .passElection candidateId)])
      (hm : 8 * c.order.length ≤ m + 2 * Cycle.position c.order k x + 1) :
      Stage m r
  | swallowed {m : Nat} {r : RingSystem} (hobstructs : ¬ NoneObstructs c k s)
      (hleaders : ∀ n ∈ c.live, (r.node n).leaderId = (s.node n).leaderId)
      (hquiet : r.Quiet) :
      Stage m r
  | comeBack {m : Nat} {r : RingSystem} {y : NodeId}
      (hnone : NoneObstructs c k s) (hy : y ∈ c.live)
      (hle : Cycle.position c.order k y ≤ Cycle.position c.order k c.highest)
      (hnetwork : r.network = [(y, .election c.highest)])
      (hrunning : r.running = [])
      (hm : 6 * c.order.length ≤ m + 2 * Cycle.position c.order k y) :
      Stage m r
  | passBack {m : Nat} {r : RingSystem} {x : NodeId}
      (hnone : NoneObstructs c k s) (hx : x ∈ c.live)
      (hlt : Cycle.position c.order k x < Cycle.position c.order k c.highest)
      (hnetwork : r.network = [])
      (hrunning : r.running = [(x, .passElection c.highest)])
      (hm : 6 * c.order.length ≤ m + 2 * Cycle.position c.order k x + 1) :
      Stage m r
  | announce {m : Nat} {r : RingSystem} (hnone : NoneObstructs c k s)
      (htold : Told c 1 r) (hnetwork : r.network = [])
      (hrunning : r.running = [(c.highest, .announce)])
      (hm : 4 * c.order.length ≤ m) :
      Stage m r
  | inform {m : Nat} {r : RingSystem} {y : NodeId}
      (hnone : NoneObstructs c k s) (hy : y ∈ c.live) (hne : y ≠ c.highest)
      (htold : Told c (c.rank y) r)
      (hnetwork : r.network = [(y, .elected c.highest)])
      (hrunning : r.running = [])
      (hm : 4 * c.order.length ≤ m + 3 * c.rank y) :
      Stage m r
  | adopt {m : Nat} {r : RingSystem} {x : NodeId}
      (hnone : NoneObstructs c k s) (hx : x ∈ c.live) (hne : x ≠ c.highest)
      (htold : Told c (c.rank x) r) (hnetwork : r.network = [])
      (hrunning : r.running = [(x, .adopt c.highest)])
      (hm : 4 * c.order.length ≤ m + 3 * c.rank x + 1) :
      Stage m r
  | passElected {m : Nat} {r : RingSystem} {x : NodeId}
      (hnone : NoneObstructs c k s) (hx : x ∈ c.live) (hne : x ≠ c.highest)
      (htold : Told c (c.rank x + 1) r) (hnetwork : r.network = [])
      (hrunning : r.running = [(x, .passElected c.highest)])
      (hm : 4 * c.order.length ≤ m + 3 * c.rank x + 2) :
      Stage m r
  | hearBack {m : Nat} {r : RingSystem} (hnone : NoneObstructs c k s)
      (htold : Told c c.order.length r)
      (hnetwork : r.network = [(c.highest, .elected c.highest)])
      (hrunning : r.running = []) (hm : 2 ≤ m) :
      Stage m r
  | finish {m : Nat} {r : RingSystem} (hnone : NoneObstructs c k s)
      (htold : Told c c.order.length r) (hnetwork : r.network = [])
      (hrunning : r.running = [(c.highest, .adopt c.highest)]) (hm : 1 ≤ m) :
      Stage m r
  | elected {m : Nat} {r : RingSystem} (hnone : NoneObstructs c k s)
      (htold : Told c c.order.length r) (hquiet : r.Quiet) :
      Stage m r

variable {c k s}

/-! ## One step -/

private theorem step_message {t t' : CrashRing} {a : CrashRingAction} {n : NodeId}
    {msg : RingMsg} (hnetwork : t.ring.network = [(n, msg)])
    (hrunning : t.ring.running = []) (ha : a.handles = true)
    (hstep : t.step c.order a = some t') : t'.live = t.live ∧
      t'.ring = ({ t.ring with network := [] } : RingSystem).handle (n, msg) := by
  cases a with
  | deliver packet =>
      obtain ⟨⟨⟨n', msg'⟩, rest⟩, hpick, rfl⟩ :=
        Option.map_eq_some_iff.mp hstep
      obtain ⟨heq, rfl⟩ := pick_singleton hnetwork hpick
      cases heq
      exact ⟨rfl, rfl⟩
  | resume task stale =>
      obtain ⟨⟨todo, rest⟩, hpick, -⟩ := Option.map_eq_some_iff.mp hstep
      exact absurd hrunning (pick_ne_nil hpick)
  | startElection n => cases ha
  | crash n => cases ha

private theorem step_task {t t' : CrashRing} {a : CrashRingAction}
    {todo : NodeId × RingTask} (hnetwork : t.ring.network = [])
    (hrunning : t.ring.running = [todo]) (ha : a.handles = true)
    (hstep : t.step c.order a = some t') : t'.live = t.live ∧
      t'.ring = CrashRing.execute c.order [] t.live
        { t.ring with running := [] } todo := by
  cases a with
  | deliver packet =>
      obtain ⟨⟨x, rest⟩, hpick, -⟩ := Option.map_eq_some_iff.mp hstep
      exact absurd hnetwork (pick_ne_nil hpick)
  | resume task stale =>
      obtain ⟨⟨todo', rest⟩, hpick, rfl⟩ := Option.map_eq_some_iff.mp hstep
      obtain ⟨rfl, rfl⟩ := pick_singleton hrunning hpick
      obtain rfl : stale = [] := List.isEmpty_iff.mp ha
      exact ⟨rfl, rfl⟩
  | startElection n => cases ha
  | crash n => cases ha

theorem Searching.message {m : Nat} {r : RingSystem} {candidateId y : NodeId}
    (hk : k ∈ c.live) (hy : y ∈ c.live)
    (h : Searching c k s candidateId (Cycle.position c.order k y) r)
    (hnetwork : r.network = []) (hrunning : r.running = [])
    (hm : 8 * c.order.length ≤ m + 2 * Cycle.position c.order k y + 1) :
    Stage c k s m (r.handle (y, .election candidateId)) := by
  have hsame : ∀ x ∈ c.live, Cycle.position c.order k x <
      Cycle.position c.order k y + 1 → x ≠ y →
      Cycle.position c.order k x < Cycle.position c.order k y := by
    intro x hx hlt hne
    have hpos : Cycle.position c.order k x ≠ Cycle.position c.order k y :=
      fun heq => hne (Cycle.eq_of_position_eq (c.onRing k hk) (c.onRing x hx)
        (c.onRing y hy) heq)
    omega
  have hstart : y ≠ k := by
    rintro rfl
    have hlt := h.candidate.2
    rw [Cycle.position_start c.nodup (c.onRing y hy)] at hlt
    exact Nat.not_lt_zero _ hlt
  -- The token goes on with the higher of the two candidates.
  have hpass : ∀ id, id ∈ c.live → Cycle.position c.order k id <
      Cycle.position c.order k y + 1 → candidateId ≤ id → y ≤ id →
      (Overtakes c.order c.live k y → (s.node y).participant = false) →
      Stage c k s m ((r.setNode y { r.node y with participant := true }).later y
        (.passElection id)) := by
    intro id hid hpos hcandidate hyid hparticipant
    refine .pass hy ⟨⟨hid, hpos⟩, fun x hx hlt => ?_, fun n hn hnk hlt => ?_,
      fun n hn hle => ?_, fun n hn => ?_⟩ hnetwork
      (by simp [RingSystem.later, RingSystem.setNode, hrunning]) hm
    · by_cases hxy : x = y
      · exact hxy ▸ hyid
      · exact Nat.le_trans (h.highest x hx (hsame x hx hlt hxy)) hcandidate
    · by_cases hny : n = y
      · exact hny ▸ hparticipant
      · exact h.passed n hn hnk (hsame n hn hlt hny)
    · have hny : n ≠ y := by
        rintro rfl
        omega
      simp only [RingSystem.later, RingSystem.setNode,
        Function.update_of_ne hny]
      exact h.ahead n hn (by omega)
    · simp only [RingSystem.later, RingSystem.setNode, Function.update_apply]
      split
      · next heq => exact heq ▸ h.leaders y hy
      · exact h.leaders n hn
  have hahead := h.ahead y hy (Nat.le_refl _)
  have hcpos := h.candidate.2
  rw [RingSystem.handle, RingSystem.handleElectionRing]
  rcases Nat.lt_trichotomy candidateId y with hlt | heq | hgt
  · have hovertakes : Overtakes c.order c.live k y := fun x hx hxy =>
      Nat.lt_of_le_of_lt (h.highest x hx hxy) hlt
    rw [if_neg (Nat.lt_asymm hlt), if_pos hlt]
    split
    · next hparticipant =>
      refine .swallowed (fun hnone => ?_) h.leaders ⟨hnetwork, hrunning⟩
      rw [hahead, hnone y hy hstart hovertakes] at hparticipant
      cases hparticipant
    · next hparticipant =>
      apply hpass y hy (Nat.lt_succ_self _) (Nat.le_of_lt hlt) (Nat.le_refl _)
      intro _
      rw [← hahead]
      simpa using hparticipant
  · rw [heq] at hcpos
    exact absurd hcpos (lt_irrefl _)
  · rw [if_pos hgt]
    apply hpass candidateId h.candidate.1 (by omega) (Nat.le_refl _)
      (Nat.le_of_lt hgt)
    intro hovertakes
    exact absurd (hovertakes candidateId h.candidate.1 hcpos)
      (Nat.lt_asymm hgt)

theorem next_live {base x : NodeId} (hbase : base ∈ c.order) (hx : x ∈ c.live)
    (r : RingSystem) (msg : RingMsg) :
    ∃ m ∈ c.live, m ≠ x ∧
      CrashRing.sendToSuccessor c.order [] c.live r x msg =
        { r with network := (m, msg) :: r.network } ∧
      ((Cycle.position c.order base x < Cycle.position c.order base m ∧
        ∀ y ∈ c.live, Cycle.position c.order base x <
            Cycle.position c.order base y →
          Cycle.position c.order base m ≤ Cycle.position c.order base y) ∨
      ((∀ y ∈ c.live, Cycle.position c.order base y ≤
          Cycle.position c.order base x) ∧
        ∀ y ∈ c.live, Cycle.position c.order base m ≤
          Cycle.position c.order base y)) := by
  rcases CrashRing.sendToSuccessor_cases c.nodup c.onRing (c.onRing x hx) []
    r msg with ⟨m, hm, hne, hnearest, hsend⟩ | ⟨hnone, -⟩
  · exact ⟨m, hm, hne, hsend, Cycle.nearest_cases c.nodup hbase c.onRing
      (c.onRing x hx) hm hne hnearest⟩
  · exfalso
    obtain ⟨a, ha, b, hb, hab⟩ := Finset.one_lt_card.mp c.several
    exact hab ((hnone rfl a ha).trans (hnone rfl b hb).symm)

theorem Searching.pass {m : Nat} {r : RingSystem} {candidateId x : NodeId}
    (hk : k ∈ c.live) (hx : x ∈ c.live)
    (h : Searching c k s candidateId (Cycle.position c.order k x + 1) r)
    (hnetwork : r.network = []) (hrunning : r.running = [])
    (hm : 8 * c.order.length ≤ m + 2 * Cycle.position c.order k x + 2) :
    Stage c k s m (CrashRing.sendToSuccessor c.order [] c.live r x
      (.election candidateId)) := by
  obtain ⟨y, hy, -, hsend, hcases⟩ :=
    next_live (c.onRing k hk) hx r (.election candidateId)
  have hnetwork' : (y, RingMsg.election candidateId) :: r.network =
      [(y, .election candidateId)] := by
    rw [hnetwork]
  rw [hsend]
  rcases hcases with ⟨hlt, hnearest⟩ | ⟨hlast, hfirst⟩
  · have hbefore : ∀ z ∈ c.live, Cycle.position c.order k z <
        Cycle.position c.order k y →
        Cycle.position c.order k z < Cycle.position c.order k x + 1 := by
      intro z hz hzy
      by_contra hbeyond
      have := hnearest z hz (by omega)
      omega
    refine .search hy ⟨⟨h.candidate.1, ?_⟩, fun z hz hlt' => ?_,
      fun n hn hnk hlt' => ?_, fun n hn hle => ?_, h.leaders⟩ hnetwork' hrunning
      (by omega)
    · have := h.candidate.2
      omega
    · exact h.highest z hz (hbefore z hz hlt')
    · exact h.passed n hn hnk (hbefore n hn hlt')
    · exact h.ahead n hn (by omega)
  · have hall : ∀ z ∈ c.live, Cycle.position c.order k z <
        Cycle.position c.order k x + 1 := fun z hz =>
      Nat.lt_succ_of_le (hlast z hz)
    have hcandidate : candidateId = c.highest :=
      Nat.le_antisymm (c.le_highest h.candidate.1)
        (h.highest _ c.highest_live (hall _ c.highest_live))
    have hposx := Cycle.position_lt (c.onRing k hk) x
    exact .comeBack (fun n hn hnk => h.passed n hn hnk (hall n hn)) hy
      (hfirst _ c.highest_live) (hcandidate ▸ hnetwork') hrunning (by omega)

private theorem comeBack_message {m : Nat} {r : RingSystem} {y : NodeId}
    (hk : k ∈ c.live) (hnone : NoneObstructs c k s) (hy : y ∈ c.live)
    (hle : Cycle.position c.order k y ≤ Cycle.position c.order k c.highest)
    (hnetwork : r.network = []) (hrunning : r.running = [])
    (hm : 6 * c.order.length ≤ m + 2 * Cycle.position c.order k y + 1) :
    Stage c k s m (r.handle (y, .election c.highest)) := by
  rw [RingSystem.handle, RingSystem.handleElectionRing]
  by_cases heq : y = c.highest
  · subst heq
    rw [if_neg (lt_irrefl _), if_neg (lt_irrefl _)]
    have hposy := Cycle.position_lt (c.onRing k hk) c.highest
    refine .announce hnone (fun n hn hlt => ?_) hnetwork ?_ (by omega)
    · obtain rfl : n = c.highest := by
        apply c.eq_of_rank_eq hn hy
        rw [c.rank_highest]
        omega
      simp [RingSystem.later, RingSystem.setNode]
    · simp [RingSystem.later, RingSystem.setNode, hrunning]
  · have hlt := Nat.lt_of_le_of_ne (c.le_highest hy) heq
    rw [if_pos hlt]
    have hpos : Cycle.position c.order k y ≠
        Cycle.position c.order k c.highest := fun hpos =>
      heq (Cycle.eq_of_position_eq (c.onRing k hk) (c.onRing y hy)
        c.highest_onRing hpos)
    exact .passBack hnone hy (Nat.lt_of_le_of_ne hle hpos) hnetwork
      (by simp [RingSystem.later, RingSystem.setNode, hrunning]) (by omega)

private theorem passBack_task {m : Nat} {r : RingSystem} {x : NodeId}
    (hk : k ∈ c.live) (hnone : NoneObstructs c k s) (hx : x ∈ c.live)
    (hlt : Cycle.position c.order k x < Cycle.position c.order k c.highest)
    (hnetwork : r.network = []) (hrunning : r.running = [])
    (hm : 6 * c.order.length ≤ m + 2 * Cycle.position c.order k x + 2) :
    Stage c k s m (CrashRing.sendToSuccessor c.order [] c.live r x
      (.election c.highest)) := by
  obtain ⟨y, hy, -, hsend, ⟨hxy, hnearest⟩ | ⟨hlast, -⟩⟩ :=
    next_live (c.onRing k hk) hx r (.election c.highest)
  · rw [hsend]
    exact .comeBack hnone hy (hnearest _ c.highest_live hlt)
      (congrArg _ hnetwork) hrunning (by omega)
  · have := hlast _ c.highest_live
    omega

theorem Told.pass {m : Nat} {r r' : RingSystem} {x : NodeId}
    (hnone : NoneObstructs c k s) (hx : x ∈ c.live)
    (htold : Told c (c.rank x + 1) r') (hnetwork : r.network = [])
    (hsend : r'.network = (CrashRing.sendToSuccessor c.order [] c.live r x
      (.elected c.highest)).network)
    (hrunning : r'.running = [])
    (hm : 4 * c.order.length ≤ m + 3 * c.rank x + 3) : Stage c k s m r' := by
  obtain ⟨y, hy, hne, heq, hcases⟩ :=
    next_live c.highest_onRing hx r (.elected c.highest)
  have hnetwork' : r'.network = [(y, .elected c.highest)] := by
    rw [hsend, heq, hnetwork]
  have hxlt := c.rank_lt x
  rcases hcases with ⟨hlt, hnearest⟩ | ⟨hlast, hfirst⟩
  · have hlt : c.rank x < c.rank y := hlt
    have hyh : y ≠ c.highest := by
      rintro rfl
      rw [c.rank_highest] at hlt
      exact Nat.not_lt_zero _ hlt
    refine .inform hnone hy hyh (fun n hn hny => htold n hn ?_) hnetwork'
      hrunning (by omega)
    by_contra hbeyond
    have hle : c.rank y ≤ c.rank n := hnearest n hn (by
      change c.rank x < c.rank n
      omega)
    omega
  · have hzero : c.rank y ≤ c.rank c.highest := hfirst _ c.highest_live
    rw [c.rank_highest] at hzero
    have hyh : y = c.highest := by
      apply c.eq_of_rank_eq hy c.highest_live
      rw [c.rank_highest]
      omega
    have hpos : 0 < c.rank x := c.rank_pos hx (hyh ▸ hne.symm)
    exact .hearBack hnone
      (fun n hn _ => htold n hn (Nat.lt_succ_of_le (hlast n hn)))
      (hyh ▸ hnetwork') hrunning (by omega)

theorem Told.update {p : Nat} {r : RingSystem} (h : Told c p r) {n : NodeId}
    {e : ChangRobertsElection}
    (he : e.leaderId = (r.node n).leaderId ∨ e.leaderId = some c.highest) :
    Told c p (r.setNode n e) := by
  intro x hx hlt
  have htold := h x hx hlt
  simp only [RingSystem.setNode, Function.update_apply]
  split
  · next heq =>
    rcases he with he | he
    · rw [he, ← heq, htold]
    · exact he
  · exact htold

private theorem not_quiet_of_step {t t' : CrashRing} {a : CrashRingAction}
    (ha : a.handles = true) (hstep : t.step c.order a = some t') :
    ¬ t.ring.Quiet := by
  rintro ⟨hnetwork, hrunning⟩
  cases a with
  | deliver packet =>
      obtain ⟨⟨x, rest⟩, hpick, -⟩ := Option.map_eq_some_iff.mp hstep
      exact absurd hnetwork (pick_ne_nil hpick)
  | resume task stale =>
      obtain ⟨⟨todo, rest⟩, hpick, -⟩ := Option.map_eq_some_iff.mp hstep
      exact absurd hrunning (pick_ne_nil hpick)
  | startElection n => cases ha
  | crash n => cases ha

theorem Stage.step {m : Nat} {t t' : CrashRing} {a : CrashRingAction}
    (hk : k ∈ c.live) (h : Stage c k s m t.ring) (hlive : t.live = c.live)
    (ha : a.handles = true) (hstep : t.step c.order a = some t') :
    ∃ m', m = m' + 1 ∧ Stage c k s m' t'.ring ∧ t'.live = c.live := by
  have hposition := Cycle.position_lt (c.onRing k hk)
  have hrank := c.rank_lt
  have hseveral : 0 < c.order.length :=
    List.length_pos_of_mem c.highest_onRing
  have hmessage : ∀ {n : NodeId} {msg : RingMsg},
      t.ring.network = [(n, msg)] → t.ring.running = [] → 0 < m →
      (∀ m', m = m' + 1 → Stage c k s m'
        (RingSystem.handle { t.ring with network := [] } (n, msg))) →
      ∃ m', m = m' + 1 ∧ Stage c k s m' t'.ring ∧ t'.live = c.live := by
    intro n msg hnetwork hrunning hm hnext
    obtain ⟨m', rfl⟩ := Nat.exists_eq_succ_of_ne_zero (Nat.ne_of_gt hm)
    obtain ⟨hlive', hring⟩ := step_message hnetwork hrunning ha hstep
    exact ⟨m', rfl, hring ▸ hnext m' rfl, hlive'.trans hlive⟩
  have htask : ∀ {todo : NodeId × RingTask},
      t.ring.network = [] → t.ring.running = [todo] → 0 < m →
      (∀ m', m = m' + 1 → Stage c k s m' (CrashRing.execute c.order [] c.live
        { t.ring with running := [] } todo)) →
      ∃ m', m = m' + 1 ∧ Stage c k s m' t'.ring ∧ t'.live = c.live := by
    intro todo hnetwork hrunning hm hnext
    obtain ⟨m', rfl⟩ := Nat.exists_eq_succ_of_ne_zero (Nat.ne_of_gt hm)
    obtain ⟨hlive', hring⟩ := step_task hnetwork hrunning ha hstep
    exact ⟨m', rfl, hring ▸ hlive ▸ hnext m' rfl, hlive'.trans hlive⟩
  have hquiet := not_quiet_of_step ha hstep
  cases h with
  | @search candidateId y hy hsearch hnetwork hrunning hm =>
      have := hposition y
      refine hmessage hnetwork hrunning (by omega) fun m' hm' => ?_
      exact Searching.message hk hy ⟨hsearch.candidate, hsearch.highest,
        hsearch.passed, hsearch.ahead, hsearch.leaders⟩ rfl hrunning (by omega)
  | @pass candidateId x hx hsearch hnetwork hrunning hm =>
      have := hposition x
      refine htask hnetwork hrunning (by omega) fun m' hm' => ?_
      exact Searching.pass hk hx ⟨hsearch.candidate, hsearch.highest,
        hsearch.passed, hsearch.ahead, hsearch.leaders⟩ hnetwork rfl (by omega)
  | swallowed hobstructs hleaders hq => exact absurd hq hquiet
  | @comeBack y hnone hy hle hnetwork hrunning hm =>
      have := hposition y
      refine hmessage hnetwork hrunning (by omega) fun m' hm' => ?_
      exact comeBack_message hk hnone hy hle rfl hrunning (by omega)
  | @passBack x hnone hx hlt hnetwork hrunning hm =>
      have := hposition x
      refine htask hnetwork hrunning (by omega) fun m' hm' => ?_
      exact passBack_task hk hnone hx hlt hnetwork rfl (by omega)
  | announce hnone htold hnetwork hrunning hm =>
      refine htask hnetwork hrunning (by omega) fun m' hm' => ?_
      refine Told.pass (r := { t.ring with running := [] }) hnone
        c.highest_live (Told.update ?_ (.inl ?_)) hnetwork rfl ?_ (by omega)
      · intro n hn hlt
        rw [CrashRing.node_sendToSuccessor]
        rw [c.rank_highest] at hlt
        exact htold n hn hlt
      · rw [CrashRing.node_sendToSuccessor]
      · exact CrashRing.running_sendToSuccessor _ _ _ _ _ _
  | @inform y hnone hy hne htold hnetwork hrunning hm =>
      have := hrank y
      refine hmessage hnetwork hrunning (by omega) fun m' hm' => ?_
      exact .adopt hnone hy hne (htold.update (.inl rfl)) rfl
        (by simp [RingSystem.handle, RingSystem.handleElectedRing,
          RingSystem.later, RingSystem.setNode, hrunning]) (by omega)
  | @adopt x hnone hx hne htold hnetwork hrunning hm =>
      have := hrank x
      refine htask hnetwork hrunning (by omega) fun m' hm' => ?_
      rw [CrashRing.execute, if_pos hne.symm]
      refine .passElected hnone hx hne (fun n hn hlt => ?_) hnetwork rfl
        (by omega)
      simp only [RingSystem.later, RingSystem.setNode, Function.update_apply]
      split
      · rfl
      · next hnx =>
        have hrankne : c.rank n ≠ c.rank x := fun heq =>
          hnx (c.eq_of_rank_eq hn hx heq)
        exact htold n hn (by omega)
  | @passElected x hnone hx hne htold hnetwork hrunning hm =>
      have := hrank x
      refine htask hnetwork hrunning (by omega) fun m' hm' => ?_
      refine Told.pass (r := { t.ring with running := [] }) hnone hx
        (fun n hn hlt => ?_) hnetwork rfl ?_ (by omega)
      · rw [CrashRing.execute, CrashRing.node_sendToSuccessor]
        exact htold n hn hlt
      · exact CrashRing.running_sendToSuccessor _ _ _ _ _ _
  | hearBack hnone htold hnetwork hrunning hm =>
      refine hmessage hnetwork hrunning (by omega) fun m' hm' => ?_
      exact .finish hnone (htold.update (.inl rfl)) rfl
        (by simp [RingSystem.handle, RingSystem.handleElectedRing,
          RingSystem.later, RingSystem.setNode, hrunning]) (by omega)
  | finish hnone htold hnetwork hrunning hm =>
      refine htask hnetwork hrunning (by omega) fun m' hm' => ?_
      rw [CrashRing.execute, if_neg (not_not.mpr rfl)]
      exact .elected hnone (htold.update (.inr rfl)) ⟨hnetwork, rfl⟩
  | elected hnone htold hq => exact absurd hq hquiet

/-! ## The whole election -/

private theorem stage_start (hk : k ∈ c.live) (hquiet : s.Quiet) :
    Stage c k s (8 * c.order.length) (s.startElection k) := by
  have hzero := Cycle.position_start c.nodup (c.onRing k hk)
  have honly : ∀ x ∈ c.live, Cycle.position c.order k x <
      Cycle.position c.order k k + 1 → x = k := by
    intro x hx hlt
    apply Cycle.eq_of_position_eq (c.onRing k hk) (c.onRing x hx) (c.onRing k hk)
    omega
  refine .pass hk ⟨⟨hk, Nat.lt_succ_self _⟩, fun x hx hlt => ?_,
    fun n hn hnk hlt => absurd (honly n hn hlt) hnk, fun n hn hle => ?_,
    fun n hn => ?_⟩ hquiet.1 ?_ (by omega)
  · exact Nat.le_of_eq (honly x hx hlt)
  · have hne : n ≠ k := by
      rintro rfl
      omega
    simp [RingSystem.startElection, RingSystem.later, RingSystem.setNode, hne]
  · simp only [RingSystem.startElection, RingSystem.later, RingSystem.setNode,
      Function.update_apply]
    split
    · next heq => rw [heq]
    · rfl
  · simp [RingSystem.startElection, RingSystem.later, RingSystem.setNode,
      hquiet.2]

theorem exists_step (order : List NodeId) {t : CrashRing}
    (h : ¬ t.ring.Quiet) :
    ∃ a t', a.handles = true ∧ t.step order a = some t' := by
  by_cases hnetwork : t.ring.network = []
  · have hrunning : t.ring.running ≠ [] := fun hrunning =>
      h ⟨hnetwork, hrunning⟩
    obtain ⟨todo, rest, hrest⟩ := List.exists_cons_of_ne_nil hrunning
    refine ⟨.resume 0 [], ?_⟩
    simp only [CrashRing.step, hrest, pick]
    exact ⟨_, rfl, rfl⟩
  · obtain ⟨msg, rest, hrest⟩ := List.exists_cons_of_ne_nil hnetwork
    refine ⟨.deliver 0, ?_⟩
    simp only [CrashRing.step, hrest, pick]
    exact ⟨_, rfl, rfl⟩

private theorem Stage.exists_quiet {m : Nat} {t : CrashRing} (hk : k ∈ c.live)
    (h : Stage c k s m t.ring) (hlive : t.live = c.live) :
    ∃ actions t', run (CrashRing.step c.order) t actions = some t' ∧
      (∀ a ∈ actions, a.handles = true) ∧ t'.ring.Quiet := by
  induction m generalizing t with
  | zero =>
      refine ⟨[], t, rfl, by simp, ?_⟩
      by_contra hquiet
      obtain ⟨a, t', ha, hstep⟩ := exists_step c.order hquiet
      obtain ⟨m', hm, -⟩ := h.step hk hlive ha hstep
      cases hm
  | succ m ih =>
      by_cases hquiet : t.ring.Quiet
      · exact ⟨[], t, rfl, by simp, hquiet⟩
      · obtain ⟨a, t', ha, hstep⟩ := exists_step c.order hquiet
        obtain ⟨m', hm, hnext, hlive'⟩ := h.step hk hlive ha hstep
        cases hm
        obtain ⟨actions, t'', hrun, hhandles, hend⟩ := ih hnext hlive'
        refine ⟨a :: actions, t'', run_cons.mpr ⟨t', hstep, hrun⟩, ?_, hend⟩
        rintro b hb
        rcases List.mem_cons.mp hb with rfl | hb
        · exact ha
        · exact hhandles b hb

theorem Stage.run {m : Nat} {t t' : CrashRing}
    {actions : List CrashRingAction} (hk : k ∈ c.live)
    (h : Stage c k s m t.ring) (hlive : t.live = c.live)
    (hhandles : ∀ a ∈ actions, a.handles = true)
    (hrun : run (CrashRing.step c.order) t actions = some t') :
    t'.live = c.live ∧ ∃ m', Stage c k s m' t'.ring := by
  induction actions generalizing m t with
  | nil =>
      cases hrun
      exact ⟨hlive, m, h⟩
  | cons a rest ih =>
      obtain ⟨t₁, hstep, hrest⟩ := run_cons.mp hrun
      obtain ⟨m', -, hnext, hlive'⟩ :=
        h.step hk hlive (hhandles a (by simp)) hstep
      exact ih hnext hlive' (fun b hb => hhandles b (List.mem_cons_of_mem a hb))
        hrest

theorem Stage.result {m : Nat} {r : RingSystem} (h : Stage c k s m r)
    (hquiet : r.Quiet) :
    (NoneObstructs c k s ∧
      ∀ n ∈ c.live, (r.node n).leaderId = some c.highest) ∨
    (¬ NoneObstructs c k s ∧
      ∀ n ∈ c.live, (r.node n).leaderId = (s.node n).leaderId) := by
  obtain ⟨hnetwork, hrunning⟩ := hquiet
  cases h with
  | swallowed hobstructs hleaders _ => exact .inr ⟨hobstructs, hleaders⟩
  | elected hnone htold _ =>
      exact .inl ⟨hnone, fun n hn => htold n hn (c.rank_lt n)⟩
  | search _ _ h _ _ => simp [hnetwork] at h
  | pass _ _ _ h _ => simp [hrunning] at h
  | comeBack _ _ _ h _ _ => simp [hnetwork] at h
  | passBack _ _ _ _ h _ => simp [hrunning] at h
  | announce _ _ _ h _ => simp [hrunning] at h
  | inform _ _ _ _ h _ _ => simp [hnetwork] at h
  | adopt _ _ _ _ _ h _ => simp [hrunning] at h
  | passElected _ _ _ _ _ h _ => simp [hrunning] at h
  | hearBack _ _ h _ _ => simp [hnetwork] at h
  | finish _ _ _ h _ => simp [hrunning] at h

end Walk

namespace CrashRing

/--
An election that is started while nothing is under way comes to an end.  It leaves
every live node with the highest live node as leader if and only if no node that
it has to convince holds itself for a participant, or they all followed that
leader before.
-/
theorem run_reelects_iff (c : RingConfig) (s : CrashRing)
    (hlive : s.live = c.live) (hquiet : s.ring.Quiet) (k : NodeId)
    (hk : k ∈ s.live) :
    (∃ actions t, Completes c.order s k actions t) ∧
    ∀ actions t, Completes c.order s k actions t →
      ((∀ n ∈ t.live, (t.ring.node n).leaderId = some c.highest) ↔
        Unobstructed c.order s k ∨
          ∀ n ∈ s.live, (s.ring.node n).leaderId = some c.highest) := by
  have hkc : k ∈ c.live := hlive ▸ hk
  obtain ⟨s₁, hstart, hlive₁, hring₁⟩ : ∃ s₁,
      s.step c.order (.startElection k) = some s₁ ∧ s₁.live = c.live ∧
        s₁.ring = s.ring.startElection k := by
    rw [step, if_pos hk]
    exact ⟨_, rfl, hlive, rfl⟩
  have hstage : Stage c k s.ring (8 * c.order.length) s₁.ring :=
    hring₁ ▸ stage_start hkc hquiet
  have hnone : NoneObstructs c k s.ring ↔ Unobstructed c.order s k := by
    rw [NoneObstructs, Unobstructed, hlive]
  constructor
  · obtain ⟨actions, t, hrun, hhandles, hend⟩ :=
      hstage.exists_quiet hkc hlive₁
    exact ⟨actions, t, run_cons.mpr ⟨s₁, hstart, hrun⟩, hhandles, hend⟩
  · rintro actions t ⟨hreaches, hhandles, hend⟩
    rw [run_cons_of_step hstart] at hreaches
    obtain ⟨htlive, m, ht⟩ := hstage.run hkc hlive₁ hhandles hreaches
    rw [htlive, ← hnone, hlive]
    rcases ht.result hend with ⟨hall, hleaders⟩ | ⟨hobstructs, hleaders⟩
    · exact iff_of_true hleaders (.inl hall)
    · constructor
      · exact fun hled => .inr fun n hn => (hleaders n hn).symm.trans (hled n hn)
      · rintro (hall | hled)
        · exact absurd hall hobstructs
        · exact fun n hn => (hleaders n hn).trans (hled n hn)

/-- The token of node 2 is lost with node 0, and 2 goes on holding itself for a
participant. -/
def interruptedElection : List CrashRingAction :=
  [.startElection 2, .resume 0 [], .crash 0]

theorem interruptedElection_obstructs :
    ∃ s t, run (step [0, 1, 2]) (new {0, 1, 2}) interruptedElection = some s ∧
      s.ring.Quiet ∧ s.live = {1, 2} ∧
      Completes [0, 1, 2] s 1 [.resume 0 [], .deliver 0] t ∧
      t.live = {1, 2} ∧ (t.ring.node 1).leaderId = none := by
  have hend : (run (step [0, 1, 2]) (new {0, 1, 2}) interruptedElection).bind
      (fun s => (run (step [0, 1, 2]) s [.startElection 1, .resume 0 [],
        .deliver 0]).map fun t => decide ((s.ring.network = [] ∧
          s.ring.running = []) ∧ s.live = {1, 2} ∧ (t.ring.network = [] ∧
            t.ring.running = []) ∧ t.live = {1, 2} ∧
          (t.ring.node 1).leaderId = none)) = some true := by
    decide +kernel
  obtain ⟨s, hs, hmap⟩ := Option.bind_eq_some_iff.mp hend
  obtain ⟨t, ht, hdec⟩ := Option.map_eq_some_iff.mp hmap
  obtain ⟨hquiet, hlive, hdone, htlive, hleader⟩ := of_decide_eq_true hdec
  exact ⟨s, t, hs, hquiet, hlive, ⟨ht, by decide, hdone⟩, htlive, hleader⟩

/-- Nodes 1 and 2 of three. -/
def lastTwo : RingConfig :=
  ⟨[0, 1, 2], by decide, {1, 2}, by decide, by decide⟩

theorem crash_reelects :
    ∃ s, run (step lastTwo.order) (new {0, 1, 2}) [.crash 0] = some s ∧
      (∃ actions t, Completes lastTwo.order s 1 actions t) ∧
      ∀ actions t, Completes lastTwo.order s 1 actions t →
        ∀ n ∈ t.live, (t.ring.node n).leaderId = some lastTwo.highest := by
  have hend : (run (step lastTwo.order) (new {0, 1, 2}) [.crash 0]).map (fun s =>
      decide (s.live = lastTwo.live ∧ (s.ring.network = [] ∧
        s.ring.running = []) ∧ (s.ring.node 1).participant = false ∧
        (s.ring.node 2).participant = false)) = some true := by
    decide +kernel
  obtain ⟨s, hs, hdec⟩ := Option.map_eq_some_iff.mp hend
  obtain ⟨hlive, hquiet, h₁, h₂⟩ := of_decide_eq_true hdec
  have hk : 1 ∈ s.live := by
    rw [hlive]
    decide
  obtain ⟨hends, hall⟩ := run_reelects_iff lastTwo s hlive hquiet 1 hk
  refine ⟨s, hs, hends, fun actions t ht => (hall actions t ht).mpr (.inl ?_)⟩
  intro n hn _ _
  rw [hlive] at hn
  have hn' : n = 1 ∨ n = 2 := by simpa [lastTwo] using hn
  rcases hn' with rfl | rfl
  · exact h₁
  · exact h₂

end CrashRing

end DistributedMemory.Election
