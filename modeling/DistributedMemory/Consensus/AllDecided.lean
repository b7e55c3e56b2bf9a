import DistributedMemory.Consensus.Validity
import Mathlib.Data.List.Perm.Subperm

/-!
# One leader gets every proposal decided

As long as one node alone proposes and every alive set read holds the same nodes,
every proposal is decided at all of them once everything sent has arrived, also
one whose call of `propose` had returned `None` before.  A round without a
majority misses the vote of some node of the group, and that vote comes: the
PROPOSE message was sent, its handler always accepts, and no vote is taken back.
-/

namespace DistributedMemory.Consensus

open DistributedMemory.Library
open DistributedMemory.Network (NodeId)

universe u

variable {α : Type u}

/-- Only the leader proposes, and an alive set holds the group, in any order. -/
def ConsensusAction.Steady (leader : NodeId) (group : List NodeId) :
    ConsensusAction α → Prop
  | .propose n _ => n = leader
  | .readAlive _ _ alive => alive.Perm group
  | .deliver _ alive => alive.Perm group
  | _ => True

/-- The value that the node proposes in this step. -/
def ConsensusAction.proposedBy (n : NodeId) : ConsensusAction α → Option α
  | .propose m value => if m = n then some value else none
  | _ => none

/-- The packet that is handed over in this step. -/
def ConsensusAction.delivered : ConsensusAction α → Option Nat
  | .deliver packet _ => some packet
  | _ => none

namespace ProposePhase

/-- The nodes of the group that the PROPOSE message has not been sent to. -/
def unsent (group : List NodeId) : ProposePhase α → List NodeId
  | .opened => group
  | .sending _ unsent => unsent
  | .done _ => []

def returned : ProposePhase α → Bool
  | .done _ => true
  | _ => false

end ProposePhase

theorem majority_congr (votes : Dict NodeId Bool) {alive group : List NodeId}
    (h : alive.Perm group) : majority votes alive = majority votes group := by
  simp only [majority, h.length_eq]

private theorem majority_of_all {votes : Dict NodeId Bool} {group : List NodeId}
    (hnodup : group.Nodup) (h : ∀ m ∈ group, votes.get? m = some true) :
    majority votes group = true := by
  have hsub : group ⊆ (votes.items.filter Prod.snd).map Prod.fst := by
    intro m hm
    have hitem : (m, true) ∈ votes.items := Dict.mem_items_iff.mpr (h m hm)
    exact List.mem_map.mpr ⟨_, List.mem_filter.mpr ⟨hitem, rfl⟩, rfl⟩
  have hlength := (List.subperm_of_subset hnodup hsub).length_le
  rw [List.length_map] at hlength
  simp only [majority, decide_eq_true_eq]
  omega

/-! ## The rounds of the leader -/

namespace ConsensusProtocol

/-- The round `r` becomes `rnd`, and no other round changes. -/
structure Turns (p p' : ConsensusProtocol α) (r : Nat) (rnd : ConsensusRound α) :
    Prop where
  counter : p'.roundCounter = p.roundCounter
  rounds : ∀ r', p'.rounds.get? r' =
    if r' = r then some rnd else p.rounds.get? r'
  values : ∀ r', r' ≠ r → p'.decidedValues.get? r' = p.decidedValues.get? r'

structure Advances (p p' : ConsensusProtocol α) : Prop where
  rounds : ∀ r rnd, p.rounds.get? r = some rnd →
    ∃ rnd', p'.rounds.get? r = some rnd' ∧ (rnd'.decided = true ∨
      rnd.decided = false ∧
        ∀ m, rnd.votes.get? m = some true → rnd'.votes.get? m = some true)
  values : ∀ r, (p.decidedValues.get? r).isSome →
    (p'.decidedValues.get? r).isSome

section Node

variable {p p' : ConsensusProtocol α} {r : Nat} {rnd rnd' : ConsensusRound α}

theorem turns_refl (hget : p.rounds.get? r = some rnd) : p.Turns p r rnd := by
  refine ⟨rfl, fun r' => ?_, fun _ _ => rfl⟩
  split
  · next heq => rw [heq, hget]
  · rfl

private theorem turns_setRound (p : ConsensusProtocol α) (r : Nat)
    (rnd : ConsensusRound α) :
    p.Turns { p with rounds := p.rounds.set r rnd } r rnd :=
  ⟨rfl, fun _ => Dict.get?_set _ _ _ _, fun _ _ => rfl⟩

theorem turns_conclude (p : ConsensusProtocol α) (r : Nat)
    (rnd : ConsensusRound α) (value : α) :
    p.Turns (p.conclude r rnd value) r
      { rnd with decided := true, decision := some value } :=
  ⟨rfl, fun _ => Dict.get?_set _ _ _ _,
    fun _ hr' => Dict.get?_set_ne _ _ hr'⟩

theorem stored_conclude (p : ConsensusProtocol α) (r : Nat)
    (rnd : ConsensusRound α) (value : α) :
    (p.conclude r rnd value).decidedValues.get? r = some value :=
  Dict.get?_set_self _ _ _

theorem advances_refl (p : ConsensusProtocol α) : p.Advances p := by
  refine ⟨fun r rnd hget => ⟨rnd, hget, ?_⟩, fun _ => id⟩
  cases rnd.decided with
  | true => exact .inl rfl
  | false => exact .inr ⟨rfl, fun _ => id⟩

theorem Turns.advances (h : p.Turns p' r rnd')
    (hget : p.rounds.get? r = some rnd)
    (hrnd : rnd'.decided = true ∨ rnd.decided = false ∧
      ∀ m, rnd.votes.get? m = some true → rnd'.votes.get? m = some true)
    (hvalue : (p.decidedValues.get? r).isSome →
      (p'.decidedValues.get? r).isSome) : p.Advances p' := by
  constructor
  · intro r' rnd'' hget'
    by_cases hr : r' = r
    · subst hr
      obtain rfl := Option.some.inj (hget.symm.trans hget')
      exact ⟨rnd', by rw [h.rounds, if_pos rfl], hrnd⟩
    · obtain ⟨x, hx, hadvances⟩ := (advances_refl p).rounds r' rnd'' hget'
      exact ⟨x, by rw [h.rounds, if_neg hr, hx], hadvances⟩
  · intro r' hsome
    by_cases hr : r' = r
    · exact hr ▸ hvalue (hr ▸ hsome)
    · rw [h.values r' hr]
      exact hsome

theorem Turns.isSome (h : p.Turns p' r rnd') {r' : Nat}
    (hsome : (p.rounds.get? r').isSome) : (p'.rounds.get? r').isSome := by
  rw [h.rounds]
  split
  · rfl
  · exact hsome

private theorem Bounded.advances_openRound (h : p.Bounded) (value : α) :
    p.Advances (p.openRound value) := by
  refine ⟨fun r rnd hget => ?_, fun _ => id⟩
  have hle := h r rnd hget
  obtain ⟨x, hx, hadvances⟩ := (advances_refl p).rounds r rnd hget
  refine ⟨x, ?_, hadvances⟩
  rw [ConsensusProtocol.openRound, Dict.get?_set, if_neg (by omega), hx]

private theorem advances_handleDecide (p : ConsensusProtocol α) (r : Nat) (value : α) :
    p.Advances (p.handleDecide r value) := by
  unfold handleDecide
  split
  · refine ⟨(advances_refl p).rounds, fun r' hsome => ?_⟩
    rw [Dict.get?_set]
    split
    · rfl
    · exact hsome
  · next rnd hget =>
    refine (turns_conclude p r rnd value).advances hget (.inl rfl) fun _ => ?_
    rw [stored_conclude]
    rfl

end Node

end ConsensusProtocol

section Leader

variable {leader : NodeId} {group : List NodeId}
  {network network' : List (ConsensusPacket α)}

/-- The round of a call fits what the call has done and what was sent. -/
structure Fits (leader : NodeId) (group : List NodeId)
    (network : List (ConsensusPacket α)) (stored : Option α)
    (c : ProposeCall α) (rnd : ConsensusRound α) : Prop where
  decided : rnd.decided = true → ∃ v, stored = some v ∧
    ∀ m ∈ group, ⟨leader, m, .decide c.roundId v⟩ ∈ network
  undecided : rnd.decided = false → majority rnd.votes group = true →
    rnd.votes = .empty ∧ c.phase.returned = false
  alive : ∀ alive unsent, c.phase = .sending alive unsent → alive.Perm group
  sent : ∀ m ∈ group, m ∈ c.phase.unsent group ∨
    ⟨leader, m, .propose c.roundId c.value⟩ ∈ network

theorem Fits.mono {stored : Option α} {c : ProposeCall α}
    {rnd : ConsensusRound α} (h : Fits leader group network stored c rnd)
    (hsub : network ⊆ network') : Fits leader group network' stored c rnd where
  decided hdecided := by
    obtain ⟨v, hv, hall⟩ := h.decided hdecided
    exact ⟨v, hv, fun m hm => hsub (hall m hm)⟩
  undecided := h.undecided
  alive := h.alive
  sent m hm := (h.sent m hm).imp_right fun hmem => hsub hmem

/-- The calls of the leader are its rounds, in the order of their numbers. -/
structure Leads (leader : NodeId) (group : List NodeId)
    (p : ConsensusProtocol α) (calls : List (ProposeCall α))
    (network : List (ConsensusPacket α)) : Prop where
  counter : p.roundCounter = calls.length
  called : ∀ (i : Nat) (c : ProposeCall α), calls[i]? = some c →
    c.roundId = i + 1
  opened : ∀ r, (p.rounds.get? r).isSome → ∃ i, i < calls.length ∧ r = i + 1
  fits : ∀ c ∈ calls, ∃ rnd, p.rounds.get? c.roundId = some rnd ∧
    Fits leader group network (p.decidedValues.get? c.roundId) c rnd

variable {p p' : ConsensusProtocol α} {calls : List (ProposeCall α)}

theorem Leads.mono (h : Leads leader group p calls network)
    (hsub : network ⊆ network') : Leads leader group p calls network' where
  counter := h.counter
  called := h.called
  opened := h.opened
  fits c hc := by
    obtain ⟨rnd, hget, hfits⟩ := h.fits c hc
    exact ⟨rnd, hget, hfits.mono hsub⟩

theorem Leads.openRound (h : Leads leader group p calls network) (value : α) :
    Leads leader group (p.openRound value)
      (calls ++ [⟨p.roundCounter + 1, value, .opened⟩]) network where
  counter := by
    simp [ConsensusProtocol.openRound, h.counter]
  called i c hc := by
    rw [List.getElem?_append] at hc
    split at hc
    · exact h.called i c hc
    · next hi =>
      rw [List.getElem?_singleton] at hc
      split at hc
      · cases hc
        change p.roundCounter + 1 = i + 1
        rw [h.counter]
        omega
      · cases hc
  opened r hsome := by
    rw [ConsensusProtocol.openRound, Dict.get?_set] at hsome
    rw [List.length_append, List.length_singleton]
    split at hsome
    · next heq => exact ⟨calls.length, by omega, by rw [heq, h.counter]⟩
    · obtain ⟨i, hi, hr⟩ := h.opened r hsome
      exact ⟨i, by omega, hr⟩
  fits c hc := by
    rcases List.mem_append.mp hc with hc | hc
    · obtain ⟨rnd, hget, hfits⟩ := h.fits c hc
      have hne : c.roundId ≠ p.roundCounter + 1 := by
        obtain ⟨i, hi, hr⟩ := h.opened c.roundId (by rw [hget]; rfl)
        rw [hr, h.counter]
        omega
      refine ⟨rnd, ?_, hfits⟩
      rw [ConsensusProtocol.openRound, Dict.get?_set, if_neg hne]
      exact hget
    · obtain rfl := List.mem_singleton.mp hc
      refine ⟨_, Dict.get?_set_self _ _ _, by simp, fun _ _ => ⟨rfl, rfl⟩,
        by simp, fun m hm => .inl hm⟩

theorem Leads.turn (h : Leads leader group p calls network) {k : Nat}
    {c c' : ProposeCall α} {rnd' : ConsensusRound α} (hc : calls[k]? = some c)
    (hround : c'.roundId = c.roundId) (hturns : p.Turns p' c.roundId rnd')
    (hsub : network ⊆ network')
    (hfits : Fits leader group network' (p'.decidedValues.get? c.roundId) c'
      rnd') :
    Leads leader group p' (calls.set k c') network' := by
  have hk := (List.getElem?_eq_some_iff.mp hc).1
  have hnumber := h.called k c hc
  refine ⟨?_, fun i d hd => ?_, fun r hsome => ?_, fun d hd => ?_⟩
  · rw [hturns.counter, h.counter, List.length_set]
  · rw [List.getElem?_set] at hd
    split at hd
    · next heq =>
      cases hd
      rw [hround, hnumber, heq]
    · exact h.called i d hd
  · rw [List.length_set]
    by_cases hr : r = c.roundId
    · exact ⟨k, hk, hr.trans hnumber⟩
    · rw [hturns.rounds, if_neg hr] at hsome
      exact h.opened r hsome
  · obtain ⟨i, hi⟩ := List.mem_iff_getElem?.mp hd
    rw [List.getElem?_set] at hi
    split at hi
    · cases hi
      refine ⟨rnd', ?_, hround ▸ hfits⟩
      rw [hround, hturns.rounds, if_pos rfl]
    · next hne =>
      have hother : d.roundId ≠ c.roundId := by
        rw [h.called i d hi, hnumber]
        omega
      obtain ⟨rnd, hget, hold⟩ := h.fits d (List.mem_of_getElem? hi)
      refine ⟨rnd, ?_, ?_⟩
      · rw [hturns.rounds, if_neg hother, hget]
      · rw [hturns.values _ hother]
        exact hold.mono hsub

theorem Leads.call (h : Leads leader group p calls network) {r : Nat}
    {rnd : ConsensusRound α} (hget : p.rounds.get? r = some rnd) :
    ∃ (k : Nat) (c : ProposeCall α), calls[k]? = some c ∧ c.roundId = r ∧
      Fits leader group network (p.decidedValues.get? r) c rnd := by
  obtain ⟨k, hk, rfl⟩ := h.opened r (by rw [hget]; rfl)
  have hc := List.getElem?_eq_getElem hk
  obtain ⟨rnd', hget', hfits⟩ := h.fits _ (List.getElem_mem hk)
  rw [h.called k _ hc] at hget' hfits
  obtain rfl := Option.some.inj (hget.symm.trans hget')
  exact ⟨k, _, hc, h.called k _ hc, hfits⟩

end Leader

/-! ## Counting the votes of a round -/

/-- What a section that counts the votes of the round `rnd` can do to it. -/
inductive Counted (group : List NodeId) (p : ConsensusProtocol α) (r : Nat)
    (rnd : ConsensusRound α) : ConsensusProtocol α → Option α → Prop where
  | already (decided : rnd.decided = true) : Counted group p r rnd p none
  | carried (rnd' : ConsensusRound α) (value : α) :
      Counted group p r rnd (p.conclude r rnd' value) (some value)
  | short {p' : ConsensusProtocol α} {rnd' : ConsensusRound α}
      (before : rnd.decided = false) (turns : p.Turns p' r rnd')
      (values : p'.decidedValues = p.decidedValues)
      (undecided : rnd'.decided = false)
      (votes : ∀ m, rnd.votes.get? m = some true →
        rnd'.votes.get? m = some true)
      (missing : majority rnd'.votes group = false) :
      Counted group p r rnd p' none

section Counted

variable {group alive : List NodeId} {p p' : ConsensusProtocol α} {r : Nat}
  {rnd : ConsensusRound α}

private theorem counted_closeRound {value : α} {own result : Option α}
    (halive : alive.Perm group) (hget : p.rounds.get? r = some rnd)
    (hclose : p.closeRound r value alive = some (p', own, result)) :
    Counted group p r rnd p' own := by
  unfold ConsensusProtocol.closeRound at hclose
  rw [hget] at hclose
  cases hdecided : rnd.decided with
  | true =>
      simp only [hdecided, if_true] at hclose
      cases hclose
      exact .already hdecided
  | false =>
      by_cases hmajority : majority rnd.votes alive = true
      · simp only [hdecided, hmajority, if_true, Bool.false_eq_true, if_false]
          at hclose
        cases hclose
        exact .carried rnd value
      · simp only [hdecided, hmajority, Bool.false_eq_true, if_false] at hclose
        cases hclose
        refine .short hdecided (ConsensusProtocol.turns_refl hget) rfl hdecided
          (fun _ => id) ?_
        rw [← majority_congr rnd.votes halive]
        exact Bool.not_eq_true _ ▸ hmajority

private theorem counted_handleVote (sender : NodeId) (halive : alive.Perm group)
    (hget : p.rounds.get? r = some rnd) :
    Counted group p r rnd (p.handleVote sender r true alive).1
        (p.handleVote sender r true alive).2 ∧
      ∃ rnd', (p.handleVote sender r true alive).1.rounds.get? r = some rnd' ∧
        (rnd'.decided = true ∨ rnd'.votes.get? sender = some true) := by
  unfold ConsensusProtocol.handleVote
  rw [hget]
  cases hdecided : rnd.decided with
  | true =>
      simp only [hdecided, if_true]
      exact ⟨.already hdecided, rnd, hget, .inl hdecided⟩
  | false =>
      by_cases hmajority : majority (rnd.votes.set sender true) alive = true
      · simp only [hdecided, hmajority, if_true, Bool.false_eq_true, if_false]
        exact ⟨.carried _ _, _, Dict.get?_set_self _ _ _, .inl rfl⟩
      · simp only [hdecided, hmajority, Bool.false_eq_true, if_false]
        refine ⟨.short hdecided (ConsensusProtocol.turns_setRound _ _ _) rfl rfl
          (fun m hm => ?_) ?_, _, Dict.get?_set_self _ _ _,
          .inr (Dict.get?_set_self _ _ _)⟩
        · change (rnd.votes.set sender true).get? m = some true
          rw [Dict.get?_set]
          split
          · rfl
          · exact hm
        · rw [← majority_congr _ halive]
          exact Bool.not_eq_true _ ▸ hmajority

end Counted

/-! ## The whole system -/

/-- A message about a round of the leader, from it or in answer to it; a DECIDE
message was sent to the whole group. -/
def Sound (leader : NodeId) (group : List NodeId) (p : ConsensusProtocol α)
    (network : List (ConsensusPacket α)) : ConsensusPacket α → Prop
  | ⟨sender, _, .propose r _⟩ => sender = leader ∧ (p.rounds.get? r).isSome
  | ⟨_, n, .voteAccept r⟩ => n = leader ∧ (p.rounds.get? r).isSome
  | ⟨_, _, .voteReject _⟩ => False
  | ⟨_, _, .decide r value⟩ => (p.rounds.get? r).isSome ∧
      ∀ m ∈ group, ⟨leader, m, .decide r value⟩ ∈ network

theorem Sound.mono {leader : NodeId} {group : List NodeId}
    {p p' : ConsensusProtocol α} {network network' : List (ConsensusPacket α)}
    {packet : ConsensusPacket α} (h : Sound leader group p network packet)
    (hrounds : ∀ r, (p.rounds.get? r).isSome → (p'.rounds.get? r).isSome)
    (hsub : network ⊆ network') : Sound leader group p' network' packet := by
  obtain ⟨sender, n, msg⟩ := packet
  cases msg with
  | propose r value => exact ⟨h.1, hrounds r h.2⟩
  | voteAccept r => exact ⟨h.1, hrounds r h.2⟩
  | voteReject r => exact h
  | decide r value => exact ⟨hrounds r h.1, fun m hm => hsub (h.2 m hm)⟩

namespace ConsensusSystem

def Handled (s : ConsensusSystem α) : ConsensusPacket α → Prop
  | ⟨sender, n, .propose r _⟩ => ⟨n, sender, .voteAccept r⟩ ∈ s.network
  | ⟨sender, n, .voteAccept r⟩ => ∃ rnd, (s.node n).rounds.get? r = some rnd ∧
      (rnd.decided = true ∨ rnd.votes.get? sender = some true)
  | ⟨_, _, .voteReject _⟩ => True
  | ⟨_, n, .decide r _⟩ => ((s.node n).decidedValues.get? r).isSome

structure Led (leader : NodeId) (group : List NodeId) (s : ConsensusSystem α) :
    Prop where
  others : ∀ q, q ≠ leader →
    s.calls q = [] ∧ ∀ r, (s.node q).rounds.get? r = none
  leads : Leads leader group (s.node leader) (s.calls leader) s.network
  packets : ∀ packet ∈ s.network,
    Sound leader group (s.node leader) s.network packet

theorem led_new (leader : NodeId) (group : List NodeId) :
    (new : ConsensusSystem α).Led leader group where
  others q _ := ⟨rfl, fun _ => rfl⟩
  leads := ⟨rfl, by simp [new], by simp [new, ConsensusProtocol.new],
    by simp [new]⟩
  packets := by simp [new]

section Step

variable {leader : NodeId} {group : List NodeId} {s s' : ConsensusSystem α}

theorem Handled.mono {packet : ConsensusPacket α} (h : s.Handled packet)
    (hadvances : ∀ q, (s.node q).Advances (s'.node q))
    (hsub : s.network ⊆ s'.network) : s'.Handled packet := by
  obtain ⟨sender, n, msg⟩ := packet
  cases msg with
  | propose r value => exact hsub h
  | voteAccept r =>
      obtain ⟨rnd, hget, hvote⟩ := h
      obtain ⟨rnd', hget', hdecided | ⟨hopen, hvotes⟩⟩ :=
        (hadvances n).rounds r rnd hget
      · exact ⟨rnd', hget', .inl hdecided⟩
      · refine ⟨rnd', hget', .inr (hvotes sender (hvote.resolve_left ?_))⟩
        simp [hopen]
  | voteReject r => trivial
  | decide r value => exact (hadvances n).values r h

theorem advances_update {n : NodeId} {p : ConsensusProtocol α}
    (hnode : s'.node = Function.update s.node n p)
    (hp : (s.node n).Advances p) (q : NodeId) :
    (s.node q).Advances (s'.node q) := by
  rw [hnode, Function.update_apply]
  split
  · next heq => exact heq ▸ hp
  · exact ConsensusProtocol.advances_refl _

theorem Led.update (h : s.Led leader group) {p : ConsensusProtocol α}
    {calls : List (ProposeCall α)}
    (hnode : s'.node = Function.update s.node leader p)
    (hcalls : s'.calls = Function.update s.calls leader calls)
    (hleads : Leads leader group p calls s'.network)
    (hrounds : ∀ r, ((s.node leader).rounds.get? r).isSome →
      (p.rounds.get? r).isSome)
    (hsub : s.network ⊆ s'.network)
    (hnew : ∀ packet ∈ s'.network, packet ∈ s.network ∨
      Sound leader group p s'.network packet) : s'.Led leader group := by
  have hhere : s'.node leader = p := by
    rw [hnode, Function.update_self]
  refine ⟨fun q hq => ?_, ?_, fun packet hpacket => ?_⟩
  · rw [hnode, hcalls, Function.update_of_ne hq, Function.update_of_ne hq]
    exact h.others q hq
  · rwa [hhere, hcalls, Function.update_self]
  · rw [hhere]
    rcases hnew packet hpacket with hold | hsound
    · exact (h.packets packet hold).mono hrounds hsub
    · exact hsound

theorem Led.send (h : s.Led leader group) {packet : ConsensusPacket α}
    (hpacket : Sound leader group (s.node leader) s.network packet) :
    Led leader group { s with network := s.network ++ [packet] } := by
  have hsub : s.network ⊆ s.network ++ [packet] :=
    List.subset_append_left _ _
  refine ⟨h.others, h.leads.mono hsub, fun packet' hmem => ?_⟩
  rcases List.mem_append.mp hmem with hmem | hmem
  · exact (h.packets packet' hmem).mono (fun _ => id) hsub
  · obtain rfl := List.mem_singleton.mp hmem
    exact hpacket.mono (fun _ => id) hsub

theorem Led.count (h : s.Led leader group) {k : Nat} {c : ProposeCall α}
    (c' : ProposeCall α) {rnd : ConsensusRound α} {p : ConsensusProtocol α}
    {own : Option α} {alive : List NodeId}
    (hc : (s.calls leader)[k]? = some c)
    (hround : c'.roundId = c.roundId) (hvalue : c'.value = c.value)
    (hunsent : c'.phase.unsent group = c.phase.unsent group)
    (hphase : ∀ alive unsent, c'.phase = .sending alive unsent →
      alive.Perm group)
    (halive : alive.Perm group)
    (hget : (s.node leader).rounds.get? c.roundId = some rnd)
    (hcounted : Counted group (s.node leader) c.roundId rnd p own)
    (hnode : s'.node = Function.update s.node leader p)
    (hcalls : s'.calls =
      Function.update s.calls leader ((s.calls leader).set k c'))
    (hnetwork : s'.network = (s.announce leader c.roundId alive own).network) :
    s'.Led leader group ∧ ∀ q, (s.node q).Advances (s'.node q) := by
  obtain ⟨rnd₀, hget₀, hfits⟩ := h.leads.fits c (List.mem_of_getElem? hc)
  obtain rfl := Option.some.inj (hget.symm.trans hget₀)
  have hsub : s.network ⊆ s'.network := by
    rw [hnetwork]
    cases own with
    | none => exact fun _ => id
    | some value => exact List.subset_append_left _ _
  have hsent : ∀ m ∈ group, m ∈ c'.phase.unsent group ∨
      ⟨leader, m, .propose c'.roundId c'.value⟩ ∈ s'.network := by
    intro m hm
    rw [hunsent, hround, hvalue]
    exact (hfits.sent m hm).imp_right fun hmem => hsub hmem
  have hdone : ∀ rnd' : ConsensusRound α,
      (s.node leader).Turns p c.roundId rnd' →
      Fits leader group s'.network (p.decidedValues.get? c.roundId) c' rnd' →
      (s.node leader).Advances p →
      (∀ packet ∈ s'.network, packet ∈ s.network ∨
        Sound leader group p s'.network packet) →
      s'.Led leader group ∧ ∀ q, (s.node q).Advances (s'.node q) := by
    intro rnd' hturns hfits' hadvances hnew
    refine ⟨?_, advances_update hnode hadvances⟩
    exact h.update hnode hcalls (h.leads.turn hc hround hturns hsub hfits')
      (fun _ => hturns.isSome) hsub hnew
  cases hcounted with
  | already hdecided =>
      refine hdone rnd (ConsensusProtocol.turns_refl hget) ⟨fun _ => ?_, ?_,
        hphase, hsent⟩ (ConsensusProtocol.advances_refl _)
        (fun packet hpacket => .inl (hnetwork ▸ hpacket))
      · rw [hround]
        exact (hfits.mono hsub).decided hdecided
      · simp [hdecided]
  | carried rnd' value =>
      have hall : ∀ m ∈ group,
          ⟨leader, m, .decide c.roundId value⟩ ∈ s'.network := by
        intro m hm
        rw [hnetwork]
        exact List.mem_append_right _
          (List.mem_map.mpr ⟨m, halive.mem_iff.mpr hm, rfl⟩)
      have hturns := ConsensusProtocol.turns_conclude (s.node leader) c.roundId
        rnd' value
      have hstored := ConsensusProtocol.stored_conclude (s.node leader)
        c.roundId rnd' value
      refine hdone _ hturns ⟨fun _ => ⟨value, hstored, hround.symm ▸ hall⟩,
        by simp, hphase, hsent⟩ ?_ fun packet hpacket => ?_
      · exact hturns.advances hget (.inl rfl) fun _ => by rw [hstored]; rfl
      · rw [hnetwork] at hpacket
        refine (List.mem_append.mp hpacket).imp_right fun hmem => ?_
        obtain ⟨m, -, rfl⟩ := List.mem_map.mp hmem
        exact ⟨by rw [hturns.rounds, if_pos rfl]; rfl, hall⟩
  | @short _ rnd' hbefore hturns hvalues hundecided hvotes hmissing =>
      refine hdone rnd' hturns ⟨by simp [hundecided], by simp [hmissing],
        hphase, hsent⟩ ?_ fun packet hpacket => .inl (hnetwork ▸ hpacket)
      exact hturns.advances hget (.inr ⟨hbefore, hvotes⟩) fun hsome => by
        rwa [hvalues]

theorem Led.caller (h : s.Led leader group) {n : NodeId} {k : Nat}
    {c : ProposeCall α} (hc : (s.calls n)[k]? = some c) : n = leader := by
  by_contra hn
  rw [(h.others n hn).1] at hc
  cases hc

theorem Led.goOn (h : s.Led leader group) {k : Nat} {c : ProposeCall α}
    (c' : ProposeCall α) (hc : (s.calls leader)[k]? = some c)
    (hround : c'.roundId = c.roundId)
    (hreturned : c'.phase.returned = false)
    (hphase : ∀ alive unsent, c'.phase = .sending alive unsent →
      alive.Perm group)
    (hnode : s'.node = s.node)
    (hcalls : s'.calls =
      Function.update s.calls leader ((s.calls leader).set k c'))
    (hsub : s.network ⊆ s'.network)
    (hsent : ∀ m ∈ group, m ∈ c'.phase.unsent group ∨
      ⟨leader, m, .propose c'.roundId c'.value⟩ ∈ s'.network)
    (hnew : ∀ packet ∈ s'.network, packet ∈ s.network ∨
      Sound leader group (s.node leader) s'.network packet) :
    s'.Led leader group := by
  obtain ⟨rnd, hget, hfits⟩ := h.leads.fits c (List.mem_of_getElem? hc)
  have hfits' : Fits leader group s'.network
      ((s.node leader).decidedValues.get? c.roundId) c' rnd := by
    refine ⟨fun hdecided => ?_, fun hundecided hmajority => ?_, hphase, hsent⟩
    · rw [hround]
      exact (hfits.mono hsub).decided hdecided
    · exact ⟨(hfits.undecided hundecided hmajority).1, hreturned⟩
  have hleads := h.leads.turn hc hround (ConsensusProtocol.turns_refl hget) hsub
    hfits'
  exact h.update (by rw [hnode, Function.update_eq_self]) hcalls hleads
    (fun _ => id) hsub hnew

private theorem Led.decideHere (h : s.Led leader group) {sender : NodeId} {r : Nat}
    {value : α} (hmem : ⟨sender, leader, .decide r value⟩ ∈ s.network) :
    Led leader group
      (s.setNode leader ((s.node leader).handleDecide r value)) := by
  obtain ⟨hsome, hall⟩ := h.packets _ hmem
  obtain ⟨rnd, hget⟩ := Option.isSome_iff_exists.mp hsome
  obtain ⟨k, c, hc, rfl, hfits⟩ := h.leads.call hget
  have hconclude : (s.node leader).handleDecide c.roundId value =
      (s.node leader).conclude c.roundId rnd value := by
    rw [ConsensusProtocol.handleDecide, hget]
  have hturns := ConsensusProtocol.turns_conclude (s.node leader) c.roundId rnd
    value
  have hstored := ConsensusProtocol.stored_conclude (s.node leader) c.roundId
    rnd value
  have hleads := h.leads.turn hc rfl hturns (fun _ => id)
    ⟨fun _ => ⟨value, hstored, hall⟩, by simp, hfits.alive, hfits.sent⟩
  rw [hconclude]
  refine h.update rfl ?_ hleads (fun _ => hturns.isSome) (fun _ => id)
    fun packet hpacket => .inl hpacket
  obtain ⟨hk, rfl⟩ := List.getElem?_eq_some_iff.mp hc
  rw [List.set_getElem_self, Function.update_eq_self]
  rfl

theorem Led.handle (h : s.Led leader group) {alive : List NodeId}
    (halive : alive.Perm group) {packet : ConsensusPacket α}
    (hmem : packet ∈ s.network) :
    (s.handle alive packet).Led leader group ∧
      (∀ q, (s.node q).Advances ((s.handle alive packet).node q)) ∧
      (s.handle alive packet).Handled packet := by
  have hsound := h.packets packet hmem
  obtain ⟨sender, n, msg⟩ := packet
  cases msg with
  | propose r value =>
      refine ⟨h.send ⟨hsound.1, hsound.2⟩,
        fun q => ConsensusProtocol.advances_refl _, ?_⟩
      exact List.mem_append_right _ (by simp)
  | voteAccept r =>
      obtain ⟨rfl, hsome⟩ := hsound
      obtain ⟨rnd, hget⟩ := Option.isSome_iff_exists.mp hsome
      obtain ⟨k, c, hc, rfl, hfits⟩ := h.leads.call hget
      obtain ⟨hcounted, rnd', hget', hvote⟩ :=
        counted_handleVote sender halive hget
      have hset : s.calls = Function.update s.calls n ((s.calls n).set k c) := by
        obtain ⟨hk, rfl⟩ := List.getElem?_eq_some_iff.mp hc
        rw [List.set_getElem_self, Function.update_eq_self]
      have hhandled : (s.handle alive ⟨sender, n, .voteAccept c.roundId⟩) =
          (s.setNode n ((s.node n).handleVote sender c.roundId true
            alive).1).announce n c.roundId alive
            ((s.node n).handleVote sender c.roundId true alive).2 := rfl
      have hnode : (s.handle alive ⟨sender, n, .voteAccept c.roundId⟩).node =
          Function.update s.node n ((s.node n).handleVote sender c.roundId true
            alive).1 := by
        rw [hhandled]
        cases ((s.node n).handleVote sender c.roundId true alive).2 <;> rfl
      have hled : (s.handle alive ⟨sender, n, .voteAccept c.roundId⟩).Led n
            group ∧ ∀ q, (s.node q).Advances
              ((s.handle alive ⟨sender, n, .voteAccept c.roundId⟩).node q) :=
        h.count c hc rfl rfl rfl hfits.alive halive hget hcounted hnode
        (by
          rw [hhandled, ← hset]
          cases ((s.node n).handleVote sender c.roundId true alive).2 <;> rfl)
        (by
          rw [hhandled]
          cases ((s.node n).handleVote sender c.roundId true alive).2 <;> rfl)
      refine ⟨hled.1, hled.2, rnd', ?_, hvote⟩
      rw [hnode, Function.update_self]
      exact hget'
  | voteReject r => exact hsound.elim
  | decide r value =>
      have hstored : ((s.setNode n ((s.node n).handleDecide r value)).node
          n).decidedValues.get? r = some value := by
        rw [setNode_here]
        unfold ConsensusProtocol.handleDecide
        split
        · exact Dict.get?_set_self _ _ _
        · exact ConsensusProtocol.stored_conclude _ _ _ _
      refine ⟨?_, advances_update rfl
        (ConsensusProtocol.advances_handleDecide _ r value), ?_⟩
      · by_cases hn : n = leader
        · subst hn
          exact h.decideHere hmem
        · refine ⟨fun q hq => ⟨(h.others q hq).1, fun r' => ?_⟩, ?_, ?_⟩
          · simp only [ConsensusSystem.handle, setNode, Function.update_apply]
            split
            · rw [ConsensusProtocol.handleDecide, (h.others n hn).2 r]
              exact (h.others n hn).2 r'
            · exact (h.others q hq).2 r'
          · change Leads leader group ((s.setNode n _).node leader) _ _
            rw [setNode_elsewhere s (Ne.symm hn)]
            exact h.leads
          · change ∀ packet ∈ s.network,
              Sound leader group ((s.setNode n _).node leader) _ packet
            rw [setNode_elsewhere s (Ne.symm hn)]
            exact h.packets
      · change (((s.setNode n _).node n).decidedValues.get? r).isSome = true
        rw [hstored]
        rfl

theorem Led.step {a : ConsensusAction α} (hinv : s.Inv)
    (h : s.Led leader group) (ha : a.Steady leader group)
    (hstep : s.step a = some s') :
    s'.Led leader group ∧ ∀ q, (s.node q).Advances (s'.node q) := by
  have hsame : ∀ q, (s.node q).Advances (s.node q) :=
    fun q => ConsensusProtocol.advances_refl _
  cases step_cases hstep with
  | propose n value =>
      obtain rfl : n = leader := ha
      have hadvances := (hinv.bounded n).advances_openRound value
      have hrounds (r : Nat) (hsome : ((s.node n).rounds.get? r).isSome) :
          (((s.node n).openRound value).rounds.get? r).isSome := by
        obtain ⟨rnd, hget⟩ := Option.isSome_iff_exists.mp hsome
        obtain ⟨rnd', hget', -⟩ := hadvances.rounds r rnd hget
        rw [hget']
        rfl
      exact ⟨h.update rfl rfl (h.leads.openRound value) hrounds (fun _ => id)
        fun _ => .inl, advances_update rfl hadvances⟩
  | @readAlive n call roundId value alive hnodup hcall =>
      obtain rfl := h.caller hcall
      refine ⟨h.goOn ⟨roundId, value, .sending alive alive⟩ hcall rfl rfl ?_ rfl
        rfl (fun _ => id) (fun m hm => ?_) fun _ => .inl, hsame⟩
      · rintro alive' unsent hphase
        cases hphase
        exact ha
      · exact .inl (List.Perm.mem_iff ha |>.mpr hm)
  | @sendPropose n call roundId value target alive unsent hcall =>
      obtain rfl := h.caller hcall
      obtain ⟨rnd, hget, hfits⟩ := h.leads.fits _ (List.mem_of_getElem? hcall)
      refine ⟨h.goOn ⟨roundId, value, .sending alive unsent⟩ hcall rfl rfl ?_ rfl
        rfl (List.subset_append_left _ _) (fun m hm => ?_)
        fun packet hpacket => ?_, hsame⟩
      · rintro alive' unsent' hphase
        cases hphase
        exact hfits.alive alive _ rfl
      · rcases hfits.sent m hm with hmem | hmem
        · rcases List.mem_cons.mp hmem with rfl | hmem
          · exact .inr (List.mem_append_right _ (by simp))
          · exact .inl hmem
        · exact .inr (List.mem_append_left _ hmem)
      · refine (List.mem_append.mp hpacket).imp_right fun hmem => ?_
        obtain rfl := List.mem_singleton.mp hmem
        exact ⟨rfl, by rw [hget]; rfl⟩
  | @close n call roundId value alive p own result hcall hclose =>
      obtain rfl := h.caller hcall
      obtain ⟨rnd, hget, hfits⟩ := h.leads.fits _ (List.mem_of_getElem? hcall)
      have halive := hfits.alive alive [] rfl
      refine h.count ⟨roundId, value, .done result⟩ hcall rfl rfl rfl (by simp)
        halive hget (counted_closeRound halive hget hclose) ?_ ?_ ?_
      · cases own <;> rfl
      · cases own <;> rfl
      · cases own <;> rfl
  | deliver hnodup hpacket =>
      obtain ⟨hled, hadvances, -⟩ :=
        h.handle ha (List.mem_of_getElem? hpacket)
      exact ⟨hled, hadvances⟩
  | undecided => exact ⟨h, hsame⟩
  | answered => exact ⟨⟨h.others, h.leads, h.packets⟩, hsame⟩

theorem network_announce (s : ConsensusSystem α) (n : NodeId) (r : Nat)
    (alive : List NodeId) (own : Option α) :
    s.network <+: (s.announce n r alive own).network := by
  cases own with
  | none => exact List.prefix_refl _
  | some value => exact List.prefix_append _ _

theorem calls_announce (s : ConsensusSystem α) (n : NodeId) (r : Nat)
    (alive : List NodeId) (own : Option α) :
    (s.announce n r alive own).calls = s.calls := by
  cases own <;> rfl

theorem network_handle (s : ConsensusSystem α) (alive : List NodeId)
    (packet : ConsensusPacket α) :
    s.network <+: (s.handle alive packet).network := by
  obtain ⟨sender, n, msg⟩ := packet
  cases msg with
  | propose r value => exact List.prefix_append _ _
  | voteAccept r =>
      exact network_announce (s.setNode n _) n r alive
        ((s.node n).handleVote sender r true alive).2
  | voteReject r =>
      exact network_announce (s.setNode n _) n r alive
        ((s.node n).handleVote sender r false alive).2
  | decide r value => exact List.prefix_refl _

private theorem calls_handle (s : ConsensusSystem α) (alive : List NodeId)
    (packet : ConsensusPacket α) : (s.handle alive packet).calls = s.calls := by
  obtain ⟨sender, n, msg⟩ := packet
  cases msg with
  | propose r value => rfl
  | voteAccept r =>
      exact calls_announce (s.setNode n _) n r alive
        ((s.node n).handleVote sender r true alive).2
  | voteReject r =>
      exact calls_announce (s.setNode n _) n r alive
        ((s.node n).handleVote sender r false alive).2
  | decide r value => rfl

theorem network_step {a : ConsensusAction α} (hstep : s.step a = some s') :
    s.network <+: s'.network := by
  cases step_cases hstep with
  | propose => exact List.prefix_refl _
  | readAlive => exact List.prefix_refl _
  | sendPropose => exact List.prefix_append _ _
  | @close n call roundId value alive p own result =>
      exact network_announce ((s.setNode n p).setCall n call
        ⟨roundId, value, .done result⟩) n roundId alive own
  | deliver => exact network_handle s _ _
  | undecided => exact List.prefix_refl _
  | answered => exact List.prefix_refl _

theorem values_setCall {m : NodeId} {call : Nat} {c : ProposeCall α}
    (hc : (s.calls m)[call]? = some c) (phase : ProposePhase α) (n : NodeId) :
    ((s.setCall m call { c with phase := phase }).calls n).map
        ProposeCall.value = (s.calls n).map ProposeCall.value := by
  simp only [setCall, Function.update_apply]
  split
  · next heq =>
    subst heq
    obtain ⟨hlt, rfl⟩ := List.getElem?_eq_some_iff.mp hc
    have hlt' : call < ((s.calls n).map ProposeCall.value).length := by
      rwa [List.length_map]
    rw [List.map_set]
    change ((s.calls n).map ProposeCall.value).set call
      (s.calls n)[call].value = _
    rw [← List.getElem_map ProposeCall.value (h := hlt'),
      List.set_getElem_self]
  · rfl

private theorem values_step {a : ConsensusAction α} (hstep : s.step a = some s')
    (n : NodeId) : (s'.calls n).map ProposeCall.value =
      (s.calls n).map ProposeCall.value ++ (a.proposedBy n).toList := by
  cases step_cases hstep with
  | propose m value =>
      simp only [ConsensusAction.proposedBy, Function.update_apply]
      by_cases hm : m = n
      · subst hm
        simp
      · simp [hm, Ne.symm hm]
  | @readAlive m call roundId value alive hnodup hcall =>
      simpa [ConsensusAction.proposedBy] using
        values_setCall hcall (.sending alive alive) n
  | @sendPropose m call roundId value target alive unsent hcall =>
      simpa [ConsensusAction.proposedBy] using
        values_setCall hcall (.sending alive unsent) n
  | @close m call roundId value alive p own result hcall hclose =>
      rw [calls_announce]
      refine (values_setCall hcall (.done result) n).trans ?_
      simp [ConsensusAction.proposedBy]
  | deliver =>
      rw [calls_handle]
      simp [ConsensusAction.proposedBy]
  | undecided => simp [ConsensusAction.proposedBy]
  | answered => simp [ConsensusAction.proposedBy]

end Step

section Run

variable {leader : NodeId} {group : List NodeId} {s : ConsensusSystem α}
  {actions : List (ConsensusAction α)}

structure LedInv (leader : NodeId) (group : List NodeId)
    (s : ConsensusSystem α) : Prop where
  inv : s.Inv
  led : s.Led leader group

theorem run_ledInv {s t : ConsensusSystem α} (h : s.LedInv leader group)
    (hsteady : ∀ a ∈ actions, a.Steady leader group)
    (hrun : run step s actions = some t) : t.LedInv leader group :=
  run_invariant (fun _ _ _ h ha hstep =>
      ⟨h.inv.step hstep, (h.led.step h.inv ha hstep).1⟩)
    h (along_of_forall_mem hsteady s) hrun

/-- What was handled stays handled. -/
theorem run_handled {s t : ConsensusSystem α} (h : s.LedInv leader group)
    (hsteady : ∀ a ∈ actions, a.Steady leader group)
    (hrun : run step s actions = some t) {packet : ConsensusPacket α}
    (hhandled : s.Handled packet) : t.Handled packet := by
  have hboth : t.LedInv leader group ∧ t.Handled packet := by
    refine run_invariant (I := fun s : ConsensusSystem α =>
      s.LedInv leader group ∧ s.Handled packet) (fun s a s' h ha hstep => ?_)
      ⟨h, hhandled⟩ (along_of_forall_mem hsteady s) hrun
    obtain ⟨hled, hadvances⟩ := h.1.led.step h.1.inv ha hstep
    exact ⟨⟨h.1.inv.step hstep, hled⟩,
      h.2.mono hadvances (network_step hstep).subset⟩
  exact hboth.2

private theorem handled_of_deliver (hrun : run step new actions = some s)
    (hsteady : ∀ a ∈ actions, a.Steady leader group) {i : Nat}
    (hmem : i ∈ actions.filterMap ConsensusAction.delivered)
    {packet : ConsensusPacket α} (hpacket : s.network[i]? = some packet) :
    s.Handled packet := by
  obtain ⟨a, ha, hi⟩ := List.mem_filterMap.mp hmem
  obtain ⟨alive, rfl⟩ : ∃ alive, a = .deliver i alive := by
    cases a with
    | deliver packet alive =>
        cases hi
        exact ⟨alive, rfl⟩
    | _ => cases hi
  obtain ⟨before, after, rfl⟩ := List.append_of_mem ha
  obtain ⟨s₁, hbefore, hrest⟩ := run_append.mp hrun
  obtain ⟨s₂, hstep, hafter⟩ := run_cons.mp hrest
  have hfirst : s₁.LedInv leader group :=
    run_ledInv ⟨inv_new, led_new leader group⟩
      (fun a ha => hsteady a (by simp [ha])) hbefore
  have hlast := run_preserves (I := fun t : ConsensusSystem α =>
      s₁.network <+: t.network)
    (fun _ _ _ h hstep => h.trans (network_step hstep)) (List.prefix_refl _)
    hrest
  have halive : alive.Perm group :=
    hsteady (.deliver i alive) (by simp)
  cases step_cases hstep with
  | @deliver _ _ content hnodup hsent =>
      have hlt := (List.getElem?_eq_some_iff.mp hsent).1
      have hsame : s.network[i]? = some content := by
        obtain ⟨later, hlater⟩ := hlast
        rw [← hlater, List.getElem?_append_left hlt, hsent]
      obtain rfl := Option.some.inj (hpacket.symm.trans hsame)
      obtain ⟨hled, -, hhandled⟩ :=
        hfirst.led.handle halive (List.mem_of_getElem? hsent)
      exact run_handled ⟨hfirst.inv.step hstep, hled⟩
        (fun a ha => hsteady a (by simp [ha])) hafter hhandled

theorem LedInv.decided (h : s.LedInv leader group) (hgroup : group.Nodup)
    (hhandled : ∀ packet ∈ s.network, s.Handled packet)
    {c : ProposeCall α} (hc : c ∈ s.calls leader)
    (hreturned : c.phase.returned = true) :
    ∀ n ∈ leader :: group,
      ((s.node n).decidedValues.get? c.roundId).isSome := by
  obtain ⟨rnd, hget, hfits⟩ := h.led.leads.fits c hc
  have hunsent : c.phase.unsent group = [] := by
    cases hphase : c.phase with
    | opened => simp [hphase, ProposePhase.returned] at hreturned
    | sending => simp [hphase, ProposePhase.returned] at hreturned
    | done result => rfl
  have hvote : ∀ m ∈ group, rnd.decided = true ∨
      rnd.votes.get? m = some true := by
    intro m hm
    have hproposed := (hfits.sent m hm).resolve_left (by simp [hunsent])
    obtain ⟨rnd', hget', hvote⟩ := hhandled _ (hhandled _ hproposed)
    obtain rfl := Option.some.inj (hget.symm.trans hget')
    exact hvote
  have hdecided : rnd.decided = true := by
    cases hdecided : rnd.decided with
    | true => rfl
    | false =>
        -- Undecided, the round would have the votes of the whole group.
        have hmajority := majority_of_all hgroup fun m hm =>
          (hvote m hm).resolve_left (by simp [hdecided])
        have := (hfits.undecided hdecided hmajority).2
        simp [hreturned] at this
  obtain ⟨v, hv, hall⟩ := hfits.decided hdecided
  intro n hn
  rcases List.mem_cons.mp hn with rfl | hn
  · rw [hv]
    rfl
  · exact hhandled _ (hall n hn)

end Run

/--
Node `leader` alone proposes, every alive set read holds the nodes of `group`, all
its calls of `propose` have returned and every packet was handed over at least
once.  Then the decisions of the leader and of every node of the group are all the
values proposed, in the order of the calls.
-/
theorem run_allDecided (leader : NodeId) (group : List NodeId)
    (hgroup : group.Nodup) (actions : List (ConsensusAction α))
    (s : ConsensusSystem α) (hrun : run step new actions = some s)
    (hsteady : ∀ a ∈ actions, a.Steady leader group)
    (hreturned : ∀ c ∈ s.calls leader, c.phase.returned = true)
    (hdelivered : ∀ i, i < s.network.length →
      i ∈ actions.filterMap ConsensusAction.delivered) :
    ∀ n ∈ leader :: group, ∀ i, (s.node n).getDecision (i + 1) =
      (actions.filterMap (ConsensusAction.proposedBy leader))[i]? := by
  have h : s.LedInv leader group :=
    run_ledInv ⟨inv_new, led_new leader group⟩ hsteady hrun
  have hvalid : s.Valid :=
    run_preserves (fun _ _ _ h hstep => h.step hstep) valid_new hrun
  have hhandled : ∀ packet ∈ s.network, s.Handled packet := by
    intro packet hmem
    obtain ⟨i, hi⟩ := List.mem_iff_getElem?.mp hmem
    have hlt := (List.getElem?_eq_some_iff.mp hi).1
    exact handled_of_deliver hrun hsteady (hdelivered i hlt) hi
  have hproposals : (s.calls leader).map ProposeCall.value =
      actions.filterMap (ConsensusAction.proposedBy leader) := by
    rw [run_records (fun s : ConsensusSystem α =>
      (s.calls leader).map ProposeCall.value)
      (fun _ _ _ hstep => values_step hstep leader) hrun]
    rfl
  intro n hn i
  rw [← hproposals, List.getElem?_map]
  have hproposed : ∀ v, (s.node n).getDecision (i + 1) = some v →
      (s.calls leader)[i]?.map ProposeCall.value = some v := by
    intro v hv
    obtain ⟨m, c, hc, hround, rfl⟩ := (hvalid.node n).decided _ v hv
    obtain ⟨k, hk⟩ := List.mem_iff_getElem?.mp hc
    obtain rfl := h.led.caller hk
    have := h.led.leads.called k c hk
    obtain rfl : k = i := by omega
    rw [hk]
    rfl
  cases hi : (s.calls leader)[i]? with
  | none =>
      refine Option.eq_none_iff_forall_ne_some.mpr fun v hv => ?_
      simpa [hi] using hproposed v hv
  | some c =>
      have hc := List.mem_of_getElem? hi
      have hsome := h.decided hgroup hhandled hc (hreturned c hc) n hn
      obtain ⟨v, hv⟩ := Option.isSome_iff_exists.mp hsome
      rw [h.led.leads.called i c hi] at hv
      rw [← hi, hproposed v hv]
      exact hv

/-- The wait of the call ends before any vote has come, so that it returns `None`,
and the round is decided by the first vote. -/
def decidedLate : List (ConsensusAction Nat) :=
  [.propose 0 5, .readAlive 0 0 [1, 2], .sendPropose 0 0, .sendPropose 0 0,
    .close 0 0, .deliver 0 [1, 2], .deliver 1 [1, 2], .deliver 2 [2, 1],
    .deliver 3 [1, 2], .deliver 4 [1, 2], .deliver 5 [1, 2]]

theorem decidedLate_allDecided :
    ∃ s, run step new decidedLate = some s ∧
      (s.calls 0).map ProposeCall.phase = [.done none] ∧
      ∀ n ∈ [0, 1, 2], (s.node n).getDecision 1 = some 5 := by
  refine ⟨_, rfl, rfl, fun n hn => ?_⟩
  exact run_allDecided 0 [1, 2] (by decide) decidedLate _ rfl
    (by simp [decidedLate, ConsensusAction.Steady]; decide) (by decide)
    (by decide) n hn 0

end ConsensusSystem

end DistributedMemory.Consensus
