import DistributedMemory.Mutex.RicartAgrawala
import Mathlib.Data.List.Count
import Mathlib.Data.List.Perm.Subperm

/-!
# Mutual exclusion

For two nodes `i` and `j`, the request of `i` is in exactly one place on its way
to `j` and back: still to be sent, on the way, deferred at `j`, answered and on
the way back, or counted at `i`.  So the answers that `i` counts, which carry no
request, are those to its current request, one from every other node.

A node that has answered a request has a later clock, and its own request for the
same resource, now or later, comes after the one that it answered.
-/

namespace DistributedMemory.Mutex

open DistributedMemory.Library DistributedMemory.Network

/-- `(ts, i)` is before `(ts', j)`. -/
def Before (ts i ts' j : Nat) : Prop :=
  ts < ts' ∨ ts = ts' ∧ i < j

private theorem Before.asymm {ts i ts' j : Nat} (h : Before ts i ts' j) :
    ¬ Before ts' j ts i := by
  unfold Before at *
  omega

/-! ## One node -/

structure MutexNode.Inv (needed : Nat) (n : MutexNode) : Prop where
  stamped : n.mutex.state ≠ .released → n.mutex.requestTs ≤ n.clock.time
  counted : n.mutex.state ≠ .released →
    n.mutex.repliesReceived = n.granted.length ∧ n.mutex.repliesNeeded = needed
  signalled : n.mutex.state ≠ .released → n.mutex.csEvent = true →
    n.mutex.repliesNeeded ≤ n.mutex.repliesReceived
  held : n.mutex.state = .held → n.mutex.csEvent = true
  calling : ∀ call, n.call = some call → n.mutex.state = .wanted ∧
    n.mutex.requestResource = some call.resource

namespace MutexNode

variable {needed : Nat} {n : MutexNode}

theorem Inv.clocked (h : n.Inv needed) {c : LamportClock}
    (hc : n.clock.time ≤ c.time) :
    ({ n with clock := c } : MutexNode).Inv needed where
  stamped hactive := Nat.le_trans (h.stamped hactive) hc
  counted := h.counted
  signalled := h.signalled
  held := h.held
  calling := h.calling

theorem inv_requestCs (resource : Resource) (targets : List NodeId)
    (c : LamportClock) (m : RicartAgrawala) :
    (⟨c, m.requestCs resource c.time needed, some ⟨resource, targets⟩, []⟩ :
      MutexNode).Inv needed where
  stamped _ := Nat.le_refl _
  counted _ := ⟨rfl, rfl⟩
  signalled _ := by simp [RicartAgrawala.requestCs]
  held := by simp [RicartAgrawala.requestCs]
  calling call hcall := by
    cases hcall
    exact ⟨rfl, rfl⟩

theorem Inv.sent (h : n.Inv needed) {resource : Resource}
    {targets rest : List NodeId} (hcall : n.call = some ⟨resource, targets⟩)
    {c : LamportClock} (hc : n.clock.time ≤ c.time) :
    ({ n with clock := c, call := some ⟨resource, rest⟩ } : MutexNode).Inv
      needed := by
  have hclocked := h.clocked hc
  refine ⟨hclocked.stamped, h.counted, h.signalled, h.held, ?_⟩
  rintro call ⟨⟩
  exact h.calling ⟨resource, targets⟩ hcall

theorem Inv.defer (h : n.Inv needed) (sender : NodeId) (resource : Resource) :
    ({ n with mutex := n.mutex.defer sender resource } : MutexNode).Inv
      needed :=
  ⟨h.stamped, h.counted, h.signalled, h.held, h.calling⟩

theorem Inv.handleReply (h : n.Inv needed) (sender : NodeId) :
    ({ n with
      mutex := n.mutex.handleReply
      granted := n.granted ++ [sender] } : MutexNode).Inv needed where
  stamped := h.stamped
  counted hactive := by
    obtain ⟨hreceived, hneeded⟩ := h.counted hactive
    refine ⟨?_, hneeded⟩
    simp only [RicartAgrawala.handleReply, List.length_append,
      List.length_singleton, hreceived]
  signalled hactive hevent := by
    simp only [RicartAgrawala.handleReply, Bool.or_eq_true,
      decide_eq_true_eq] at hevent ⊢
    rcases hevent with hevent | hle
    · exact Nat.le_succ_of_le (h.signalled hactive hevent)
    · exact hle
  held hheld := by
    have hevent := h.held hheld
    simp only [RicartAgrawala.handleReply, hevent, Bool.true_or]
  calling := h.calling

theorem Inv.wake (h : n.Inv needed) {call : MutexCall}
    (hcall : n.call = some call) (hevent : n.mutex.csEvent = true) :
    ({ n with
      mutex := { n.mutex with state := .held }
      call := none } : MutexNode).Inv needed := by
  have hactive : n.mutex.state ≠ .released := by
    rw [(h.calling call hcall).1]
    decide
  exact ⟨fun _ => h.stamped hactive, fun _ => h.counted hactive,
    fun _ => h.signalled hactive, fun _ => hevent, by simp⟩

theorem inv_releaseCs (hcall : n.call = none) :
    ({ n with mutex := n.mutex.releaseCs, granted := [] } : MutexNode).Inv
      needed where
  stamped hactive := absurd rfl hactive
  counted hactive := absurd rfl hactive
  signalled hactive := absurd rfl hactive
  held hheld := by cases hheld
  calling call hsome := by
    rw [hcall] at hsome
    cases hsome

end MutexNode

/-! ## Where a request is -/

/-- `p` is the request of `i` on its way to `j` or the answer to it. -/
def MutexPacket.carries (i j : NodeId) (p : MutexPacket) : Bool :=
  match p.msg with
  | .request _ _ => p.sender = i && p.receiver = j
  | .reply _ => p.sender = j && p.receiver = i

def MutexPacket.asker (p : MutexPacket) : NodeId :=
  match p.msg with
  | .request _ _ => p.sender
  | .reply _ => p.receiver

def MutexPacket.asked (p : MutexPacket) : NodeId :=
  match p.msg with
  | .request _ _ => p.receiver
  | .reply _ => p.sender

private theorem MutexPacket.carries_iff {i j : NodeId} {p : MutexPacket} :
    p.carries i j = true ↔ p.asker = i ∧ p.asked = j := by
  cases hmsg : p.msg <;>
    simp [carries, asker, asked, hmsg, and_comm]

def RicartAgrawala.defers (m : RicartAgrawala) (i : NodeId) : Nat :=
  m.deferred.countP fun d => d.1 = i

namespace MutexSystem

/-- How often the request of `i` to `j` is around, the answers counted apart. -/
def underway (s : MutexSystem) (i j : NodeId) : Nat :=
  (s.node i).targets.count j + s.packets.countP (·.carries i j) +
    (s.node j).mutex.defers i

def tokens (s : MutexSystem) (i j : NodeId) : Nat :=
  s.underway i j + (s.node i).granted.count j

def Asks (nodes : List NodeId) (s : MutexSystem) (i j : NodeId) : Prop :=
  i ∈ nodes ∧ j ∈ nodes ∧ i ≠ j ∧ (s.node i).mutex.state ≠ .released

instance (nodes : List NodeId) (s : MutexSystem) (i j : NodeId) :
    Decidable (s.Asks nodes i j) :=
  inferInstanceAs (Decidable (_ ∧ _ ∧ _ ∧ _))

/-- No request of `i` is around. -/
def Quiet (s : MutexSystem) (i : NodeId) : Prop := ∀ j, s.underway i j = 0

/-- `j` has a later clock than the request of `i`, and a later request if both are
for one resource. -/
structure Permits (s : MutexSystem) (i j : NodeId) : Prop where
  later : (s.node i).mutex.requestTs < (s.node j).clock.time
  ordered : (s.node j).mutex.state ≠ .released →
    (s.node j).mutex.requestResource = (s.node i).mutex.requestResource →
    Before (s.node i).mutex.requestTs i (s.node j).mutex.requestTs j

/-- What a packet says is true of the node whose request it is about. -/
def Sound (s : MutexSystem) (p : MutexPacket) : Prop :=
  match p.msg with
  | .request resource reqTs =>
      reqTs = (s.node p.sender).mutex.requestTs ∧
        some resource = (s.node p.sender).mutex.requestResource ∧
        match p.stage with
        | .outgoing => False
        | .sent timestamp => reqTs < timestamp
        | .received => reqTs < (s.node p.receiver).clock.time
  | .reply _ => s.Permits p.receiver p.sender

structure Inv (nodes : List NodeId) (s : MutexSystem) : Prop where
  node : ∀ i, (s.node i).Inv (others nodes i).length
  tokens : ∀ i j, s.tokens i j = if s.Asks nodes i j then 1 else 0
  packets : ∀ p ∈ s.packets, s.Sound p
  deferred : ∀ j, ∀ d ∈ (s.node j).mutex.deferred,
    (s.node d.1).mutex.requestTs < (s.node j).clock.time
  granted : ∀ i, ∀ j ∈ (s.node i).granted, s.Permits i j

theorem inv_new (nodes : List NodeId) : new.Inv nodes where
  node i := by constructor <;> simp [new, RicartAgrawala.new]
  tokens i j := by
    simp [new, MutexSystem.tokens, underway, Asks, RicartAgrawala.new,
      RicartAgrawala.defers, MutexNode.targets]
  packets := by simp [new]
  deferred := by simp [new, RicartAgrawala.new]
  granted := by simp [new]

section Tokens

variable {nodes : List NodeId} {s : MutexSystem}

theorem underway_pos_of_packet {p : MutexPacket} (hp : p ∈ s.packets) :
    0 < s.underway p.asker p.asked := by
  have : 0 < s.packets.countP (·.carries p.asker p.asked) :=
    List.countP_pos_iff.mpr ⟨p, hp, MutexPacket.carries_iff.mpr ⟨rfl, rfl⟩⟩
  unfold underway
  omega

theorem underway_pos_of_deferred {j : NodeId} {d : NodeId × Resource}
    (hd : d ∈ (s.node j).mutex.deferred) : 0 < s.underway d.1 j := by
  have : 0 < (s.node j).mutex.defers d.1 :=
    List.countP_pos_iff.mpr ⟨d, hd, by simp⟩
  unfold underway
  omega

theorem Inv.quiet_of_released (h : s.Inv nodes) {i : NodeId}
    (hreleased : (s.node i).mutex.state = .released) :
    s.Quiet i ∧ (s.node i).granted = [] := by
  have hzero : ∀ j, s.tokens i j = 0 := fun j => by
    rw [h.tokens, if_neg]
    rintro ⟨-, -, -, hactive⟩
    exact hactive hreleased
  refine ⟨fun j => ?_, List.eq_nil_iff_forall_not_mem.mpr fun j hj => ?_⟩
  · have := hzero j
    unfold MutexSystem.tokens at this
    omega
  · have := hzero j
    have hpos := List.count_pos_iff.mpr hj
    unfold MutexSystem.tokens at this
    omega

theorem mem_granted_of_event {i : NodeId}
    (hn : (s.node i).Inv (others nodes i).length)
    (hsub : (s.node i).granted.Subperm (others nodes i))
    (hactive : (s.node i).mutex.state ≠ .released)
    (hevent : (s.node i).mutex.csEvent = true) {j : NodeId}
    (hj : j ∈ others nodes i) : j ∈ (s.node i).granted := by
  obtain ⟨hreceived, hneeded⟩ := hn.counted hactive
  have hle := hn.signalled hactive hevent
  exact (hsub.perm_of_length_le (by omega)).mem_iff.mpr hj

theorem Inv.granted_all (h : s.Inv nodes) {i j : NodeId}
    (hactive : (s.node i).mutex.state ≠ .released)
    (hevent : (s.node i).mutex.csEvent = true) (hj : j ∈ nodes) (hne : i ≠ j) :
    j ∈ (s.node i).granted := by
  have hcount : ∀ k, (s.node i).granted.count k ≤ 1 := fun k => by
    have := h.tokens i k
    unfold MutexSystem.tokens at this
    split at this <;> omega
  have hsubset : (s.node i).granted ⊆ others nodes i := fun k hk => by
    have htokens := h.tokens i k
    have hpos := List.count_pos_iff.mpr hk
    unfold MutexSystem.tokens at htokens
    split at htokens
    · next hasks =>
      obtain ⟨-, hk, hne, -⟩ := hasks
      exact List.mem_filter.mpr ⟨hk, by simpa using Ne.symm hne⟩
    · omega
  have hsub := List.subperm_of_subset
    (List.nodup_iff_count_le_one.mpr hcount) hsubset
  exact mem_granted_of_event (h.node i) hsub hactive hevent
    (List.mem_filter.mpr ⟨hj, by simpa using Ne.symm hne⟩)

theorem Inv.quiet_of_held (h : s.Inv nodes) {i : NodeId}
    (hheld : (s.node i).mutex.state = .held) : s.Quiet i := by
  intro j
  have htokens := h.tokens i j
  unfold MutexSystem.tokens at htokens
  by_cases hasks : s.Asks nodes i j
  · rw [if_pos hasks] at htokens
    obtain ⟨-, hj, hne, hactive⟩ := hasks
    have hmem := h.granted_all hactive ((h.node i).held hheld) hj hne
    have := List.count_pos_iff.mpr hmem
    omega
  · rw [if_neg hasks] at htokens
    omega

end Tokens

/-! ## What one step can do -/

/-- A step lets clocks grow and leaves the requests that are around alone; a
request that it makes has a timestamp above the clock before. -/
structure Moves (s s' : MutexSystem) : Prop where
  clock : ∀ j, (s.node j).clock.time ≤ (s'.node j).clock.time
  active : ∀ j, (s'.node j).mutex.state ≠ .released →
    (s.node j).mutex.state ≠ .released ∧
      (s'.node j).mutex.requestTs = (s.node j).mutex.requestTs ∧
      (s'.node j).mutex.requestResource = (s.node j).mutex.requestResource ∨
    (s.node j).clock.time ≤ (s'.node j).mutex.requestTs
  stands : ∀ i, s.Quiet i ∧ (s'.node i).granted = [] ∨
    (s'.node i).mutex.requestTs = (s.node i).mutex.requestTs ∧
      (s'.node i).mutex.requestResource = (s.node i).mutex.requestResource

section Moves

variable {nodes : List NodeId} {s s' : MutexSystem}

theorem Moves.not_quiet (h : Moves s s') {i j : NodeId}
    (hpos : 0 < s.underway i j) :
    (s'.node i).mutex.requestTs = (s.node i).mutex.requestTs ∧
      (s'.node i).mutex.requestResource = (s.node i).mutex.requestResource := by
  rcases h.stands i with ⟨hquiet, -⟩ | hstands
  · have := hquiet j
    omega
  · exact hstands

theorem Moves.permits (h : Moves s s') {i j : NodeId} (hold : s.Permits i j)
    (hstands : (s'.node i).mutex.requestTs = (s.node i).mutex.requestTs ∧
      (s'.node i).mutex.requestResource =
        (s.node i).mutex.requestResource) : s'.Permits i j := by
  obtain ⟨hts, hresource⟩ := hstands
  refine ⟨?_, fun hactive hsame => ?_⟩
  · rw [hts]
    exact Nat.lt_of_lt_of_le hold.later (h.clock j)
  · rw [hts]
    rcases h.active j hactive with ⟨hbefore, hts', hresource'⟩ | hfresh
    · rw [hts']
      apply hold.ordered hbefore
      rw [← hresource', hsame, hresource]
    · exact .inl (Nat.lt_of_lt_of_le hold.later hfresh)

theorem Moves.sound (h : Moves s s') {p : MutexPacket} (hp : p ∈ s.packets)
    (hold : s.Sound p) : s'.Sound p := by
  have hstands := h.not_quiet (underway_pos_of_packet hp)
  unfold Sound at *
  cases hmsg : p.msg with
  | request resource reqTs =>
      simp only [hmsg, MutexPacket.asker] at hold hstands ⊢
      obtain ⟨hts, hresource, hstage⟩ := hold
      refine ⟨hts.trans hstands.1.symm, hresource.trans hstands.2.symm, ?_⟩
      cases hstage' : p.stage with
      | outgoing => simp only [hstage'] at hstage
      | sent timestamp => simpa only [hstage'] using hstage
      | received =>
          simp only [hstage'] at hstage ⊢
          exact Nat.lt_of_lt_of_le hstage (h.clock p.receiver)
  | reply resource =>
      simp only [hmsg, MutexPacket.asker] at hold hstands ⊢
      exact h.permits hold hstands

theorem Inv.moves (h : s.Inv nodes) (hmoves : Moves s s')
    (hnode : ∀ i, (s'.node i).Inv (others nodes i).length)
    (htokens : ∀ i j, s'.tokens i j = if s'.Asks nodes i j then 1 else 0)
    (hpackets : ∀ p ∈ s'.packets, p ∈ s.packets ∨ s'.Sound p)
    (hdeferred : ∀ j, ∀ d ∈ (s'.node j).mutex.deferred,
      d ∈ (s.node j).mutex.deferred ∨
        (s'.node d.1).mutex.requestTs < (s'.node j).clock.time)
    (hgranted : ∀ i, ∀ j ∈ (s'.node i).granted,
      j ∈ (s.node i).granted ∨ s'.Permits i j) : s'.Inv nodes where
  node := hnode
  tokens := htokens
  packets p hp := by
    rcases hpackets p hp with hold | hnew
    · exact hmoves.sound hold (h.packets p hold)
    · exact hnew
  deferred j d hd := by
    rcases hdeferred j d hd with hold | hnew
    · rw [(hmoves.not_quiet (underway_pos_of_deferred hold)).1]
      exact Nat.lt_of_lt_of_le (h.deferred j d hold) (hmoves.clock j)
    · exact hnew
  granted i j hj := by
    rcases hgranted i j hj with hold | hnew
    · rcases hmoves.stands i with ⟨-, hnone⟩ | hstands
      · rw [hnone] at hj
        cases hj
      · exact hmoves.permits (h.granted i j hold) hstands
    · exact hnew

end Moves

section Update

variable {nodes : List NodeId} {s : MutexSystem} {i : NodeId} {x : MutexNode}
  {packets : List MutexPacket}

theorem moves_update (hclock : (s.node i).clock.time ≤ x.clock.time)
    (hactive : x.mutex.state ≠ .released →
      (s.node i).mutex.state ≠ .released ∧
        x.mutex.requestTs = (s.node i).mutex.requestTs ∧
        x.mutex.requestResource = (s.node i).mutex.requestResource ∨
      (s.node i).clock.time ≤ x.mutex.requestTs)
    (hstands : s.Quiet i ∧ x.granted = [] ∨
      x.mutex.requestTs = (s.node i).mutex.requestTs ∧
        x.mutex.requestResource = (s.node i).mutex.requestResource) :
    Moves s ⟨Function.update s.node i x, packets⟩ := by
  refine ⟨fun j => ?_, fun j => ?_, fun j => ?_⟩ <;> by_cases hj : j = i
  · subst hj
    simpa using hclock
  · simp [hj]
  · subst hj
    simpa using hactive
  · simpa [hj] using fun hactive => .inl hactive
  · subst hj
    simpa using hstands
  · simp [hj]

theorem moves_kept (hclock : (s.node i).clock.time ≤ x.clock.time)
    (hstate : x.mutex.state = .released ↔ (s.node i).mutex.state = .released)
    (hts : x.mutex.requestTs = (s.node i).mutex.requestTs)
    (hresource :
      x.mutex.requestResource = (s.node i).mutex.requestResource) :
    Moves s ⟨Function.update s.node i x, packets⟩ := by
  apply moves_update hclock
  · intro hactive
    exact .inl ⟨fun hreleased => hactive (hstate.mpr hreleased), hts, hresource⟩
  · exact .inr ⟨hts, hresource⟩

theorem Inv.update (h : s.Inv nodes)
    (hmoves : Moves s ⟨Function.update s.node i x, packets⟩)
    (hnode : x.Inv (others nodes i).length)
    (htokens : ∀ k j, MutexSystem.tokens
      ⟨Function.update s.node i x, packets⟩ k j = if MutexSystem.Asks nodes
        ⟨Function.update s.node i x, packets⟩ k j then 1 else 0)
    (hpackets : ∀ p ∈ packets, p ∈ s.packets ∨
      MutexSystem.Sound ⟨Function.update s.node i x, packets⟩ p)
    (hdeferred : ∀ d ∈ x.mutex.deferred, d ∈ (s.node i).mutex.deferred ∨
      (Function.update s.node i x d.1).mutex.requestTs < x.clock.time)
    (hgranted : ∀ j ∈ x.granted, j ∈ (s.node i).granted ∨
      MutexSystem.Permits ⟨Function.update s.node i x, packets⟩ i j) :
    MutexSystem.Inv nodes ⟨Function.update s.node i x, packets⟩ := by
  refine h.moves hmoves (fun j => ?_) htokens hpackets (fun j => ?_)
    (fun j => ?_) <;> by_cases hj : j = i
  · subst hj
    simpa using hnode
  · simpa [hj] using h.node j
  · subst hj
    simpa using hdeferred
  · simp only [Function.update_of_ne hj]
    exact fun d hd => .inl hd
  · subst hj
    simpa using hgranted
  · simp only [Function.update_of_ne hj]
    exact fun k hk => .inl hk

theorem tokens_update (k j : NodeId) :
    MutexSystem.tokens ⟨Function.update s.node i x, packets⟩ k j =
      (if k = i then x.targets else (s.node k).targets).count j +
        packets.countP (·.carries k j) +
        (if j = i then x.mutex else (s.node j).mutex).defers k +
        (if k = i then x.granted else (s.node k).granted).count j := by
  by_cases hk : k = i <;> by_cases hj : j = i <;>
    simp [MutexSystem.tokens, underway, hk, hj]

theorem asks_update {k : NodeId} (hk : k ≠ i) (j : NodeId) :
    MutexSystem.Asks nodes ⟨Function.update s.node i x, packets⟩ k j ↔
      s.Asks nodes k j := by
  simp [Asks, hk]

theorem Inv.tokens_kept (h : s.Inv nodes)
    (hstate : x.mutex.state = .released ↔ (s.node i).mutex.state = .released)
    (hkept : ∀ k j, MutexSystem.tokens
      ⟨Function.update s.node i x, packets⟩ k j = s.tokens k j) (k j : NodeId) :
    MutexSystem.tokens ⟨Function.update s.node i x, packets⟩ k j =
      if MutexSystem.Asks nodes ⟨Function.update s.node i x, packets⟩ k j then 1
      else 0 := by
  rw [hkept, h.tokens]
  have hiff : MutexSystem.Asks nodes ⟨Function.update s.node i x, packets⟩ k j ↔
      s.Asks nodes k j := by
    by_cases hk : k = i
    · subst hk
      simp [Asks, hstate]
    · exact asks_update hk j
  simp only [hiff]

theorem countP_erase_add {l : List MutexPacket} {p : MutexPacket} (hp : p ∈ l)
    (f : MutexPacket → Bool) :
    (l.erase p).countP f + (if f p then 1 else 0) = l.countP f := by
  have hpos : f p = true → 0 < l.countP f := fun hf =>
    List.countP_pos_iff.mpr ⟨p, hp, hf⟩
  rw [List.countP_erase]
  by_cases hf : f p = true
  · simp only [hp, hf, and_self, if_true]
    have := hpos hf
    omega
  · simp [hf]

end Update

/-! ## The steps -/

section Steps

variable {nodes : List NodeId} {s s' : MutexSystem}

private theorem count_others (hnodup : nodes.Nodup) (i j : NodeId) :
    (others nodes i).count j = if j ∈ nodes ∧ i ≠ j then 1 else 0 := by
  have hcount : (others nodes i).count j ≤ 1 :=
    List.nodup_iff_count_le_one.mp (hnodup.filter _) j
  have hmem : j ∈ others nodes i ↔ j ∈ nodes ∧ i ≠ j := by
    rw [others, List.mem_filter, decide_eq_true_eq]
    exact and_congr_right fun _ => ne_comm
  split
  · next h =>
    have := List.count_pos_iff.mpr (hmem.mpr h)
    omega
  · next h => exact List.count_eq_zero.mpr fun hj => h (hmem.mp hj)

theorem tokens_requestCs {i : NodeId} {resource : Resource}
    (hcall : (s.node i).call = none) (needed : Nat) (targets : List NodeId)
    (k j : NodeId) :
    (s.setNode i
      { clock := (s.node i).clock.increment
        mutex := (s.node i).mutex.requestCs resource
          (s.node i).clock.increment.time needed
        call := some ⟨resource, targets⟩
        granted := [] }).tokens k j =
      if k = i then targets.count j + s.underway i j else s.tokens k j := by
  have hdefers : (if j = i then (s.node i).mutex.requestCs resource
      (s.node i).clock.increment.time needed
      else (s.node j).mutex).defers k = (s.node j).mutex.defers k := by
    split
    · next hj => rw [hj]; rfl
    · rfl
  rw [setNode, tokens_update, hdefers]
  by_cases hk : k = i
  · subst hk
    simp only [if_true, underway, hcall, MutexNode.targets, List.count_nil]
    omega
  · simp only [if_neg hk, MutexSystem.tokens, underway]

theorem Inv.requestCs (h : s.Inv nodes) (hnodup : nodes.Nodup) {i : NodeId}
    {resource : Resource} (hi : i ∈ nodes)
    (hreleased : (s.node i).mutex.state = .released)
    (hcall : (s.node i).call = none) :
    (s.setNode i
      { clock := (s.node i).clock.increment
        mutex := (s.node i).mutex.requestCs resource
          (s.node i).clock.increment.time (others nodes i).length
        call := some ⟨resource, others nodes i⟩
        granted := [] }).Inv nodes := by
  obtain ⟨hquiet, hnone⟩ := h.quiet_of_released hreleased
  refine h.update (moves_update (Nat.le_succ _) (fun _ => .inr (Nat.le_succ _))
    (.inl ⟨hquiet, rfl⟩)) (MutexNode.inv_requestCs _ _ _ _) (fun k j => ?_)
    (fun p hp => .inl hp) (fun d hd => .inl hd) (by simp)
  refine (tokens_requestCs hcall _ _ k j).trans ?_
  by_cases hk : k = i
  · subst hk
    rw [if_pos rfl, hquiet j, count_others hnodup]
    simp [Asks, hi, RicartAgrawala.requestCs]
  · rw [if_neg hk, h.tokens]
    simp only [asks_update hk]

theorem tokens_sendRequest {i target : NodeId} {resource : Resource}
    {rest : List NodeId}
    (hcall : (s.node i).call = some ⟨resource, target :: rest⟩) (k j : NodeId) :
    MutexSystem.tokens ⟨Function.update s.node i
      { s.node i with
        clock := (s.node i).clock.increment
        call := some ⟨resource, rest⟩ },
      s.packets ++ [⟨i, target, .request resource (s.node i).mutex.requestTs,
        .sent (s.node i).clock.increment.time⟩]⟩ k j = s.tokens k j := by
  have htargets : (s.node i).targets = target :: rest := by
    simp only [MutexNode.targets, hcall]
  have hrest : MutexNode.targets { s.node i with
      clock := (s.node i).clock.increment
      call := some ⟨resource, rest⟩ } = rest := rfl
  have hdefers : (if j = i then (s.node i).mutex
      else (s.node j).mutex).defers k = (s.node j).mutex.defers k := by
    split
    · next hj => rw [hj]
    · rfl
  rw [tokens_update, hrest, hdefers, MutexSystem.tokens, underway,
    List.countP_append, List.countP_singleton]
  by_cases hk : k = i
  · subst hk
    rw [if_pos rfl, if_pos rfl, htargets, List.count_cons]
    by_cases ht : target = j <;> simp [MutexPacket.carries, ht]
    omega
  · simp [MutexPacket.carries, hk, Ne.symm hk]

theorem Inv.sendRequest (h : s.Inv nodes) {i target : NodeId}
    {resource : Resource} {rest : List NodeId}
    (hcall : (s.node i).call = some ⟨resource, target :: rest⟩) :
    MutexSystem.Inv nodes ⟨Function.update s.node i
      { s.node i with
        clock := (s.node i).clock.increment
        call := some ⟨resource, rest⟩ },
      s.packets ++ [⟨i, target, .request resource (s.node i).mutex.requestTs,
        .sent (s.node i).clock.increment.time⟩]⟩ := by
  have hn := h.node i
  obtain ⟨hwanted, hresource⟩ := hn.calling _ hcall
  have hactive : (s.node i).mutex.state ≠ .released := by simp [hwanted]
  refine h.update (moves_kept (Nat.le_succ _) Iff.rfl rfl rfl)
    (hn.sent hcall (Nat.le_succ _))
    (h.tokens_kept Iff.rfl (tokens_sendRequest hcall)) (fun p hp => ?_)
    (fun d hd => .inl hd) (fun j hj => .inl hj)
  rcases List.mem_append.mp hp with hp | hp
  · exact .inl hp
  · right
    rw [List.mem_singleton.mp hp]
    have hlt := Nat.lt_succ_of_le (hn.stamped hactive)
    simpa [Sound, hresource] using hlt

theorem tokens_forward {p : MutexPacket} {stage : Stage} {i : NodeId}
    {c : LamportClock} (hp : p ∈ s.packets) (k j : NodeId) :
    MutexSystem.tokens ⟨Function.update s.node i { s.node i with clock := c },
      s.packets.erase p ++ [{ p with stage := stage }]⟩ k j = s.tokens k j := by
  have hcarries : MutexPacket.carries k j { p with stage := stage } =
      p.carries k j := rfl
  have herase := countP_erase_add hp fun q => q.carries k j
  rw [tokens_update, List.countP_append, List.countP_singleton, hcarries,
    herase, MutexSystem.tokens, underway]
  by_cases hk : k = i <;> by_cases hj : j = i <;>
    simp [hk, hj, MutexNode.targets]

theorem Inv.forward (h : s.Inv nodes) {p : MutexPacket} {stage : Stage}
    {i : NodeId} {c : LamportClock} (hp : p ∈ s.packets)
    (hc : (s.node i).clock.time ≤ c.time)
    (hsound : Moves s ⟨Function.update s.node i { s.node i with clock := c },
        s.packets.erase p ++ [{ p with stage := stage }]⟩ →
      MutexSystem.Sound ⟨Function.update s.node i { s.node i with clock := c },
        s.packets.erase p ++ [{ p with stage := stage }]⟩
        { p with stage := stage }) :
    MutexSystem.Inv nodes ⟨Function.update s.node i
      { s.node i with clock := c },
      s.packets.erase p ++ [{ p with stage := stage }]⟩ := by
  have hn := h.node i
  have hmoves : Moves s ⟨Function.update s.node i { s.node i with clock := c },
      s.packets.erase p ++ [{ p with stage := stage }]⟩ :=
    moves_kept hc Iff.rfl rfl rfl
  refine h.update hmoves (hn.clocked hc)
    (h.tokens_kept Iff.rfl (tokens_forward hp)) (fun q hq => ?_)
    (fun d hd => .inl hd) (fun j hj => .inl hj)
  rcases List.mem_append.mp hq with hq | hq
  · exact .inl (List.mem_of_mem_erase hq)
  · exact .inr (List.mem_singleton.mp hq ▸ hsound hmoves)

theorem Inv.sendReply (h : s.Inv nodes) {p : MutexPacket} (hp : p ∈ s.packets)
    (hstage : p.stage = .outgoing) :
    MutexSystem.Inv nodes ⟨Function.update s.node p.sender
      { s.node p.sender with clock := (s.node p.sender).clock.increment },
      s.packets.erase p ++
        [{ p with stage := .sent (s.node p.sender).clock.increment.time }]⟩ := by
  apply h.forward hp (Nat.le_succ _)
  intro hmoves
  have hsound := h.packets p hp
  have hstands := hmoves.not_quiet (underway_pos_of_packet hp)
  cases hmsg : p.msg with
  | request resource reqTs => simp [Sound, hmsg, hstage] at hsound
  | reply resource =>
      simp only [Sound, hmsg, MutexPacket.asker] at hsound hstands ⊢
      have hpermits := hmoves.permits hsound hstands
      exact ⟨hpermits.later, hpermits.ordered⟩

theorem Inv.dispatch (h : s.Inv nodes) {p : MutexPacket} (hp : p ∈ s.packets)
    {timestamp : Nat} (hstage : p.stage = .sent timestamp) :
    MutexSystem.Inv nodes ⟨Function.update s.node p.receiver
      { s.node p.receiver with
        clock := (s.node p.receiver).clock.update timestamp },
      s.packets.erase p ++ [{ p with stage := .received }]⟩ := by
  apply h.forward hp (LamportClock.le_update _ _)
  intro hmoves
  have hsound := h.packets p hp
  have hstands := hmoves.not_quiet (underway_pos_of_packet hp)
  cases hmsg : p.msg with
  | request resource reqTs =>
      simp only [Sound, hmsg, hstage, MutexPacket.asker] at hsound hstands ⊢
      obtain ⟨hts, hresource, hlt⟩ := hsound
      refine ⟨hts.trans hstands.1.symm, hresource.trans hstands.2.symm, ?_⟩
      simp only [Function.update_self, LamportClock.update_time]
      omega
  | reply resource =>
      simp only [Sound, hmsg, MutexPacket.asker] at hsound hstands ⊢
      have hpermits := hmoves.permits hsound hstands
      exact ⟨hpermits.later, hpermits.ordered⟩

private theorem Inv.permits_of_sendsReply (h : s.Inv nodes) {p : MutexPacket}
    (hp : p ∈ s.packets) {resource : Resource} {reqTs : Nat}
    (hmsg : p.msg = .request resource reqTs) (hstage : p.stage = .received)
    (hreply : (s.node p.receiver).mutex.sendsReply p.receiver p.sender resource
      reqTs = true) : s.Permits p.sender p.receiver := by
  have hsound := h.packets p hp
  simp only [Sound, hmsg, hstage] at hsound
  obtain ⟨rfl, hresource, hlt⟩ := hsound
  refine ⟨hlt, fun hactive hsame => ?_⟩
  unfold RicartAgrawala.sendsReply at hreply
  split at hreply
  · next hreleased => exact absurd hreleased hactive
  · cases hreply
  · rw [if_neg (by simp [hsame, hresource])] at hreply
    simpa [Before] using hreply

theorem tokens_handleRequest {p : MutexPacket} (hp : p ∈ s.packets)
    {resource : Resource} {reqTs : Nat} (hmsg : p.msg = .request resource reqTs)
    (k j : NodeId) :
    (s.handleRequest p resource reqTs).tokens k j = s.tokens k j := by
  have herase := countP_erase_add hp fun q => q.carries k j
  have hcarries : p.carries k j = (p.sender = k && p.receiver = j) := by
    simp only [MutexPacket.carries, hmsg]
  unfold MutexSystem.handleRequest
  dsimp only
  split
  · rw [swap, MutexSystem.tokens, underway, List.countP_append,
      List.countP_singleton, MutexSystem.tokens, underway, ← herase, hcarries]
    simp [MutexPacket.carries, and_comm]
  · have hdefers : (if j = p.receiver then
        (s.node p.receiver).mutex.defer p.sender resource
        else (s.node j).mutex).defers k =
        (s.node j).mutex.defers k +
          if p.carries k j = true then 1 else 0 := by
      rw [hcarries]
      by_cases hj : j = p.receiver
      · subst hj
        simp [RicartAgrawala.defers, RicartAgrawala.defer,
          List.countP_singleton]
      · simp [hj, Ne.symm hj]
    change MutexSystem.tokens
      ⟨Function.update s.node p.receiver _, s.packets.erase p⟩ k j = _
    rw [tokens_update, hdefers, MutexSystem.tokens, underway]
    by_cases hk : k = p.receiver
    · subst hk
      simp only [if_true, MutexNode.targets]
      omega
    · simp only [if_neg hk]
      omega

theorem Inv.handleRequest (h : s.Inv nodes) {p : MutexPacket}
    (hp : p ∈ s.packets) {resource : Resource} {reqTs : Nat}
    (hmsg : p.msg = .request resource reqTs) (hstage : p.stage = .received) :
    (s.handleRequest p resource reqTs).Inv nodes := by
  have hn := h.node p.receiver
  have htokens := tokens_handleRequest hp hmsg
  unfold MutexSystem.handleRequest at htokens ⊢
  dsimp only at htokens ⊢
  split at htokens
  · next hreply =>
    rw [if_pos hreply]
    have hpermits := h.permits_of_sendsReply hp hmsg hstage hreply
    have hself : s.node = Function.update s.node p.receiver
        (s.node p.receiver) := (Function.update_eq_self _ _).symm
    rw [swap, hself] at htokens ⊢
    refine h.update (moves_kept (Nat.le_refl _) Iff.rfl rfl rfl) hn
      (h.tokens_kept Iff.rfl htokens) (fun q hq => ?_)
      (fun d hd => .inl hd) (fun j hj => .inl hj)
    rcases List.mem_append.mp hq with hq | hq
    · exact .inl (List.mem_of_mem_erase hq)
    · right
      rw [List.mem_singleton.mp hq, ← hself]
      exact ⟨hpermits.later, hpermits.ordered⟩
  · next hdefer =>
    rw [if_neg hdefer]
    have hmoves : Moves s ((s.drop p).setNode p.receiver { s.node p.receiver with
        mutex := (s.node p.receiver).mutex.defer p.sender resource }) :=
      moves_kept (Nat.le_refl _) Iff.rfl rfl rfl
    refine h.update hmoves (hn.defer _ _) (h.tokens_kept Iff.rfl htokens)
      (fun q hq => .inl (List.mem_of_mem_erase hq)) (fun d hd => ?_)
      (fun j hj => .inl hj)
    rcases List.mem_append.mp hd with hd | hd
    · exact .inl hd
    · have hsound := h.packets p hp
      have hstands := hmoves.not_quiet (underway_pos_of_packet hp)
      simp only [Sound, hmsg, hstage, MutexPacket.asker] at hsound hstands
      obtain ⟨rfl, -, hlt⟩ := hsound
      right
      rw [List.mem_singleton.mp hd]
      exact Nat.lt_of_le_of_lt (Nat.le_of_eq hstands.1) hlt

theorem tokens_handleReply {p : MutexPacket} (hp : p ∈ s.packets)
    {resource : Resource} (hmsg : p.msg = .reply resource) (k j : NodeId) :
    (s.handleReply p).tokens k j = s.tokens k j := by
  have herase := countP_erase_add hp fun q => q.carries k j
  have hcarries : p.carries k j = (p.sender = j && p.receiver = k) := by
    simp only [MutexPacket.carries, hmsg]
  have hdefers : (if j = p.receiver then
      (s.node p.receiver).mutex.handleReply
      else (s.node j).mutex).defers k = (s.node j).mutex.defers k := by
    split
    · next hj => rw [hj]; rfl
    · rfl
  rw [hcarries] at herase
  change MutexSystem.tokens
    ⟨Function.update s.node p.receiver _, s.packets.erase p⟩ k j = _
  rw [tokens_update, hdefers, MutexSystem.tokens, underway]
  by_cases hk : k = p.receiver
  · subst hk
    rw [if_pos rfl, if_pos rfl, List.count_append, List.count_singleton]
    simp only [MutexNode.targets, Bool.and_eq_true, decide_eq_true_eq,
      and_true, beq_iff_eq] at herase ⊢
    omega
  · simp only [if_neg hk]
    simp [Ne.symm hk] at herase
    omega

theorem Inv.handleReply (h : s.Inv nodes) {p : MutexPacket}
    (hp : p ∈ s.packets) {resource : Resource}
    (hmsg : p.msg = .reply resource) : (s.handleReply p).Inv nodes := by
  have hmoves : Moves s (s.handleReply p) :=
    moves_kept (Nat.le_refl _) Iff.rfl rfl rfl
  refine h.update hmoves ((h.node p.receiver).handleReply p.sender)
    (h.tokens_kept Iff.rfl (tokens_handleReply hp hmsg))
    (fun q hq => .inl (List.mem_of_mem_erase hq)) (fun d hd => .inl hd)
    (fun j hj => ?_)
  rcases List.mem_append.mp hj with hj | hj
  · exact .inl hj
  · have hsound := h.packets p hp
    have hstands := hmoves.not_quiet (underway_pos_of_packet hp)
    simp only [Sound, hmsg, MutexPacket.asker] at hsound hstands
    right
    rw [List.mem_singleton.mp hj]
    exact hmoves.permits hsound hstands

theorem tokens_wake {i : NodeId} {resource : Resource}
    (hcall : (s.node i).call = some ⟨resource, []⟩) (m : RicartAgrawala)
    (hm : m.deferred = (s.node i).mutex.deferred) (k j : NodeId) :
    (s.setNode i { s.node i with mutex := m, call := none }).tokens k j =
      s.tokens k j := by
  rw [setNode, tokens_update, MutexSystem.tokens, underway]
  by_cases hk : k = i <;> by_cases hj : j = i <;>
    simp [hk, hj, hcall, hm, MutexNode.targets, RicartAgrawala.defers]

theorem Inv.wake (h : s.Inv nodes) {i : NodeId} {resource : Resource}
    (hcall : (s.node i).call = some ⟨resource, []⟩)
    (hevent : (s.node i).mutex.csEvent = true) :
    (s.setNode i { s.node i with
      mutex := { (s.node i).mutex with state := .held }
      call := none }).Inv nodes := by
  have hn := h.node i
  obtain ⟨hwanted, -⟩ := hn.calling _ hcall
  have hstate : MutexState.held = .released ↔
      (s.node i).mutex.state = .released := by
    simp [hwanted]
  exact h.update (moves_kept (Nat.le_refl _) hstate rfl rfl)
    (hn.wake hcall hevent) (h.tokens_kept hstate (tokens_wake hcall _ rfl))
    (fun p hp => .inl hp) (fun d hd => .inl hd) (fun j hj => .inl hj)

theorem tokens_releaseCs {i : NodeId} (hcall : (s.node i).call = none)
    (k j : NodeId) :
    MutexSystem.tokens ⟨Function.update s.node i
        { s.node i with mutex := (s.node i).mutex.releaseCs, granted := [] },
      s.packets ++ (s.node i).mutex.deferred.map fun d =>
        ⟨i, d.1, .reply d.2, .outgoing⟩⟩ k j =
      if k = i then s.underway i j else s.tokens k j := by
  have hanswers : ((s.node i).mutex.deferred.map fun d => (⟨i, d.1,
      .reply d.2, .outgoing⟩ : MutexPacket)).countP (·.carries k j) =
      if j = i then (s.node i).mutex.defers k else 0 := by
    rw [List.countP_map]
    by_cases hj : j = i
    · subst hj
      simp [RicartAgrawala.defers, MutexPacket.carries, Function.comp_def]
    · simp [MutexPacket.carries, Function.comp_def, hj, Ne.symm hj]
  have hmoved : (if j = i then (s.node i).mutex.defers k else 0) +
      (if j = i then (s.node i).mutex.releaseCs
        else (s.node j).mutex).defers k = (s.node j).mutex.defers k := by
    by_cases hj : j = i
    · subst hj
      simp [RicartAgrawala.defers, RicartAgrawala.releaseCs]
    · simp [hj]
  rw [tokens_update, List.countP_append, hanswers]
  by_cases hk : k = i
  · subst hk
    simp only [if_true, MutexNode.targets, hcall, underway, List.count_nil]
    omega
  · simp only [if_neg hk, MutexSystem.tokens, underway]
    omega

theorem Inv.releaseCs (h : s.Inv nodes) {i : NodeId}
    (hheld : (s.node i).mutex.state = .held)
    (hcall : (s.node i).call = none) :
    MutexSystem.Inv nodes ⟨Function.update s.node i
        { s.node i with mutex := (s.node i).mutex.releaseCs, granted := [] },
      s.packets ++ (s.node i).mutex.deferred.map fun d =>
        ⟨i, d.1, .reply d.2, .outgoing⟩⟩ := by
  have hquiet := h.quiet_of_held hheld
  have hmoves : Moves s ⟨Function.update s.node i
        { s.node i with mutex := (s.node i).mutex.releaseCs, granted := [] },
      s.packets ++ (s.node i).mutex.deferred.map fun d =>
        ⟨i, d.1, .reply d.2, .outgoing⟩⟩ :=
    moves_update (Nat.le_refl _) (fun hactive => absurd rfl hactive)
      (.inl ⟨hquiet, rfl⟩)
  refine h.update hmoves (MutexNode.inv_releaseCs hcall) (fun k j => ?_)
    (fun p hp => ?_) (by simp [RicartAgrawala.releaseCs]) (by simp)
  · rw [tokens_releaseCs hcall]
    by_cases hk : k = i
    · subst hk
      rw [if_pos rfl, hquiet j, if_neg]
      simp [Asks, RicartAgrawala.releaseCs]
    · simp only [if_neg hk, asks_update hk, h.tokens]
  · rcases List.mem_append.mp hp with hp | hp
    · exact .inl hp
    · obtain ⟨d, hd, rfl⟩ := List.mem_map.mp hp
      have hpos := underway_pos_of_deferred hd
      obtain ⟨hts, -⟩ := hmoves.not_quiet hpos
      right
      refine ⟨?_, fun hactive => ?_⟩
      · simp only [Function.update_self]
        exact Nat.lt_of_le_of_lt (Nat.le_of_eq hts) (h.deferred i d hd)
      · simp [RicartAgrawala.releaseCs] at hactive

theorem tokens_tick (i : NodeId) (c : LamportClock) (k j : NodeId) :
    (s.setNode i { s.node i with clock := c }).tokens k j = s.tokens k j := by
  rw [setNode, tokens_update, MutexSystem.tokens, underway]
  by_cases hk : k = i <;> by_cases hj : j = i <;>
    simp [hk, hj, MutexNode.targets]

theorem Inv.tick (h : s.Inv nodes) (i : NodeId) (receivedTime : Nat) :
    (s.setNode i { s.node i with
      clock := (s.node i).clock.update receivedTime }).Inv nodes := by
  have hclock := LamportClock.le_update (s.node i).clock receivedTime
  exact h.update (moves_kept hclock Iff.rfl rfl rfl)
    ((h.node i).clocked hclock) (h.tokens_kept Iff.rfl (tokens_tick i _))
    (fun p hp => .inl hp) (fun d hd => .inl hd) (fun j hj => .inl hj)

theorem Inv.step (h : s.Inv nodes) (hnodup : nodes.Nodup) {a : MutexAction}
    (hok : s.wellBehaved a = true) (hstep : s.step nodes a = some s') :
    s'.Inv nodes := by
  cases a with
  | requestCs i resource =>
      simp only [MutexSystem.step] at hstep
      split at hstep
      · next hcan =>
        cases hstep
        obtain ⟨hi, hcall⟩ := hcan
        exact h.requestCs hnodup hi (by simpa [wellBehaved] using hok)
          (Option.isNone_iff_eq_none.mp hcall)
      · cases hstep
  | sendRequest i =>
      simp only [MutexSystem.step] at hstep
      split at hstep
      · next resource target rest hcall =>
        cases hstep
        exact h.sendRequest hcall
      · cases hstep
  | sendReply p =>
      simp only [MutexSystem.step] at hstep
      split at hstep
      · next hcan =>
        cases hstep
        exact h.sendReply hcan.1 hcan.2
      · cases hstep
  | dispatch p =>
      simp only [MutexSystem.step] at hstep
      split at hstep
      · next timestamp hstage =>
        split at hstep
        · next hp =>
          cases hstep
          exact h.dispatch hp hstage
        · cases hstep
      · cases hstep
  | handle p =>
      simp only [MutexSystem.step] at hstep
      split at hstep
      · next hcan =>
        obtain ⟨hp, hstage⟩ := hcan
        split at hstep
        · next resource reqTs hmsg =>
          cases hstep
          exact h.handleRequest hp hmsg hstage
        · next resource hmsg =>
          cases hstep
          exact h.handleReply hp hmsg
      · cases hstep
  | wake i =>
      simp only [MutexSystem.step] at hstep
      split at hstep
      · next hevent =>
        split at hstep
        · next resource hcall =>
          cases hstep
          exact h.wake hcall hevent
        · cases hstep
      · cases hstep
  | timeout i => cases hok
  | releaseCs i =>
      simp only [MutexSystem.step] at hstep
      split at hstep
      · next hcall =>
        cases hstep
        exact h.releaseCs (by simpa [wellBehaved] using hok)
          (Option.isNone_iff_eq_none.mp hcall)
      · cases hstep
  | tick i receivedTime =>
      cases hstep
      exact h.tick i receivedTime

theorem Inv.inside (h : s.Inv nodes) {i : NodeId} {resource : Resource}
    (hinside : s.Inside i resource) :
    (s.node i).mutex.state ≠ .released ∧ (s.node i).mutex.csEvent = true := by
  obtain ⟨-, hheld | ⟨hwanted, hevent⟩⟩ := hinside
  · exact ⟨by simp [hheld], (h.node i).held hheld⟩
  · exact ⟨by simp [hwanted], hevent⟩

end Steps

/-- No two nodes are inside the critical section of one resource. -/
theorem run_mutualExclusion (nodes : List NodeId) (hnodup : nodes.Nodup)
    (actions : List MutexAction) (s : MutexSystem)
    (hrun : run (step nodes) new actions = some s)
    (hbehaved : Along (step nodes) (fun s a => s.wellBehaved a = true) new
      actions)
    (i j : NodeId) (hi : i ∈ nodes) (hj : j ∈ nodes) (resource : Resource)
    (hinside : s.Inside i resource) (hinside' : s.Inside j resource) :
    i = j := by
  have h : s.Inv nodes :=
    run_invariant (fun _ _ _ h hok hstep => h.step hnodup hok hstep)
      (inv_new nodes) hbehaved hrun
  by_contra hne
  obtain ⟨hactive, hevent⟩ := h.inside hinside
  obtain ⟨hactive', hevent'⟩ := h.inside hinside'
  have hsame : (s.node i).mutex.requestResource =
      (s.node j).mutex.requestResource := hinside.1.trans hinside'.1.symm
  have hij := h.granted i j (h.granted_all hactive hevent hj hne)
  have hji := h.granted j i (h.granted_all hactive' hevent' hi (Ne.symm hne))
  exact (hij.ordered hactive' hsame.symm).asymm (hji.ordered hactive hsame)

/-- Both nodes ask with one timestamp; node 2 lets node 1 in, and node 1 defers
node 2. -/
def crossingRequests : List MutexAction :=
  [.requestCs 1 "x", .requestCs 2 "x", .sendRequest 1, .sendRequest 2,
    .dispatch ⟨1, 2, .request "x" 1, .sent 2⟩,
    .handle ⟨1, 2, .request "x" 1, .received⟩,
    .dispatch ⟨2, 1, .request "x" 1, .sent 2⟩,
    .handle ⟨2, 1, .request "x" 1, .received⟩,
    .sendReply ⟨2, 1, .reply "x", .outgoing⟩,
    .dispatch ⟨2, 1, .reply "x", .sent 4⟩,
    .handle ⟨2, 1, .reply "x", .received⟩]

theorem crossingRequests_exclusion :
    ∃ s, run (step [1, 2]) new crossingRequests = some s ∧ s.Inside 1 "x" ∧
      ¬ s.Inside 2 "x" := by
  have hview : (run (step [1, 2]) new crossingRequests).map (fun s =>
      ((s.node 1).mutex.requestResource, (s.node 1).mutex.state,
        (s.node 1).mutex.csEvent)) = some (some "x", .wanted, true) := by
    decide +kernel
  have hbehaved : Along (step [1, 2]) (fun s a => s.wellBehaved a = true) new
      crossingRequests := by
    decide +kernel
  obtain ⟨s, hs, hinside⟩ := Option.map_eq_some_iff.mp hview
  simp only [Prod.mk.injEq] at hinside
  obtain ⟨hresource, hstate, hevent⟩ := hinside
  have h1 : s.Inside 1 "x" := ⟨hresource, .inr ⟨hstate, hevent⟩⟩
  refine ⟨s, hs, h1, fun h2 => ?_⟩
  have heq := run_mutualExclusion [1, 2] (by decide) crossingRequests s hs
    hbehaved 1 2 (by decide) (by decide) "x" h1 h2
  exact absurd heq (by decide)

end MutexSystem

end DistributedMemory.Mutex
