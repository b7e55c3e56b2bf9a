import DistributedMemory.Mutex.Exclusion

/-!
# Fresh replies

A MUTEX_REPLY does not say which request it answers, and is only counted.  The
history of a run keeps what the messages leave out: for each reply on its way, each
deferred request and each reply counted, the timestamp of the request that it is
about.  It takes no part in the steps; two replies that look the same may have
different pasts, so an action on a reply says which of them it takes.

A node that calls `request_cs` when nothing is around of its earlier requests counts
the answers to its request and no others.
-/

namespace DistributedMemory.Mutex

open DistributedMemory.Library DistributedMemory.Network

def MutexPacket.isReply (p : MutexPacket) : Bool :=
  match p.msg with
  | .request _ _ => false
  | .reply _ => true

/-- `counted` are the replies since the last `request_cs`, with their senders, and
`answered` all replies sent, with sender, receiver and the request answered. -/
structure ReplyHistory where
  replies : List (MutexPacket × Nat)
  deferred : NodeId → List ((NodeId × Resource) × Nat)
  counted : NodeId → List (NodeId × Nat)
  answered : List (NodeId × NodeId × Nat)

structure TracedSystem where
  system : MutexSystem
  history : ReplyHistory

namespace ReplyHistory

def new : ReplyHistory := ⟨[], fun _ => [], fun _ => [], []⟩

def forward (h : ReplyHistory) (p q : MutexPacket) (ts : Nat) :
    Option ReplyHistory :=
  if (p, ts) ∈ h.replies then
    some { h with replies := h.replies.erase (p, ts) ++ [(q, ts)] }
  else none

def count (h : ReplyHistory) (p : MutexPacket) (ts : Nat) :
    Option ReplyHistory :=
  if (p, ts) ∈ h.replies then
    some { h with
      replies := h.replies.erase (p, ts)
      counted := Function.update h.counted p.receiver
        (h.counted p.receiver ++ [(p.sender, ts)]) }
  else none

def handleRequest (h : ReplyHistory) (s : MutexSystem) (p : MutexPacket)
    (resource : Resource) (reqTs : Nat) : ReplyHistory :=
  if (s.node p.receiver).mutex.sendsReply p.receiver p.sender resource reqTs then
    { h with
      replies := h.replies ++
        [(⟨p.receiver, p.sender, .reply resource, .outgoing⟩, reqTs)] }
  else
    { h with
      deferred := Function.update h.deferred p.receiver
        (h.deferred p.receiver ++ [((p.sender, resource), reqTs)]) }

def releaseCs (h : ReplyHistory) (i : NodeId) : ReplyHistory :=
  { h with
    replies := h.replies ++ (h.deferred i).map fun d =>
      (⟨i, d.1.1, .reply d.1.2, .outgoing⟩, d.2)
    deferred := Function.update h.deferred i []
    counted := Function.update h.counted i [] }

/-- What the step `a` from `s` adds; a reply taken is one to the request of time
`ts`. -/
def record (h : ReplyHistory) (s : MutexSystem) (a : MutexAction) (ts : Nat) :
    Option ReplyHistory :=
  match a with
  | .requestCs i _ => some { h with counted := Function.update h.counted i [] }
  | .sendReply p =>
      (h.forward p
        { p with stage := .sent (s.node p.sender).clock.increment.time } ts).map
        fun h => { h with answered := (p.sender, p.receiver, ts) :: h.answered }
  | .dispatch p =>
      if p.isReply then h.forward p { p with stage := .received } ts else some h
  | .handle p =>
      match p.msg with
      | .request resource reqTs => some (h.handleRequest s p resource reqTs)
      | .reply _ => h.count p ts
  | .releaseCs i => some (h.releaseCs i)
  | _ => some h

theorem answered_forward {h h' : ReplyHistory} {p q : MutexPacket} {ts : Nat}
    (hforward : h.forward p q ts = some h') : h'.answered = h.answered := by
  obtain ⟨-, heq⟩ := Option.ite_none_right_eq_some.mp hforward
  rw [← Option.some.inj heq]

end ReplyHistory

namespace TracedSystem

def new : TracedSystem := ⟨.new, .new⟩

def step (nodes : List NodeId) (t : TracedSystem) (a : MutexAction × Nat) :
    Option TracedSystem :=
  (t.system.step nodes a.1).bind fun system =>
    (t.history.record t.system a.1 a.2).map fun history => ⟨system, history⟩

/-- `request_cs` is called when none of the earlier requests of the node is on its
way, deferred or being answered. -/
def settled (nodes : List NodeId) (t : TracedSystem) :
    MutexAction × Nat → Bool
  | (.requestCs i _, _) => nodes.all fun j => t.system.underway i j = 0
  | _ => true

/-- A node that holds the critical section has been sent an answer to its request
by every other node, and no node has counted an answer to another request than its
last one. -/
structure Fresh (nodes : List NodeId) (t : TracedSystem) : Prop where
  answered : ∀ i, (t.system.node i).mutex.state = .held →
    ∀ j ∈ MutexSystem.others nodes i,
      (j, i, (t.system.node i).mutex.requestTs) ∈ t.history.answered
  counted : ∀ i, ∀ r ∈ t.history.counted i,
    r.2 = (t.system.node i).mutex.requestTs

/-! ## The history fits the system -/

def Matches (replies : List (MutexPacket × Nat)) (packets : List MutexPacket) :
    Prop :=
  ∀ x, (replies.countP fun r => r.1 = x) =
    if x.isReply then packets.count x else 0

section Matches

variable {replies : List (MutexPacket × Nat)} {packets : List MutexPacket}
  {p : MutexPacket}

theorem Matches.mem (h : Matches replies packets) {r : MutexPacket × Nat}
    (hr : r ∈ replies) : r.1.isReply = true ∧ r.1 ∈ packets := by
  have hpos : 0 < replies.countP fun x => x.1 = r.1 :=
    List.countP_pos_iff.mpr ⟨r, hr, by simp⟩
  rw [h] at hpos
  split at hpos
  · next hreply => exact ⟨hreply, List.count_pos_iff.mp hpos⟩
  · cases hpos

private theorem Matches.exists_past (h : Matches replies packets) (hp : p ∈ packets)
    (hreply : p.isReply = true) : ∃ ts, (p, ts) ∈ replies := by
  have hcount := h p
  rw [if_pos hreply] at hcount
  have hpos : 0 < replies.countP fun r => r.1 = p := by
    rw [hcount]
    exact List.count_pos_iff.mpr hp
  obtain ⟨⟨q, ts⟩, hmem, heq⟩ := List.countP_pos_iff.mp hpos
  simp only [decide_eq_true_eq] at heq
  exact ⟨ts, heq ▸ hmem⟩

theorem Matches.erase (h : Matches replies packets) {ts : Nat}
    (hp : (p, ts) ∈ replies) :
    Matches (replies.erase (p, ts)) (packets.erase p) := by
  intro x
  have hperm := (List.perm_cons_erase hp).countP_eq fun r => r.1 = x
  have hpackets := (List.perm_cons_erase (h.mem hp).2).count_eq x
  have hcount := h x
  simp only [List.countP_cons, List.count_cons, decide_eq_true_eq,
    beq_iff_eq] at hperm hpackets
  by_cases hx : x.isReply = true
  · rw [if_pos hx] at hcount ⊢
    omega
  · rw [if_neg hx] at hcount ⊢
    omega

theorem Matches.append (h : Matches replies packets)
    {more : List (MutexPacket × Nat)} (hmore : ∀ r ∈ more, r.1.isReply = true) :
    Matches (replies ++ more) (packets ++ more.map Prod.fst) := by
  intro x
  have hcount : (more.countP fun r => r.1 = x) = (more.map Prod.fst).count x := by
    rw [List.count, List.countP_map]
    rfl
  rw [List.countP_append, List.count_append, h x, hcount]
  split
  · rfl
  · next hx =>
    refine Nat.add_eq_zero_iff.mpr ⟨rfl, List.count_eq_zero.mpr fun hmem => ?_⟩
    obtain ⟨r, hr, rfl⟩ := List.mem_map.mp hmem
    exact hx (hmore r hr)

theorem Matches.append_request (h : Matches replies packets)
    (hp : p.isReply = false) : Matches replies (packets ++ [p]) := by
  intro x
  rw [h x, List.count_append, List.count_singleton]
  split
  · next hx =>
    have hne : ¬ p = x := by
      rintro rfl
      rw [hp] at hx
      cases hx
    simp [hne]
  · rfl

theorem Matches.erase_request (h : Matches replies packets)
    (hp : p.isReply = false) : Matches replies (packets.erase p) := by
  intro x
  rw [h x]
  split
  · next hx =>
    have hne : x ≠ p := by
      rintro rfl
      rw [hp] at hx
      cases hx
    rw [List.count_erase_of_ne hne]
  · rfl

end Matches

structure Consistent (t : TracedSystem) : Prop where
  replies : Matches t.history.replies t.system.packets
  deferred : ∀ j, (t.history.deferred j).map Prod.fst =
    (t.system.node j).mutex.deferred
  counted : ∀ i, (t.history.counted i).map Prod.fst = (t.system.node i).granted
  outgoing : ∀ p ∈ t.system.packets, p.stage = .outgoing → p.isReply = true

private theorem consistent_new : new.Consistent where
  replies x := by simp [new, ReplyHistory.new, MutexSystem.new]
  deferred _ := rfl
  counted _ := rfl
  outgoing p hp := by cases hp

/-! ## What is around is about the last request -/

structure Current (nodes : List NodeId) (t : TracedSystem) : Prop where
  node : ∀ i, (t.system.node i).Inv (MutexSystem.others nodes i).length
  tokens : ∀ i j, t.system.tokens i j ≤ (MutexSystem.others nodes i).count j
  requests : ∀ p ∈ t.system.packets, ∀ resource reqTs,
    p.msg = .request resource reqTs →
      reqTs = (t.system.node p.sender).mutex.requestTs
  replies : ∀ r ∈ t.history.replies,
    r.2 = (t.system.node r.1.receiver).mutex.requestTs ∧
      (r.1.stage ≠ .outgoing →
        (r.1.sender, r.1.receiver, r.2) ∈ t.history.answered)
  deferred : ∀ j, ∀ d ∈ t.history.deferred j,
    d.2 = (t.system.node d.1.1).mutex.requestTs
  counted : ∀ i, ∀ r ∈ t.history.counted i,
    r.2 = (t.system.node i).mutex.requestTs ∧
      (r.1, i, r.2) ∈ t.history.answered

theorem current_new (nodes : List NodeId) : (new).Current nodes where
  node i := by
    constructor <;> simp [new, MutexSystem.new, RicartAgrawala.new]
  tokens i j := by
    simp [new, MutexSystem.new, MutexSystem.tokens, MutexSystem.underway,
      RicartAgrawala.new, RicartAgrawala.defers, MutexNode.targets]
  requests p hp := by cases hp
  replies r hr := by cases hr
  deferred j d hd := by cases hd
  counted i r hr := by cases hr

section Current

variable {nodes : List NodeId} {t : TracedSystem} {i : NodeId} {x : MutexNode}
  {packets : List MutexPacket} {history : ReplyHistory}

theorem Current.update (h : t.Current nodes)
    (hx : x.Inv (MutexSystem.others nodes i).length)
    (hts : x.mutex.requestTs = (t.system.node i).mutex.requestTs)
    (htokens : ∀ k j, MutexSystem.tokens
      ⟨Function.update t.system.node i x, packets⟩ k j ≤ t.system.tokens k j)
    (hrequests : ∀ p ∈ packets, ∀ resource reqTs,
      p.msg = .request resource reqTs →
        reqTs = (t.system.node p.sender).mutex.requestTs)
    (hreplies : ∀ r ∈ history.replies,
      r.2 = (t.system.node r.1.receiver).mutex.requestTs ∧
        (r.1.stage ≠ .outgoing →
          (r.1.sender, r.1.receiver, r.2) ∈ history.answered))
    (hdeferred : ∀ j, ∀ d ∈ history.deferred j,
      d.2 = (t.system.node d.1.1).mutex.requestTs)
    (hcounted : ∀ k, ∀ r ∈ history.counted k,
      r.2 = (t.system.node k).mutex.requestTs ∧
        (r.1, k, r.2) ∈ history.answered) :
    Current nodes ⟨⟨Function.update t.system.node i x, packets⟩, history⟩ := by
  have hsame : ∀ k, (Function.update t.system.node i x k).mutex.requestTs =
      (t.system.node k).mutex.requestTs := by
    intro k
    by_cases hk : k = i
    · subst hk
      rw [Function.update_self, hts]
    · rw [Function.update_of_ne hk]
  refine ⟨fun k => ?_, fun k j => Nat.le_trans (htokens k j) (h.tokens k j),
    fun p hp resource reqTs hmsg => ?_, fun r hr => ?_, fun j d hd => ?_,
    fun k r hr => ?_⟩
  · by_cases hk : k = i
    · subst hk
      simpa using hx
    · simpa [hk] using h.node k
  · exact (hrequests p hp resource reqTs hmsg).trans (hsame _).symm
  · exact ⟨(hreplies r hr).1.trans (hsame _).symm, (hreplies r hr).2⟩
  · exact (hdeferred j d hd).trans (hsame _).symm
  · exact ⟨(hcounted k r hr).1.trans (hsame _).symm, (hcounted k r hr).2⟩

theorem Consistent.update (h : t.Consistent)
    (hreplies : Matches history.replies packets)
    (hdeferred : (history.deferred i).map Prod.fst = x.mutex.deferred)
    (hcounted : (history.counted i).map Prod.fst = x.granted)
    (hapart : ∀ j, j ≠ i → history.deferred j = t.history.deferred j ∧
      history.counted j = t.history.counted j)
    (houtgoing : ∀ p ∈ packets, p.stage = .outgoing → p.isReply = true) :
    Consistent ⟨⟨Function.update t.system.node i x, packets⟩, history⟩ := by
  refine ⟨hreplies, fun j => ?_, fun j => ?_, houtgoing⟩ <;> by_cases hj : j = i
  · subst hj
    simpa using hdeferred
  · simpa [hj, (hapart j hj).1] using h.deferred j
  · subst hj
    simpa using hcounted
  · simpa [hj, (hapart j hj).2] using h.counted j

end Current

/-! ## The steps -/

section Steps

variable {nodes : List NodeId} {t t' : TracedSystem} {i : NodeId}

theorem Consistent.requestCs (h : t.Consistent) (clock : LamportClock)
    (resource : Resource) (ts needed : Nat) (call : MutexCall) :
    Consistent ⟨t.system.setNode i ⟨clock,
        (t.system.node i).mutex.requestCs resource ts needed, some call, []⟩,
      { t.history with counted := Function.update t.history.counted i [] }⟩ := by
  refine h.update h.replies (h.deferred i) (by simp) (fun j hj => ⟨rfl, ?_⟩)
    h.outgoing
  exact Function.update_of_ne hj _ _

theorem Current.requestCs (h : t.Current nodes) (hc : t.Consistent)
    (hquiet : ∀ j ∈ nodes, t.system.underway i j = 0)
    (hcall : (t.system.node i).call = none) (resource : Resource) :
    Current nodes ⟨t.system.setNode i
        { clock := (t.system.node i).clock.increment
          mutex := (t.system.node i).mutex.requestCs resource
            (t.system.node i).clock.increment.time
            (MutexSystem.others nodes i).length
          call := some ⟨resource, MutexSystem.others nodes i⟩
          granted := [] },
      { t.history with counted := Function.update t.history.counted i [] }⟩ := by
  have hzero : ∀ j, t.system.underway i j = 0 := by
    intro j
    by_cases hj : j ∈ nodes
    · exact hquiet j hj
    · have hle := h.tokens i j
      have hnone : (MutexSystem.others nodes i).count j = 0 :=
        List.count_eq_zero.mpr fun hmem => hj (List.mem_filter.mp hmem).1
      unfold MutexSystem.tokens at hle
      omega
  have hgone : ∀ p ∈ t.system.packets, p.asker ≠ i := by
    rintro p hp rfl
    have hpos := MutexSystem.underway_pos_of_packet hp
    rw [hzero] at hpos
    cases hpos
  have hother : ∀ (m : MutexNode) k, k ≠ i →
      ((t.system.setNode i m).node k).mutex.requestTs =
        (t.system.node k).mutex.requestTs := by
    intro m k hk
    simp [MutexSystem.setNode, hk]
  refine ⟨fun k => ?_, fun k j => ?_, fun p hp resource' reqTs hmsg => ?_,
    fun r hr => ?_, fun j d hd => ?_, fun k r hr => ?_⟩
  · by_cases hk : k = i
    · subst hk
      simpa [MutexSystem.setNode] using MutexNode.inv_requestCs resource
        (MutexSystem.others nodes k) (t.system.node k).clock.increment
        (t.system.node k).mutex
    · simpa [MutexSystem.setNode, hk] using h.node k
  · refine Nat.le_trans
      (Nat.le_of_eq (MutexSystem.tokens_requestCs hcall _ _ k j)) ?_
    split
    · next hk =>
      rw [hk, hzero]
      exact Nat.le_refl _
    · exact h.tokens k j
  · have hasker := hgone p hp
    rw [MutexPacket.asker, hmsg] at hasker
    exact (h.requests p hp resource' reqTs hmsg).trans (hother _ _ hasker).symm
  · obtain ⟨hreply, hmem⟩ := hc.replies.mem hr
    have hreceiver : r.1.receiver ≠ i := by
      have hasker := hgone r.1 hmem
      cases hmsg : r.1.msg with
      | request resource' reqTs => simp [MutexPacket.isReply, hmsg] at hreply
      | reply resource' => simpa [MutexPacket.asker, hmsg] using hasker
    exact ⟨(h.replies r hr).1.trans (hother _ _ hreceiver).symm,
      (h.replies r hr).2⟩
  · have hasker : d.1.1 ≠ i := by
      intro heq
      have hmem : d.1 ∈ (t.system.node j).mutex.deferred := by
        rw [← hc.deferred j]
        exact List.mem_map_of_mem hd
      have hpos := MutexSystem.underway_pos_of_deferred hmem
      rw [heq, hzero] at hpos
      cases hpos
    exact (h.deferred j d hd).trans (hother _ _ hasker).symm
  · by_cases hk : k = i
    · subst hk
      simp at hr
    · simp only [Function.update_of_ne hk] at hr
      exact ⟨(h.counted k r hr).1.trans (hother _ _ hk).symm,
        (h.counted k r hr).2⟩

theorem Consistent.sendRequest (h : t.Consistent) {target : NodeId}
    {rest : List NodeId} {resource : Resource} (clock : LamportClock)
    (requestTs timestamp : Nat) :
    Consistent ⟨⟨Function.update t.system.node i
      { t.system.node i with clock := clock, call := some ⟨resource, rest⟩ },
      t.system.packets ++ [⟨i, target, .request resource requestTs,
        .sent timestamp⟩]⟩, t.history⟩ := by
  refine h.update (h.replies.append_request rfl) (h.deferred i) (h.counted i)
    (fun j _ => ⟨rfl, rfl⟩) fun p hp hstage => ?_
  rcases List.mem_append.mp hp with hp | hp
  · exact h.outgoing p hp hstage
  · cases List.mem_singleton.mp hp
    cases hstage

theorem Current.sendRequest (h : t.Current nodes) {target : NodeId}
    {rest : List NodeId} {resource : Resource}
    (hcall : (t.system.node i).call = some ⟨resource, target :: rest⟩) :
    Current nodes ⟨⟨Function.update t.system.node i
      { t.system.node i with
        clock := (t.system.node i).clock.increment
        call := some ⟨resource, rest⟩ },
      t.system.packets ++ [⟨i, target,
        .request resource (t.system.node i).mutex.requestTs,
        .sent (t.system.node i).clock.increment.time⟩]⟩, t.history⟩ := by
  refine h.update ((h.node i).sent hcall (Nat.le_succ _)) rfl
    (fun k j => Nat.le_of_eq (MutexSystem.tokens_sendRequest hcall k j))
    (fun p hp resource' reqTs hmsg => ?_) h.replies h.deferred h.counted
  rcases List.mem_append.mp hp with hp | hp
  · exact h.requests p hp resource' reqTs hmsg
  · cases List.mem_singleton.mp hp
    cases hmsg
    rfl

theorem Consistent.forward (h : t.Consistent) {p : MutexPacket} {stage : Stage}
    {ts : Nat} {history : ReplyHistory} (clock : LamportClock)
    (hforward : t.history.forward p { p with stage := stage } ts = some history)
    (answered : List (NodeId × NodeId × Nat)) :
    Consistent ⟨⟨Function.update t.system.node i
      { t.system.node i with clock := clock },
      t.system.packets.erase p ++ [{ p with stage := stage }]⟩,
      { history with answered := answered }⟩ := by
  obtain ⟨hmem, heq⟩ := Option.ite_none_right_eq_some.mp hforward
  obtain rfl := Option.some.inj heq
  have hreply := (h.replies.mem hmem).1
  have hmore : ∀ r ∈ [({ p with stage := stage }, ts)],
      r.1.isReply = true := by
    intro r hr
    cases List.mem_singleton.mp hr
    exact hreply
  have hmatches := (h.replies.erase hmem).append hmore
  refine h.update hmatches (h.deferred i) (h.counted i) (fun j _ => ⟨rfl, rfl⟩)
    fun q hq hstage => ?_
  rcases List.mem_append.mp hq with hq | hq
  · exact h.outgoing q (List.mem_of_mem_erase hq) hstage
  · cases List.mem_singleton.mp hq
    exact hreply

theorem Current.forward (h : t.Current nodes) (hc : t.Consistent)
    {p : MutexPacket} {stage : Stage} {ts : Nat} {history : ReplyHistory}
    {clock : LamportClock} {answered : List (NodeId × NodeId × Nat)}
    (hforward : t.history.forward p { p with stage := stage } ts = some history)
    (hclock : (t.system.node i).clock.time ≤ clock.time)
    (hgrows : t.history.answered ⊆ answered)
    (hanswered : stage ≠ .outgoing → (p.sender, p.receiver, ts) ∈ answered) :
    Current nodes ⟨⟨Function.update t.system.node i
      { t.system.node i with clock := clock },
      t.system.packets.erase p ++ [{ p with stage := stage }]⟩,
      { history with answered := answered }⟩ := by
  obtain ⟨hmem, heq⟩ := Option.ite_none_right_eq_some.mp hforward
  obtain rfl := Option.some.inj heq
  obtain ⟨hreply, hp⟩ := hc.replies.mem hmem
  refine h.update ((h.node i).clocked hclock) rfl
    (fun k j => Nat.le_of_eq (MutexSystem.tokens_forward hp k j))
    (fun q hq resource reqTs hmsg => ?_) (fun r hr => ?_) h.deferred
    fun k r hr => ⟨(h.counted k r hr).1, hgrows (h.counted k r hr).2⟩
  · rcases List.mem_append.mp hq with hq | hq
    · exact h.requests q (List.mem_of_mem_erase hq) resource reqTs hmsg
    · cases List.mem_singleton.mp hq
      simp only at hmsg
      simp [MutexPacket.isReply, hmsg] at hreply
  · rcases List.mem_append.mp hr with hr | hr
    · have hold := h.replies r (List.mem_of_mem_erase hr)
      exact ⟨hold.1, fun hstage => hgrows (hold.2 hstage)⟩
    · cases List.mem_singleton.mp hr
      exact ⟨(h.replies _ hmem).1, hanswered⟩

theorem Consistent.dispatch (h : t.Consistent) {p : MutexPacket}
    (hreply : p.isReply = false) (clock : LamportClock) :
    Consistent ⟨⟨Function.update t.system.node i
      { t.system.node i with clock := clock },
      t.system.packets.erase p ++ [{ p with stage := .received }]⟩,
      t.history⟩ := by
  refine h.update ((h.replies.erase_request hreply).append_request hreply)
    (h.deferred i) (h.counted i) (fun j _ => ⟨rfl, rfl⟩) fun q hq hstage => ?_
  rcases List.mem_append.mp hq with hq | hq
  · exact h.outgoing q (List.mem_of_mem_erase hq) hstage
  · cases List.mem_singleton.mp hq
    cases hstage

theorem Current.dispatch (h : t.Current nodes) {p : MutexPacket}
    (hp : p ∈ t.system.packets) {clock : LamportClock}
    (hclock : (t.system.node i).clock.time ≤ clock.time) :
    Current nodes ⟨⟨Function.update t.system.node i
      { t.system.node i with clock := clock },
      t.system.packets.erase p ++ [{ p with stage := .received }]⟩,
      t.history⟩ := by
  refine h.update ((h.node i).clocked hclock) rfl
    (fun k j => Nat.le_of_eq (MutexSystem.tokens_forward hp k j))
    (fun q hq resource reqTs hmsg => ?_) h.replies h.deferred h.counted
  rcases List.mem_append.mp hq with hq | hq
  · exact h.requests q (List.mem_of_mem_erase hq) resource reqTs hmsg
  · cases List.mem_singleton.mp hq
    exact h.requests p hp resource reqTs hmsg

theorem Consistent.handleRequest (h : t.Consistent) {p : MutexPacket}
    {resource : Resource} {reqTs : Nat} (hreply : p.isReply = false) :
    Consistent ⟨t.system.handleRequest p resource reqTs,
      t.history.handleRequest t.system p resource reqTs⟩ := by
  have herase := h.replies.erase_request hreply
  unfold MutexSystem.handleRequest ReplyHistory.handleRequest
  dsimp only
  split
  · have hmore : ∀ r ∈ [((⟨p.receiver, p.sender, .reply resource, .outgoing⟩ :
        MutexPacket), reqTs)], r.1.isReply = true := by
      simp [MutexPacket.isReply]
    have hmatches := herase.append hmore
    refine ⟨hmatches, h.deferred, h.counted, fun q hq hstage => ?_⟩
    rcases List.mem_append.mp hq with hq | hq
    · exact h.outgoing q (List.mem_of_mem_erase hq) hstage
    · cases List.mem_singleton.mp hq
      rfl
  · refine h.update herase ?_ (h.counted _) (fun j hj => ⟨?_, rfl⟩)
      fun q hq hstage => h.outgoing q (List.mem_of_mem_erase hq) hstage
    · simp only [Function.update_self, List.map_append, h.deferred]
      rfl
    · exact Function.update_of_ne hj _ _

theorem Current.handleRequest (h : t.Current nodes) {p : MutexPacket}
    {resource : Resource} {reqTs : Nat} (hp : p ∈ t.system.packets)
    (hmsg : p.msg = .request resource reqTs) :
    Current nodes ⟨t.system.handleRequest p resource reqTs,
      t.history.handleRequest t.system p resource reqTs⟩ := by
  have htokens := MutexSystem.tokens_handleRequest hp hmsg
  have hcurrent := h.requests p hp resource reqTs hmsg
  unfold MutexSystem.handleRequest at htokens ⊢
  unfold ReplyHistory.handleRequest
  dsimp only at htokens ⊢
  split at htokens
  · next hsends =>
    rw [if_pos hsends, if_pos hsends]
    refine ⟨h.node, fun k j => ?_, fun q hq resource' reqTs' hmsg' => ?_,
      fun r hr => ?_, h.deferred, h.counted⟩
    · rw [htokens k j]
      exact h.tokens k j
    · rcases List.mem_append.mp hq with hq | hq
      · exact h.requests q (List.mem_of_mem_erase hq) resource' reqTs' hmsg'
      · cases List.mem_singleton.mp hq
        cases hmsg'
    · rcases List.mem_append.mp hr with hr | hr
      · exact h.replies r hr
      · cases List.mem_singleton.mp hr
        exact ⟨hcurrent, fun hstage => absurd rfl hstage⟩
  · next hdefers =>
    rw [if_neg hdefers, if_neg hdefers]
    refine h.update ((h.node p.receiver).defer _ _) rfl
      (fun k j => Nat.le_of_eq (htokens k j))
      (fun q hq => h.requests q (List.mem_of_mem_erase hq)) h.replies
      (fun j d hd => ?_) h.counted
    by_cases hj : j = p.receiver
    · subst hj
      simp only [Function.update_self] at hd
      rcases List.mem_append.mp hd with hd | hd
      · exact h.deferred _ d hd
      · cases List.mem_singleton.mp hd
        exact hcurrent
    · simp only [Function.update_of_ne hj] at hd
      exact h.deferred j d hd

theorem Consistent.handleReply (h : t.Consistent) {p : MutexPacket} {ts : Nat}
    {history : ReplyHistory} (hcount : t.history.count p ts = some history) :
    Consistent ⟨t.system.handleReply p, history⟩ := by
  obtain ⟨hmem, heq⟩ := Option.ite_none_right_eq_some.mp hcount
  obtain rfl := Option.some.inj heq
  refine h.update (h.replies.erase hmem) (h.deferred _) ?_
    (fun j hj => ⟨rfl, ?_⟩)
    fun q hq hstage => h.outgoing q (List.mem_of_mem_erase hq) hstage
  · simp [h.counted]
  · exact Function.update_of_ne hj _ _

theorem Current.handleReply (h : t.Current nodes) (hc : t.Consistent)
    {p : MutexPacket} {resource : Resource} {ts : Nat} {history : ReplyHistory}
    (hstage : p.stage = .received) (hmsg : p.msg = .reply resource)
    (hcount : t.history.count p ts = some history) :
    Current nodes ⟨t.system.handleReply p, history⟩ := by
  obtain ⟨hmem, heq⟩ := Option.ite_none_right_eq_some.mp hcount
  obtain rfl := Option.some.inj heq
  have hp := (hc.replies.mem hmem).2
  obtain ⟨hcurrent, hanswered⟩ := h.replies _ hmem
  refine h.update ((h.node p.receiver).handleReply p.sender) rfl
    (fun k j => Nat.le_of_eq (MutexSystem.tokens_handleReply hp hmsg k j))
    (fun q hq => h.requests q (List.mem_of_mem_erase hq))
    (fun r hr => h.replies r (List.mem_of_mem_erase hr)) h.deferred
    fun k r hr => ?_
  by_cases hk : k = p.receiver
  · subst hk
    simp only [Function.update_self] at hr
    rcases List.mem_append.mp hr with hr | hr
    · exact h.counted _ r hr
    · cases List.mem_singleton.mp hr
      exact ⟨hcurrent, hanswered (by simp [hstage])⟩
  · simp only [Function.update_of_ne hk] at hr
    exact h.counted k r hr

theorem Consistent.returns (h : t.Consistent) (state : MutexState) :
    Consistent ⟨t.system.setNode i { t.system.node i with
      mutex := { (t.system.node i).mutex with state := state }, call := none },
      t.history⟩ :=
  h.update h.replies (h.deferred i) (h.counted i) (fun _ _ => ⟨rfl, rfl⟩)
    h.outgoing

theorem Current.returns (h : t.Current nodes) {resource : Resource}
    (hcall : (t.system.node i).call = some ⟨resource, []⟩) (state : MutexState)
    (hnode : MutexNode.Inv (MutexSystem.others nodes i).length
      { t.system.node i with
        mutex := { (t.system.node i).mutex with state := state }
        call := none }) :
    Current nodes ⟨t.system.setNode i { t.system.node i with
      mutex := { (t.system.node i).mutex with state := state }, call := none },
      t.history⟩ :=
  h.update hnode rfl
    (fun k j => Nat.le_of_eq (MutexSystem.tokens_wake hcall
      { (t.system.node i).mutex with state := state } rfl k j))
    h.requests h.replies h.deferred h.counted

theorem Consistent.releaseCs (h : t.Consistent) :
    Consistent ⟨⟨Function.update t.system.node i
        { t.system.node i with
          mutex := (t.system.node i).mutex.releaseCs, granted := [] },
      t.system.packets ++ (t.system.node i).mutex.deferred.map fun d =>
        ⟨i, d.1, .reply d.2, .outgoing⟩⟩, t.history.releaseCs i⟩ := by
  set more : List (MutexPacket × Nat) := (t.history.deferred i).map fun d =>
    (⟨i, d.1.1, .reply d.1.2, .outgoing⟩, d.2) with hmore
  have hreply : ∀ r ∈ more, r.1.isReply = true := by
    intro r hr
    obtain ⟨d, -, rfl⟩ := List.mem_map.mp hr
    rfl
  have hmatches := h.replies.append hreply
  have hpackets : more.map Prod.fst = (t.system.node i).mutex.deferred.map
      fun d => (⟨i, d.1, .reply d.2, .outgoing⟩ : MutexPacket) := by
    rw [← h.deferred i, hmore, List.map_map, List.map_map]
    rfl
  rw [hpackets] at hmatches
  refine h.update hmatches (by simp [ReplyHistory.releaseCs,
    RicartAgrawala.releaseCs]) (by simp [ReplyHistory.releaseCs])
    (fun j hj => ⟨Function.update_of_ne hj _ _, Function.update_of_ne hj _ _⟩)
    fun q hq hstage => ?_
  rcases List.mem_append.mp hq with hq | hq
  · exact h.outgoing q hq hstage
  · obtain ⟨d, -, rfl⟩ := List.mem_map.mp hq
    rfl

theorem Current.releaseCs (h : t.Current nodes)
    (hcall : (t.system.node i).call = none) :
    Current nodes ⟨⟨Function.update t.system.node i
        { t.system.node i with
          mutex := (t.system.node i).mutex.releaseCs, granted := [] },
      t.system.packets ++ (t.system.node i).mutex.deferred.map fun d =>
        ⟨i, d.1, .reply d.2, .outgoing⟩⟩, t.history.releaseCs i⟩ := by
  refine h.update (MutexNode.inv_releaseCs hcall) rfl (fun k j => ?_)
    (fun q hq resource reqTs hmsg => ?_) (fun r hr => ?_) (fun j d hd => ?_)
    fun k r hr => ?_
  · rw [MutexSystem.tokens_releaseCs hcall]
    split
    · next hk =>
      rw [hk]
      exact Nat.le_add_right _ _
    · exact Nat.le_refl _
  · rcases List.mem_append.mp hq with hq | hq
    · exact h.requests q hq resource reqTs hmsg
    · obtain ⟨d, -, rfl⟩ := List.mem_map.mp hq
      cases hmsg
  · rcases List.mem_append.mp hr with hr | hr
    · exact h.replies r hr
    · obtain ⟨d, hd, rfl⟩ := List.mem_map.mp hr
      exact ⟨h.deferred i d hd, fun hstage => absurd rfl hstage⟩
  · by_cases hj : j = i
    · subst hj
      simp [ReplyHistory.releaseCs] at hd
    · simp only [ReplyHistory.releaseCs, Function.update_of_ne hj] at hd
      exact h.deferred j d hd
  · by_cases hk : k = i
    · subst hk
      simp [ReplyHistory.releaseCs] at hr
    · simp only [ReplyHistory.releaseCs, Function.update_of_ne hk] at hr
      exact h.counted k r hr

theorem Consistent.tick (h : t.Consistent) (clock : LamportClock) :
    Consistent ⟨t.system.setNode i { t.system.node i with clock := clock },
      t.history⟩ :=
  h.update h.replies (h.deferred i) (h.counted i) (fun _ _ => ⟨rfl, rfl⟩)
    h.outgoing

theorem Current.tick (h : t.Current nodes) {clock : LamportClock}
    (hclock : (t.system.node i).clock.time ≤ clock.time) :
    Current nodes
      ⟨t.system.setNode i { t.system.node i with clock := clock }, t.history⟩ :=
  h.update ((h.node i).clocked hclock) rfl
    (fun k j => Nat.le_of_eq (MutexSystem.tokens_tick i clock k j))
    h.requests h.replies h.deferred h.counted

theorem step_keeps {a : MutexAction × Nat} (hc : t.Consistent)
    (hstep : t.step nodes a = some t') :
    t'.Consistent ∧
      (t.Current nodes → t.settled nodes a = true → t'.Current nodes) := by
  obtain ⟨a, ts⟩ := a
  obtain ⟨system, hsystem, hrest⟩ := Option.bind_eq_some_iff.mp hstep
  obtain ⟨history, hhistory, rfl⟩ := Option.map_eq_some_iff.mp hrest
  cases a with
  | requestCs i resource =>
      obtain ⟨⟨-, hcall⟩, heq⟩ := Option.ite_none_right_eq_some.mp hsystem
      obtain rfl := Option.some.inj heq
      obtain rfl := Option.some.inj hhistory
      refine ⟨hc.requestCs _ _ _ _ _, fun h hsettled => ?_⟩
      have hquiet : ∀ j ∈ nodes, t.system.underway i j = 0 := by
        simpa [settled] using hsettled
      exact h.requestCs hc hquiet (Option.isNone_iff_eq_none.mp hcall) resource
  | sendRequest i =>
      obtain rfl := Option.some.inj hhistory
      simp only [MutexSystem.step] at hsystem
      split at hsystem
      · next resource target rest hcall =>
        obtain rfl := Option.some.inj hsystem
        exact ⟨hc.sendRequest _ _ _, fun h _ => h.sendRequest hcall⟩
      · cases hsystem
  | sendReply p =>
      obtain ⟨-, heq⟩ := Option.ite_none_right_eq_some.mp hsystem
      obtain rfl := Option.some.inj heq
      obtain ⟨history, hforward, rfl⟩ := Option.map_eq_some_iff.mp hhistory
      have hsame := ReplyHistory.answered_forward hforward
      refine ⟨hc.forward _ hforward _, fun h _ => ?_⟩
      refine h.forward hc hforward (Nat.le_succ _) ?_ fun _ => List.mem_cons_self
      rw [hsame]
      exact List.subset_cons_self _ _
  | dispatch p =>
      simp only [MutexSystem.step] at hsystem
      split at hsystem
      · next timestamp hstage =>
        obtain ⟨hp, heq⟩ := Option.ite_none_right_eq_some.mp hsystem
        obtain rfl := Option.some.inj heq
        have hclock := LamportClock.le_update
          (t.system.node p.receiver).clock timestamp
        simp only [ReplyHistory.record] at hhistory
        split at hhistory
        · have hsame := ReplyHistory.answered_forward hhistory
          refine ⟨hc.forward _ hhistory history.answered, fun h _ => ?_⟩
          refine h.forward hc hhistory hclock
            (by rw [hsame]; exact List.Subset.refl _) fun _ => ?_
          -- The reply has been sent, and so it is among the answers.
          obtain ⟨hmem, -⟩ := Option.ite_none_right_eq_some.mp hhistory
          rw [hsame]
          exact (h.replies _ hmem).2 (by simp [hstage])
        · next hreply =>
          obtain rfl := Option.some.inj hhistory
          exact ⟨hc.dispatch (Bool.eq_false_iff.mpr hreply) _,
            fun h _ => h.dispatch hp hclock⟩
      · cases hsystem
  | handle p =>
      obtain ⟨⟨hp, hstage⟩, heq⟩ := Option.ite_none_right_eq_some.mp hsystem
      simp only [ReplyHistory.record] at hhistory
      cases hmsg : p.msg with
      | request resource reqTs =>
          simp only [hmsg] at heq hhistory
          obtain rfl := Option.some.inj heq
          obtain rfl := Option.some.inj hhistory
          exact ⟨hc.handleRequest (by simp [MutexPacket.isReply, hmsg]),
            fun h _ => h.handleRequest hp hmsg⟩
      | reply resource =>
          simp only [hmsg] at heq hhistory
          obtain rfl := Option.some.inj heq
          exact ⟨hc.handleReply hhistory,
            fun h _ => h.handleReply hc hstage hmsg hhistory⟩
  | wake i =>
      obtain rfl := Option.some.inj hhistory
      obtain ⟨hevent, heq⟩ := Option.ite_none_right_eq_some.mp hsystem
      dsimp only at heq
      split at heq
      · next resource hcall =>
        obtain rfl := Option.some.inj heq
        exact ⟨hc.returns _, fun h _ =>
          h.returns hcall _ ((h.node i).wake hcall hevent)⟩
      · cases heq
  | timeout i =>
      obtain rfl := Option.some.inj hhistory
      simp only [MutexSystem.step] at hsystem
      split at hsystem
      · next resource hcall =>
        obtain rfl := Option.some.inj hsystem
        refine ⟨hc.returns (t.system.node i).mutex.state, fun h _ => ?_⟩
        have hn := h.node i
        exact h.returns hcall (t.system.node i).mutex.state
          ⟨hn.stamped, hn.counted, hn.signalled, hn.held, by simp⟩
      · cases hsystem
  | releaseCs i =>
      obtain ⟨hcall, heq⟩ := Option.ite_none_right_eq_some.mp hsystem
      obtain rfl := Option.some.inj heq
      obtain rfl := Option.some.inj hhistory
      exact ⟨hc.releaseCs, fun h _ =>
        h.releaseCs (Option.isNone_iff_eq_none.mp hcall)⟩
  | tick i receivedTime =>
      obtain rfl := Option.some.inj hhistory
      obtain rfl := Option.some.inj hsystem
      exact ⟨hc.tick _, fun h _ => h.tick (LamportClock.le_update _ _)⟩

theorem Consistent.exists_step (hc : t.Consistent) {a : MutexAction}
    {s : MutexSystem} (hstep : t.system.step nodes a = some s) :
    ∃ ts t', t.step nodes (a, ts) = some t' ∧ t'.system = s := by
  suffices hrecord : ∃ ts history,
      t.history.record t.system a ts = some history by
    obtain ⟨ts, history, hrecord⟩ := hrecord
    refine ⟨ts, ⟨s, history⟩, ?_, rfl⟩
    simp only [step, hstep, Option.bind_some, hrecord, Option.map_some]
  have hforward : ∀ p ∈ t.system.packets, p.isReply = true → ∃ ts,
      (p, ts) ∈ t.history.replies := fun p hp hreply =>
    hc.replies.exists_past hp hreply
  cases a with
  | sendReply p =>
      obtain ⟨⟨hp, hstage⟩, -⟩ := Option.ite_none_right_eq_some.mp hstep
      obtain ⟨ts, hmem⟩ := hforward p hp (hc.outgoing p hp hstage)
      exact ⟨ts, _, by
        simp [ReplyHistory.record, ReplyHistory.forward, hmem]; rfl⟩
  | dispatch p =>
      simp only [MutexSystem.step] at hstep
      split at hstep
      · obtain ⟨hp, -⟩ := Option.ite_none_right_eq_some.mp hstep
        by_cases hreply : p.isReply = true
        · obtain ⟨ts, hmem⟩ := hforward p hp hreply
          exact ⟨ts, _, by
            simp [ReplyHistory.record, ReplyHistory.forward, hmem, hreply]; rfl⟩
        · exact ⟨0, _, by simp [ReplyHistory.record, hreply]; rfl⟩
      · cases hstep
  | handle p =>
      obtain ⟨⟨hp, -⟩, -⟩ := Option.ite_none_right_eq_some.mp hstep
      cases hmsg : p.msg with
      | request resource reqTs =>
          exact ⟨0, _, by simp [ReplyHistory.record, hmsg]; rfl⟩
      | reply resource =>
          obtain ⟨ts, hmem⟩ := hforward p hp (by simp [MutexPacket.isReply, hmsg])
          exact ⟨ts, _, by
            simp [ReplyHistory.record, ReplyHistory.count, hmsg, hmem]; rfl⟩
  | requestCs i resource => exact ⟨0, _, rfl⟩
  | sendRequest i => exact ⟨0, _, rfl⟩
  | wake i => exact ⟨0, _, rfl⟩
  | timeout i => exact ⟨0, _, rfl⟩
  | releaseCs i => exact ⟨0, _, rfl⟩
  | tick i receivedTime => exact ⟨0, _, rfl⟩

/-- A traced run is a run of the system. -/
theorem run_system {actions : List (MutexAction × Nat)}
    (hrun : run (step nodes) t actions = some t') :
    run (MutexSystem.step nodes) t.system (actions.map Prod.fst) =
      some t'.system := by
  induction actions generalizing t with
  | nil =>
      cases hrun
      rfl
  | cons a rest ih =>
      obtain ⟨t₁, hstep, hrest⟩ := run_cons.mp hrun
      obtain ⟨system, hsystem, hhistory⟩ := Option.bind_eq_some_iff.mp hstep
      obtain ⟨history, -, rfl⟩ := Option.map_eq_some_iff.mp hhistory
      exact run_cons.mpr ⟨system, hsystem, ih hrest⟩

theorem exists_traced {actions : List MutexAction} {s : MutexSystem}
    (hc : t.Consistent)
    (hrun : run (MutexSystem.step nodes) t.system actions = some s) :
    ∃ traced t', traced.map Prod.fst = actions ∧
      run (step nodes) t traced = some t' ∧ t'.system = s := by
  induction actions generalizing t with
  | nil =>
      cases hrun
      exact ⟨[], t, rfl, rfl, rfl⟩
  | cons a rest ih =>
      obtain ⟨s₁, hstep, hrest⟩ := run_cons.mp hrun
      obtain ⟨ts, t₁, hstep', rfl⟩ := hc.exists_step hstep
      obtain ⟨traced, t', hmap, hrun', hsystem⟩ :=
        ih (step_keeps hc hstep').1 hrest
      exact ⟨(a, ts) :: traced, t', by rw [List.map_cons, hmap],
        run_cons.mpr ⟨t₁, hstep', hrun'⟩, hsystem⟩

theorem Current.fresh (h : t.Current nodes) (hc : t.Consistent) :
    t.Fresh nodes := by
  refine ⟨fun i hheld j hj => ?_, fun i r hr => (h.counted i r hr).1⟩
  have hn := h.node i
  have hsub : (t.system.node i).granted.Subperm (MutexSystem.others nodes i) := by
    refine List.subperm_ext_iff.mpr fun k _ => ?_
    have hle := h.tokens i k
    unfold MutexSystem.tokens at hle
    omega
  have hgranted := MutexSystem.mem_granted_of_event hn hsub (by simp [hheld])
    (hn.held hheld) hj
  rw [← hc.counted i] at hgranted
  obtain ⟨r, hr, rfl⟩ := List.mem_map.mp hgranted
  obtain ⟨hts, hanswered⟩ := h.counted i r hr
  rwa [hts] at hanswered

end Steps

/--
In a run whose calls of `request_cs` find nothing around of the node's earlier
requests, a node that enters has been sent an answer to that very request by every
other node, and has counted no answer to an earlier one.
-/
theorem run_freshReplies (nodes : List NodeId)
    (actions : List (MutexAction × Nat)) (t : TracedSystem)
    (hrun : run (step nodes) new actions = some t)
    (hok : Along (step nodes) (fun t a => t.settled nodes a = true) new
      actions) : t.Fresh nodes := by
  have hkept : t.Consistent ∧ t.Current nodes :=
    run_invariant (I := fun t => t.Consistent ∧ t.Current nodes)
      (fun t a t' h hok hstep => ⟨(step_keeps h.1 hstep).1,
        (step_keeps h.1 hstep).2 h.2 hok⟩)
      ⟨consistent_new, current_new nodes⟩ hok hrun
  exact hkept.2.fresh hkept.1

def lateAnswer : List (MutexAction × Nat) :=
  [(.dispatch ⟨1, 2, .request "x" 1, .sent 2⟩, 0),
    (.handle ⟨1, 2, .request "x" 1, .received⟩, 0),
    (.sendReply ⟨2, 1, .reply "x", .outgoing⟩, 1),
    (.dispatch ⟨2, 1, .reply "x", .sent 4⟩, 1),
    (.handle ⟨2, 1, .reply "x", .received⟩, 1)]

/-- It asks again after that, and enters with the second answer. -/
def asksAfterwards : List (MutexAction × Nat) :=
  [(.requestCs 1 "x", 0), (.sendRequest 1, 0), (.timeout 1, 0)] ++ lateAnswer ++
    [(.requestCs 1 "x", 0), (.sendRequest 1, 0),
      (.dispatch ⟨1, 2, .request "x" 6, .sent 7⟩, 0),
      (.handle ⟨1, 2, .request "x" 6, .received⟩, 0),
      (.sendReply ⟨2, 1, .reply "x", .outgoing⟩, 6),
      (.dispatch ⟨2, 1, .reply "x", .sent 9⟩, 6),
      (.handle ⟨2, 1, .reply "x", .received⟩, 6), (.wake 1, 0)]

theorem asksAfterwards_freshReplies :
    ∃ t, run (step [1, 2]) new asksAfterwards = some t ∧
      (t.system.node 1).mutex.state = .held ∧ t.Fresh [1, 2] := by
  have hview : (run (step [1, 2]) new asksAfterwards).any
      (fun t => decide ((t.system.node 1).mutex.state = .held)) = true := by
    decide +kernel
  obtain ⟨t, hrun, hheld⟩ := (Option.any_eq_true _ _).mp hview
  have hok : Along (step [1, 2]) (fun t a => t.settled [1, 2] a = true) new
      asksAfterwards := by
    decide +kernel
  exact ⟨t, hrun, of_decide_eq_true hheld,
    run_freshReplies [1, 2] asksAfterwards t hrun hok⟩

/-- It asks again before that, and enters with the answer to its first request. -/
def asksTooSoon : List (MutexAction × Nat) :=
  [(.requestCs 1 "x", 0), (.sendRequest 1, 0), (.timeout 1, 0),
    (.requestCs 1 "x", 0), (.sendRequest 1, 0)] ++ lateAnswer ++ [(.wake 1, 0)]

/-- Node 2 has answered the request of time 1 only, and node 1 is inside with that
of time 3. -/
theorem asksTooSoon_not_fresh :
    ∃ t, run (step [1, 2]) new asksTooSoon = some t ∧
      (t.system.node 1).mutex.state = .held ∧
      (t.system.node 1).mutex.requestTs = 3 ∧
      t.history.answered = [(2, 1, 1)] ∧ t.history.counted 1 = [(2, 1)] ∧
      ¬ t.Fresh [1, 2] := by
  have hview : (run (step [1, 2]) new asksTooSoon).any (fun t =>
      decide ((t.system.node 1).mutex.state = .held ∧
        (t.system.node 1).mutex.requestTs = 3 ∧
        t.history.answered = [(2, 1, 1)] ∧
        t.history.counted 1 = [(2, 1)])) = true := by
    decide +kernel
  obtain ⟨t, hrun, hall⟩ := (Option.any_eq_true _ _).mp hview
  obtain ⟨hheld, hts, hanswered, hcounted⟩ := of_decide_eq_true hall
  refine ⟨t, hrun, hheld, hts, hanswered, hcounted, fun hfresh => ?_⟩
  have hmem := hfresh.answered 1 hheld 2 (by decide)
  rw [hts, hanswered] at hmem
  exact absurd hmem (by decide)

end TracedSystem

end DistributedMemory.Mutex
