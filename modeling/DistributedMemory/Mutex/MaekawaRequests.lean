import DistributedMemory.Mutex.MaekawaVoter

/-!
# The requests of Maekawa's algorithm

The tasks of a link stay in their order.  A request that is around, on its way, in a
queue or voted for, carries the timestamp of its requester; only a vote whose release
is on the way may be for an earlier request.
-/

namespace DistributedMemory.Mutex

open DistributedMemory.Library DistributedMemory.Network

/-! ## The tasks of a link in their order -/

namespace MaekawaLink

def contents (l : MaekawaLink) : List MaekawaTask :=
  l.handler.toList ++ l.queue.map fun packet => .received packet.msg

theorem total_contents (l : MaekawaLink) (weight : MaekawaTask → Nat) :
    l.total weight = (l.contents.map weight).sum := by
  have hqueue : ∀ queue : List MaekawaPacket, weigh weight queue =
      ((queue.map fun packet => MaekawaTask.received packet.msg).map weight).sum := by
    intro queue
    induction queue with
    | nil => rfl
    | cons packet rest ih => simp [weigh, ih]
  unfold total contents
  cases l.handler with
  | none => simp [hqueue]
  | some task => simp [hqueue]

private theorem total_pos_of_mem {l : MaekawaLink} {weight : MaekawaTask → Nat}
    {task : MaekawaTask} (h : task ∈ l.contents) (hweight : 0 < weight task) :
    0 < l.total weight := by
  rw [total_contents, ← sum_map_erase h]
  omega

end MaekawaLink

namespace MaekawaSystem

section Contents

variable (s : MaekawaSystem) {i j : NodeId}

theorem contents_send (n target : NodeId) (msg : MaekawaMsg) (p q : NodeId) :
    ((s.send n target msg).link p q).contents = (s.link p q).contents ++
      if p = n ∧ q = target then [.received msg] else [] := by
  simp only [send, link_setLink, link_setNode]
  split
  · next heq =>
    obtain ⟨rfl, rfl⟩ := heq
    simp [MaekawaLink.contents]
  · simp

theorem contents_clear {task : MaekawaTask}
    (h : (s.link i j).handler = some task) (p q : NodeId) :
    (s.link p q).contents = (if p = i ∧ q = j then [task] else []) ++
      ((s.setHandler i j none).link p q).contents := by
  simp only [setHandler, link_setLink]
  split
  · next heq =>
    obtain ⟨rfl, rfl⟩ := heq
    simp [MaekawaLink.contents, h]
  · simp

theorem contents_occupy (h : (s.link i j).handler = none) (task : MaekawaTask)
    (p q : NodeId) : ((s.setHandler i j (some task)).link p q).contents =
      (if p = i ∧ q = j then [task] else []) ++ (s.link p q).contents := by
  simp only [setHandler, link_setLink]
  split
  · next heq =>
    obtain ⟨rfl, rfl⟩ := heq
    simp [MaekawaLink.contents, h]
  · simp

theorem total_occupy (h : (s.link i j).handler = none) (task : MaekawaTask)
    (p q : NodeId) (weight : MaekawaTask → Nat) :
    ((s.setHandler i j (some task)).link p q).total weight =
      (if p = i ∧ q = j then weight task else 0) + (s.link p q).total weight := by
  rw [MaekawaLink.total_contents, contents_occupy s h, List.map_append,
    List.sum_append, ← MaekawaLink.total_contents]
  split <;> simp

theorem contents_deliver {packet : MaekawaPacket} {rest : List MaekawaPacket}
    (hqueue : (s.link i j).queue = packet :: rest)
    (hfree : (s.link i j).handler = none) (p q : NodeId) :
    ((s.setLink i j ⟨rest, some (.received packet.msg)⟩).link p q).contents =
      (s.link p q).contents := by
  rw [link_setLink]
  split
  · next heq =>
    obtain ⟨rfl, rfl⟩ := heq
    simp [MaekawaLink.contents, hqueue, hfree]
  · rfl

end Contents

section Released

variable {c : QuorumSystem} (s : MaekawaSystem) {n : NodeId}

theorem released_send (target : NodeId) (msg : MaekawaMsg) (i v : NodeId) :
    ((s.send n target msg).ballot c).released i v = (s.ballot c).released i v +
      if i = n ∧ v = target then MaekawaTask.release (.received msg) else 0 := by
  simp only [ballot, releasing_send, total_send]
  omega

theorem released_setMutex (m : MaekawaExclusion) (i v : NodeId) :
    ((s.setMutex n m).ballot c).released i v = (s.ballot c).released i v := by
  simp only [ballot, releasing_setMutex, link_setMutex]

theorem released_clear {i j : NodeId} {task : MaekawaTask}
    (h : (s.link i j).handler = some task) (k v : NodeId) :
    (s.ballot c).released k v = ((s.setHandler i j none).ballot c).released k v +
      if k = i ∧ v = j then task.release else 0 := by
  simp only [ballot, node_setHandler, total_setHandler s h]
  omega

theorem released_occupy {i j : NodeId} (h : (s.link i j).handler = none)
    (task : MaekawaTask) (k v : NodeId) : (s.ballot c).released k v ≤
      ((s.setHandler i j (some task)).ballot c).released k v := by
  simp only [ballot, node_setHandler, total_occupy s h]
  omega

theorem released_sendRelease {target : NodeId} {resource : Option Resource}
    (hmem : (target, resource) ∈ (s.node n).releasing) (k v : NodeId) :
    (((s.setNode n
      { s.node n with
        releasing := (s.node n).releasing.erase (target, resource) }).send n
      target (.release resource)).ballot c).released k v =
        (s.ballot c).released k v := by
  rw [released_send]
  simp only [ballot, link_setNode, node_setNode, MaekawaTask.release]
  by_cases hk : k = n
  · have hperm := (List.perm_cons_erase hmem).countP_eq fun r => r.1 = v
    rw [List.countP_cons] at hperm
    simp only [decide_eq_true_eq] at hperm
    simp only [hk, if_true, true_and, hperm, eq_comm (a := target)]
    omega
  · simp [hk]

end Released

/-! ## The timestamps of the requests -/

/-- Requests that are around carry the timestamp of their requester, unless its
release is on the way. -/
structure Current (c : QuorumSystem) (s : MaekawaSystem) : Prop where
  sent : ∀ i v resource ts,
    .received (.request resource ts) ∈ (s.link i v).contents →
      ts = (s.node i).mutex.requestTs
  queued : ∀ v, ∀ r ∈ (s.node v).mutex.requestQueue,
    r.requestTs = (s.node r.requester).mutex.requestTs
  voted : ∀ v, ∀ x ∈ (s.node v).mutex.voted,
    0 < (s.ballot c).released x.requester v ∨
      x.requestTs = (s.node x.requester).mutex.requestTs

section Current

variable {c : QuorumSystem} {s s' : MaekawaSystem} {n i j : NodeId}

theorem current_new (c : QuorumSystem) : new.Current c :=
  ⟨by simp [new, MaekawaLink.contents], by simp [new, MaekawaExclusion.new],
    by simp [new, MaekawaExclusion.new]⟩

theorem Current.frame (h : s.Current c)
    (hts : ∀ i, (s'.node i).mutex.requestTs = (s.node i).mutex.requestTs)
    (hsent : ∀ i v, ∀ task ∈ (s'.link i v).contents,
      task ∈ (s.link i v).contents ∨
        ∀ resource ts, task = .received (.request resource ts) →
          ts = (s.node i).mutex.requestTs)
    (hqueue : ∀ v, ∀ r ∈ (s'.node v).mutex.requestQueue,
      r ∈ (s.node v).mutex.requestQueue ∨
        r.requestTs = (s.node r.requester).mutex.requestTs)
    (hvoted : ∀ v, ∀ x ∈ (s'.node v).mutex.voted,
      (x ∈ (s.node v).mutex.voted ∧ (0 < (s.ballot c).released x.requester v →
        0 < (s'.ballot c).released x.requester v)) ∨
      x.requestTs = (s.node x.requester).mutex.requestTs) : s'.Current c := by
  refine ⟨fun i v resource ts hmem => ?_, fun v r hr => ?_, fun v x hx => ?_⟩
  · rw [hts]
    rcases hsent i v _ hmem with hmem | hcurrent
    · exact h.sent i v resource ts hmem
    · exact hcurrent resource ts rfl
  · rw [hts]
    rcases hqueue v r hr with hr | hcurrent
    · exact h.queued v r hr
    · exact hcurrent
  · rw [hts]
    rcases hvoted v x hx with ⟨hx, hkept⟩ | hcurrent
    · exact (h.voted v x hx).imp_left hkept
    · exact .inr hcurrent

theorem Current.setNode (h : s.Current c) {m : MaekawaNode}
    (hts : m.mutex.requestTs = (s.node n).mutex.requestTs)
    (hqueue : m.mutex.requestQueue = (s.node n).mutex.requestQueue)
    (hvoted : m.mutex.voted = (s.node n).mutex.voted)
    (hreleasing : ∀ v, ((s.node n).releasing.countP fun r => r.1 = v) ≤
      m.releasing.countP fun r => r.1 = v) : (s.setNode n m).Current c := by
  have hkept : ∀ i v, (s.ballot c).released i v ≤
      ((s.setNode n m).ballot c).released i v := by
    intro i v
    simp only [ballot, link_setNode, node_setNode]
    split
    · next heq =>
      subst heq
      have := hreleasing v
      omega
    · exact Nat.le_refl _
  refine h.frame (fun i => ?_) (fun i v task htask => .inl htask)
    (fun v r hr => .inl ?_) fun v x hx => .inl ⟨?_, ?_⟩
  · exact field_setNode s (·.mutex.requestTs) hts i
  · rwa [field_setNode s (·.mutex.requestQueue) hqueue v] at hr
  · rwa [field_setNode s (·.mutex.voted) hvoted v] at hx
  · exact fun hpos => Nat.lt_of_lt_of_le hpos (hkept _ _)

theorem Current.send (h : s.Current c) {target : NodeId} {msg : MaekawaMsg}
    (hmsg : ∀ resource ts, msg = .request resource ts →
      ts = (s.node n).mutex.requestTs) : (s.send n target msg).Current c := by
  refine h.frame (fun i => ?_) (fun i v task htask => ?_) (fun v r hr => .inl ?_)
    fun v x hx => .inl ⟨?_, ?_⟩
  · rw [mutex_send]
  · rw [contents_send] at htask
    rcases List.mem_append.mp htask with htask | htask
    · exact .inl htask
    · split at htask
      · next heq =>
        refine .inr fun resource ts hreq => ?_
        rw [List.mem_singleton.mp htask] at hreq
        rw [heq.1]
        exact hmsg resource ts (MaekawaTask.received.inj hreq)
      · cases htask
  · rwa [mutex_send] at hr
  · rwa [mutex_send] at hx
  · rw [released_send]
    omega

theorem Current.clear (h : s.Current c) {task : MaekawaTask}
    (htask : (s.link i j).handler = some task) (hrelease : task.release = 0) :
    (s.setHandler i j none).Current c := by
  refine h.frame (fun _ => rfl) (fun p q t ht => .inl ?_) (fun v r hr => .inl hr)
    fun v x hx => .inl ⟨hx, ?_⟩
  · rw [contents_clear s htask]
    exact List.mem_append_right _ ht
  · rw [released_clear s htask, hrelease, ite_self, Nat.add_zero]
    exact id

theorem Current.setMutex (h : s.Current c) {m : MaekawaExclusion}
    (hts : m.requestTs = (s.node n).mutex.requestTs)
    (hqueue : ∀ r ∈ m.requestQueue, r ∈ (s.node n).mutex.requestQueue ∨
      r.requestTs = (s.node r.requester).mutex.requestTs)
    (hvoted : ∀ x ∈ m.voted, x ∈ (s.node n).mutex.voted ∨
      x.requestTs = (s.node x.requester).mutex.requestTs) :
    (s.setMutex n m).Current c := by
  refine h.frame (fun i => ?_) (fun i v task htask => .inl htask)
    (fun v r hr => ?_) fun v x hx => ?_
  · exact field_setMutex s (·.requestTs) hts i
  · rw [mutex_setMutex] at hr
    split at hr
    · next heq =>
      rw [heq]
      exact hqueue r hr
    · exact .inl hr
  · rw [mutex_setMutex] at hx
    split at hx
    · next heq =>
      rw [heq]
      refine (hvoted x hx).imp_left fun hold => ⟨hold, ?_⟩
      rw [released_setMutex]
      exact id
    · refine .inl ⟨hx, ?_⟩
      rw [released_setMutex]
      exact id

theorem Current.back (h : s.Current c) {task : MaekawaTask}
    (htask : (s.link i n).handler = some task) {m : MaekawaExclusion}
    (hts : m.requestTs = (s.node n).mutex.requestTs)
    (hqueue : ∀ r ∈ m.requestQueue, r ∈ (s.node n).mutex.requestQueue ∨
      r.requestTs = (s.node r.requester).mutex.requestTs)
    (hvoted : m.voted = none) : ((s.setHandler i n none).setMutex n m).Current c := by
  refine h.frame (fun k => ?_) (fun p q t ht => .inl ?_) (fun v r hr => ?_)
    fun v x hx => .inl ?_
  · exact field_setMutex (s.setHandler i n none) (·.requestTs) hts k
  · rw [contents_clear s htask]
    exact List.mem_append_right _ ht
  · rw [mutex_setMutex] at hr
    split at hr
    · next heq =>
      rw [heq]
      exact hqueue r hr
    · exact .inl hr
  · rw [mutex_setMutex] at hx
    split at hx
    · rw [hvoted] at hx
      cases hx
    · next hv =>
      refine ⟨hx, ?_⟩
      rw [released_setMutex, released_clear s htask, if_neg fun hkv => hv hkv.2,
        Nat.add_zero]
      exact id

theorem Current.grantVote (h : s.Current c) {r : MaekawaRequest}
    (hr : r.requestTs = (s.node r.requester).mutex.requestTs) :
    (s.grantVote n r).Current c := by
  refine Current.send (h.setMutex ?_ ?_ ?_) (by simp)
  · rfl
  · exact fun x hx => .inl hx
  · intro x hx
    cases hx
    exact .inr hr

theorem Current.grantNext (h : s.Current c) (n : NodeId) :
    (s.grantNext n).Current c := by
  unfold MaekawaSystem.grantNext
  split
  · exact h
  · next r rest hqueue =>
    have hall : ∀ x ∈ r :: rest, x ∈ (s.node n).mutex.requestQueue := by
      simp [hqueue]
    refine Current.grantVote (h.setMutex ?_ ?_ ?_) ?_
    · rfl
    · exact fun x hx => .inl (hall x (List.mem_cons_of_mem r hx))
    · exact fun x hx => .inl hx
    · have hcurrent := h.queued n r (hall r List.mem_cons_self)
      rw [hcurrent]
      exact (field_setMutex s (·.requestTs) (by rfl) r.requester).symm

private theorem Inv.voted_of_back (h : s.Inv c Ballot.Balanced) {resource : Resource}
    (htask : (s.link i n).handler = some (.received (.relinquish resource))) :
    (s.ballot c).votedFor n = some i ∧ (s.ballot c).released i n = 0 := by
  have hpos : 0 < (s.link i n).total MaekawaTask.back :=
    total_pos htask Nat.one_pos
  have hgranted : 0 < (s.ballot c).granted i n := by
    simp only [ballot]
    omega
  have hvoted := h.votes.votedFor_of_pos (i := i) (w := n) (by omega)
  have hone := h.votes.voted i n hvoted
  exact ⟨hvoted, by omega⟩

theorem Current.handle (h : s.Current c) (hinv : s.Inv c Ballot.Balanced)
    {msg : MaekawaMsg}
    (htask : (s.link i n).handler = some (.received msg)) :
    ((s.setHandler i n none).handle c i n msg).Current c := by
  cases msg with
  | request resource reqTs =>
      have hclear := h.clear htask rfl
      have hcurrent : reqTs = (s.node i).mutex.requestTs :=
        h.sent i n resource reqTs (by simp [MaekawaLink.contents, htask])
      simp only [MaekawaSystem.handle, handleRequest]
      split
      · exact hclear.grantVote hcurrent
      · have hqueue : ∀ r ∈ ((s.node n).mutex.enqueue
            ⟨reqTs, i, resource⟩).requestQueue,
            r ∈ (s.node n).mutex.requestQueue ∨
              r.requestTs = (s.node r.requester).mutex.requestTs := by
          intro r hr
          refine (MaekawaExclusion.mem_enqueue.mp hr).imp_right ?_
          rintro rfl
          exact hcurrent
        split
        · refine Current.send (hclear.setMutex ?_ ?_ ?_) (by simp)
          · rfl
          · exact hqueue
          · exact fun x hx => .inl hx
        · refine Current.send (hclear.setMutex ?_ ?_ ?_) (by simp)
          · rfl
          · exact hqueue
          · exact fun x hx => .inl hx
  | locked resource voter =>
      refine (h.clear htask rfl).setNode ?_ ?_ ?_ ?_
      · rfl
      · rfl
      · rfl
      · exact fun v => Nat.le_refl _
  | failed resource => exact h.clear htask rfl
  | inquire resource voter =>
      have hclear := h.clear htask rfl
      simp only [MaekawaSystem.handle, handleInquire]
      split
      · have hset : ((s.setHandler i n none).setMutex n
            (((s.setHandler i n none).node n).mutex.handleInquire voter)).Current
              c := by
          refine hclear.setMutex ?_ ?_ ?_
          · rfl
          · exact fun r hr => .inl hr
          · exact fun x hx => .inl hx
        refine hset.frame ?_ (fun p q task ht => ?_) ?_ fun v x hx => .inl ⟨hx, ?_⟩
        · exact fun _ => rfl
        · rw [contents_occupy _ (by simp [setHandler, link_setLink])] at ht
          rcases List.mem_append.mp ht with ht | ht
          · split at ht
            · rw [List.mem_singleton.mp ht]
              exact .inr (by simp)
            · cases ht
          · exact .inl ht
        · exact fun v r hr => .inl hr
        · exact fun hpos => Nat.lt_of_lt_of_le hpos
            (released_occupy _ (by simp [setHandler, link_setLink]) _ _ _)
      · exact hclear
  | relinquish resource =>
      obtain ⟨hvoted, hreleased⟩ := hinv.voted_of_back htask
      simp only [MaekawaSystem.handle, handleRelinquish_grants]
      refine Current.grantNext (h.back htask ?_ ?_ ?_) n
      · simp only [MaekawaExclusion.clearVote, returned]
        split <;> rfl
      · intro r hr
        simp only [MaekawaExclusion.clearVote, returned] at hr
        split at hr
        · exact .inl hr
        · next old hold =>
          refine (MaekawaExclusion.mem_enqueue.mp hr).imp_right ?_
          rintro rfl
          obtain ⟨x, hx, hi⟩ := Option.map_eq_some_iff.mp hvoted
          obtain rfl : x = r := Option.some.inj (hx.symm.trans hold)
          refine (h.voted n x hx).resolve_left ?_
          rw [hi, hreleased]
          exact Nat.lt_irrefl 0
      · rfl
  | release resource =>
      simp only [MaekawaSystem.handle, handleRelease_eq]
      refine Current.grantNext (h.back htask ?_ ?_ ?_) n
      · rfl
      · exact fun r hr => .inl hr
      · rfl

theorem Current.requestCs (h : s.Current c) (hinv : s.Inv c Ballot.Balanced)
    (hidle : (s.node n).call = .idle) {m : MaekawaNode}
    (hqueue : m.mutex.requestQueue = (s.node n).mutex.requestQueue)
    (hvoted : m.mutex.voted = (s.node n).mutex.voted)
    (hreleasing : m.releasing = (s.node n).releasing) :
    (s.setNode n m).Current c := by
  have hnothing : ∀ v, (s.ballot c).asking n v + (s.ballot c).granted n v = 0 :=
    fun v => hinv.votes.unwanted n v fun hwants => hwants.1 hidle
  have hts : ∀ i, i ≠ n → ((s.setNode n m).node i).mutex.requestTs =
      (s.node i).mutex.requestTs := by
    intro i hi
    rw [mutex_setNode, if_neg hi]
  refine ⟨fun i v resource ts hmem => ?_, fun v r hr => ?_, fun v x hx => ?_⟩
  · have hi : i ≠ n := by
      rintro rfl
      have hpos : 0 < (s.link i v).total MaekawaTask.request :=
        MaekawaLink.total_pos_of_mem hmem Nat.one_pos
      have hzero := hnothing v
      simp only [ballot] at hzero
      omega
    rw [hts i hi]
    exact h.sent i v resource ts hmem
  · rw [field_setNode s (·.mutex.requestQueue) hqueue v] at hr
    have hr' : r.requester ≠ n := by
      intro heq
      have hpos : 0 < (s.node v).mutex.requestQueue.countP
          fun r => r.requester = n :=
        List.countP_pos_iff.mpr ⟨r, hr, by simpa using heq⟩
      have hzero := hnothing v
      simp only [ballot] at hzero
      omega
    rw [hts _ hr']
    exact h.queued v r hr
  · rw [field_setNode s (·.mutex.voted) hvoted v] at hx
    have hkept : ((s.setNode n m).ballot c).released x.requester v =
        (s.ballot c).released x.requester v := by
      simp only [ballot, link_setNode, field_setNode s (·.releasing) hreleasing]
    rw [hkept]
    by_cases hx' : x.requester = n
    · left
      have hfor : (s.ballot c).votedFor v = some n :=
        Option.map_eq_some_iff.mpr ⟨x, hx, hx'⟩
      have hone := hinv.votes.voted n v hfor
      have hzero := hnothing v
      rw [hx']
      omega
    · rw [hts _ hx']
      exact h.voted v x hx

theorem Current.step {a : MaekawaAction} (h : s.Current c)
    (hinv : s.Inv c Ballot.Balanced)
    (hstep : s.step c a = some s') : s'.Current c := by
  cases step_cases hstep with
  | @requestCs n resource hn hidle =>
      exact h.requestCs hinv hidle (by rfl) (by rfl) (by rfl)
  | @sendRequest n target resource targets hcall hmem =>
      refine Current.send (h.setNode ?_ ?_ ?_ ?_) fun resource' ts heq => ?_
      · rfl
      · rfl
      · rfl
      · exact fun v => Nat.le_refl _
      · obtain ⟨-, rfl⟩ := MaekawaMsg.request.inj heq
        exact (field_setNode s (·.mutex.requestTs) (by rfl) n).symm
  | @wait n resource hcall =>
      exact h.setNode (by rfl) (by rfl) (by rfl) fun v => Nat.le_refl _
  | @enter n hcall =>
      exact h.setNode (by rfl) (by rfl) (by rfl) fun v => Nat.le_refl _
  | @releaseCs n hcall =>
      refine h.setNode (by rfl) (by rfl) (by rfl) fun v => ?_
      rw [List.countP_append]
      exact Nat.le_add_right _ _
  | @sendRelease n target resource hmem =>
      refine h.frame (fun i => ?_) (fun i v task htask => ?_) (fun v r hr => .inl ?_)
        fun v x hx => .inl ⟨?_, ?_⟩
      · rw [mutex_send]
        exact field_setNode s (·.mutex.requestTs) (by rfl) i
      · rw [contents_send] at htask
        rcases List.mem_append.mp htask with htask | htask
        · exact .inl htask
        · split at htask
          · rw [List.mem_singleton.mp htask]
            exact .inr (by simp)
          · cases htask
      · rw [mutex_send] at hr
        rwa [field_setNode s (·.mutex.requestQueue) (by rfl) v] at hr
      · rw [mutex_send] at hx
        rwa [field_setNode s (·.mutex.voted) (by rfl) v] at hx
      · rw [released_sendRelease s hmem]
        exact id
  | @deliver i j packet rest hqueue hhandler =>
      have hticked : (s.setNode j
          { s.node j with
            clock := (s.node j).clock.update packet.timestamp }).Current c :=
        h.setNode (by rfl) (by rfl) (by rfl) fun v => Nat.le_refl _
      refine hticked.frame (fun k => ?_) (fun p q task htask => .inl ?_)
        (fun v r hr => .inl hr) fun v x hx => .inl ⟨hx, ?_⟩
      · rfl
      · rwa [contents_deliver (s.setNode j _) hqueue hhandler] at htask
      · simp only [ballot, total_deliver (s.setNode j _) hqueue hhandler,
          node_setLink]
        exact id
  | @handle i j msg htask => exact h.handle hinv htask
  | @sendRelinquish i j voter resource htask =>
      exact Current.send (h.clear htask rfl) (by simp)
  | tick n receivedTime =>
      exact h.setNode (by rfl) (by rfl) (by rfl) fun v => Nat.le_refl _

end Current

end MaekawaSystem

end DistributedMemory.Mutex
