import DistributedMemory.Mutex.MaekawaRequests

/-!
# The inquiries of Maekawa's algorithm

The link from a voter keeps the order of its messages, so an INQUIRE comes after the
vote that it is about.  It brings the vote back, unless the candidate has entered: then
the release of the candidate does.
-/

namespace DistributedMemory.Mutex

open DistributedMemory.Library DistributedMemory.Network

namespace MaekawaTask

def yielding : MaekawaTask → Nat
  | .relinquish _ _ => 1
  | .received _ => 0

/-- Whether an INQUIRE came after the last LOCKED, once the task is there. -/
def chase (before : Bool) : MaekawaTask → Bool
  | .received (.inquire _ _) => true
  | .received (.locked _ _) => false
  | _ => before

end MaekawaTask

namespace MaekawaLink

def inquired (l : MaekawaLink) : Bool := l.contents.foldl MaekawaTask.chase false

private theorem foldl_chase (tasks : List MaekawaTask)
    (h : tasks.foldl MaekawaTask.chase true = true) :
    tasks.foldl MaekawaTask.chase false = true ∨
      ∀ resource voter, .received (.locked resource voter) ∉ tasks := by
  induction tasks with
  | nil => exact .inr (by simp)
  | cons task rest ih =>
      rw [List.foldl_cons] at h ⊢
      by_cases hsame : task.chase true = task.chase false
      · rw [hsame] at h
        exact .inl h
      · have hkeeps : task.chase true = true ∧ task.chase false = false ∧
            ∀ resource voter, .received (.locked resource voter) ≠ task := by
          cases task with
          | relinquish voter resource => exact ⟨rfl, rfl, by simp⟩
          | received msg => cases msg <;> simp_all [MaekawaTask.chase]
        rw [hkeeps.1] at h
        rw [hkeeps.2.1]
        refine (ih h).imp id fun hnone resource voter hmem => ?_
        rcases List.mem_cons.mp hmem with heq | hmem
        · exact hkeeps.2.2 resource voter heq
        · exact hnone resource voter hmem

end MaekawaLink

namespace MaekawaSystem

/-! ## The votes that are asked back -/

/-- An INQUIRE from `v` is before `j` and came after the vote, or the vote is on its
way back, or `j` has entered and releases it later. -/
def Chasing (c : QuorumSystem) (s : MaekawaSystem) (v j : NodeId) : Prop :=
  (s.link v j).inquired = true ∨ 0 < (s.link v j).total MaekawaTask.yielding ∨
    0 < (s.link j v).total MaekawaTask.back ∨ (s.node j).call = .inside ∨
    0 < (s.ballot c).released j v

def Chased (c : QuorumSystem) (s : MaekawaSystem) : Prop :=
  ∀ v, (s.node v).mutex.inquireSent = true →
    ∀ x ∈ (s.node v).mutex.voted, s.Chasing c v x.requester

section Chased

variable {c : QuorumSystem} {s s' : MaekawaSystem} {n i j v : NodeId}

theorem chased_new (c : QuorumSystem) : new.Chased c := by
  intro v hsent
  cases hsent

theorem Chased.frame (h : s.Chased c)
    (hmono : ∀ v, (s'.node v).mutex.inquireSent = true →
      ∀ x ∈ (s'.node v).mutex.voted, s'.Chasing c v x.requester ∨
        ((s.node v).mutex.inquireSent = true ∧ x ∈ (s.node v).mutex.voted ∧
          (s.Chasing c v x.requester → s'.Chasing c v x.requester))) :
    s'.Chased c := by
  intro v hsent x hx
  rcases hmono v hsent x hx with hnow | ⟨hbefore, hx, hkept⟩
  · exact hnow
  · exact hkept (h v hbefore x hx)

theorem Chasing.setNode {m : MaekawaNode} (h : s.Chasing c v j)
    (hinside : (s.node n).call = .inside → m.call = .inside)
    (hreleasing : ∀ v, ((s.node n).releasing.countP fun r => r.1 = v) ≤
      m.releasing.countP fun r => r.1 = v) : (s.setNode n m).Chasing c v j := by
  refine h.imp id (Or.imp id (Or.imp id (Or.imp (fun hin => ?_) fun hpos => ?_)))
  · rw [call_setNode]
    split
    · next heq => exact hinside (heq ▸ hin)
    · exact hin
  · refine Nat.lt_of_lt_of_le hpos ?_
    simp only [ballot, link_setNode, node_setNode]
    split
    · next heq =>
      subst heq
      have := hreleasing v
      omega
    · exact Nat.le_refl _

theorem Chasing.setMutex {m : MaekawaExclusion} (h : s.Chasing c v j) :
    (s.setMutex n m).Chasing c v j :=
  h.setNode id fun _ => Nat.le_refl _

theorem Chasing.send {target : NodeId} {msg : MaekawaMsg} (h : s.Chasing c v j)
    (hmsg : v = n → ∀ before,
      before = true → MaekawaTask.chase before (.received msg) = true) :
    (s.send n target msg).Chasing c v j := by
  refine h.imp (fun hlink => ?_) (Or.imp (fun hpos => ?_) (Or.imp (fun hpos => ?_)
    (Or.imp (fun hin => ?_) fun hpos => ?_)))
  · unfold MaekawaLink.inquired at hlink ⊢
    rw [contents_send]
    split
    · next heq =>
      rw [List.foldl_append]
      exact hmsg heq.1 _ hlink
    · rw [List.append_nil]
      exact hlink
  · rw [total_send]
    omega
  · rw [total_send]
    omega
  · rwa [call_send]
  · rw [released_send]
    omega

private theorem inquired_send {target : NodeId} {msg : MaekawaMsg}
    (hmsg : ∀ before, MaekawaTask.chase before (.received msg) = true) :
    ((s.send n target msg).link n target).inquired = true := by
  unfold MaekawaLink.inquired
  rw [contents_send, if_pos ⟨rfl, rfl⟩, List.foldl_append]
  exact hmsg _

theorem Chasing.clear {task : MaekawaTask} (h : s.Chasing c v j)
    (htask : (s.link i n).handler = some task)
    (hforward : v = i → j = n →
      task.chase false = false ∧ task.yielding = 0)
    (hback : j = i → v = n → task.back = 0 ∧ task.release = 0) :
    (s.setHandler i n none).Chasing c v j := by
  refine h.imp (fun hlink => ?_) (Or.imp (fun hpos => ?_) (Or.imp (fun hpos => ?_)
    (Or.imp id fun hpos => ?_)))
  · unfold MaekawaLink.inquired at hlink ⊢
    rw [contents_clear s htask] at hlink
    split at hlink
    · next heq =>
      rwa [List.singleton_append, List.foldl_cons,
        (hforward heq.1 heq.2).1] at hlink
    · exact hlink
  · rw [total_setHandler s htask] at hpos
    split at hpos
    · next heq =>
      rwa [(hforward heq.1 heq.2).2] at hpos
    · exact hpos
  · rw [total_setHandler s htask] at hpos
    split at hpos
    · next heq =>
      rwa [(hback heq.1 heq.2).1] at hpos
    · exact hpos
  · rw [released_clear s htask] at hpos
    split at hpos
    · next heq =>
      rwa [(hback heq.1 heq.2).2] at hpos
    · exact hpos

theorem Chasing.grantNext (h : s.Chasing c v j) (hv : v ≠ n) :
    (s.grantNext n).Chasing c v j := by
  unfold MaekawaSystem.grantNext
  split
  · exact h
  · exact Chasing.send h.setMutex.setMutex fun heq => absurd heq hv

theorem Chased.back (h : s.Chased c) {task : MaekawaTask}
    (htask : (s.link i n).handler = some task)
    (hforward : task.chase false = false ∧ task.yielding = 0)
    {m : MaekawaExclusion} (hsent : m.inquireSent = false) :
    (((s.setHandler i n none).setMutex n m).grantNext n).Chased c := by
  refine h.frame fun v hv x hx => ?_
  rw [mutex_grantNext] at hv hx
  by_cases hvn : v = n
  · subst hvn
    rw [if_pos rfl, mutex_setMutex_self] at hv
    split at hv
    · rw [hsent] at hv
      cases hv
    · cases hv
  · rw [if_neg hvn, mutex_setMutex, if_neg hvn] at hv hx
    refine .inr ⟨hv, hx, fun hchasing => ?_⟩
    have hclear := hchasing.clear htask (fun _ _ => hforward)
      fun _ hv' => absurd hv' hvn
    exact hclear.setMutex.grantNext hvn

private theorem Chasing.occupy (h : s.Chasing c v j)
    (hfree : (s.link i n).handler = none) (task : MaekawaTask)
    (hother : ¬ (v = i ∧ j = n)) :
    (s.setHandler i n (some task)).Chasing c v j := by
  refine h.imp (fun hlink => ?_) (Or.imp (fun hpos => ?_) (Or.imp (fun hpos => ?_)
    (Or.imp id fun hpos => ?_)))
  · unfold MaekawaLink.inquired at hlink ⊢
    rw [contents_occupy s hfree, if_neg hother]
    exact hlink
  · rw [total_occupy s hfree]
    omega
  · rw [total_occupy s hfree]
    omega
  · exact Nat.lt_of_lt_of_le hpos (released_occupy s hfree task j v)

private theorem Inv.passed_over (hinv : s.Inv c Ballot.Balanced)
    (hwaits : ∀ i, (s.node i).Waits (c.quorum i)) {resource : Resource}
    (htask : (s.link i n).handler = some (.received (.inquire resource i)))
    (hgives : ¬ (s.node n).mutex.gives i = true)
    (hvoted : (s.ballot c).votedFor i = some n)
    (hnone : ∀ resource voter, .received (.locked resource voter) ∉
      ((s.setHandler i n none).link i n).contents) :
    0 < (s.link n i).total MaekawaTask.back ∨ (s.node n).call = .inside ∨
      0 < (s.ballot c).released n i := by
  by_cases hin : (s.node n).mutex.inCs = true
  · exact .inr (.inl ((hwaits n).outside hin))
  have hheld : i ∉ (s.node n).mutex.votesHeld := by
    intro hmem
    simp [MaekawaExclusion.gives, hin, hmem] at hgives
  have hgrant : (s.link i n).total MaekawaTask.grant = 0 := by
    rw [MaekawaLink.total_contents, contents_clear s htask]
    rw [if_pos ⟨rfl, rfl⟩, List.singleton_append, List.map_cons, List.sum_cons]
    refine (Nat.zero_add _).trans (List.sum_eq_zero fun weight hweight => ?_)
    obtain ⟨task, hmem, rfl⟩ := List.mem_map.mp hweight
    cases task with
    | relinquish voter resource =>
        exfalso
        simp [MaekawaLink.contents, setHandler, link_setLink] at hmem
    | received msg =>
        cases msg with
        | locked resource voter => exact absurd hmem (hnone resource voter)
        | _ => rfl
  have hone := hinv.votes.voted n i hvoted
  have hgranted : (s.ballot c).granted n i =
      (s.link n i).total MaekawaTask.back := by
    simp only [ballot, hgrant, if_neg hheld]
    omega
  rw [hgranted] at hone
  omega

theorem Chased.handleInquire (h : s.Chased c) (hinv : s.Inv c Ballot.Balanced)
    (hwaits : ∀ i, (s.node i).Waits (c.quorum i)) {resource : Resource}
    {voter : NodeId}
    (htask : (s.link i n).handler = some (.received (.inquire resource voter))) :
    ((s.setHandler i n none).handleInquire n i resource voter).Chased c := by
  have hvoter : voter = i := (hinv.signed i n).1 _ htask
  subst hvoter
  have hclear : ∀ v j, ¬ (v = voter ∧ j = n) → s.Chasing c v j →
      (s.setHandler voter n none).Chasing c v j :=
    fun v j hother hchasing => hchasing.clear htask
      (fun hv hj => absurd ⟨hv, hj⟩ hother) fun _ _ => ⟨rfl, rfl⟩
  unfold MaekawaSystem.handleInquire
  rw [node_setHandler]
  split
  · have hfree : (((s.setHandler voter n none).setMutex n
        ((s.node n).mutex.handleInquire voter)).link voter n).handler = none := by
      simp [setHandler, link_setLink]
    refine h.frame fun v hv x hx => ?_
    have hsent : (s.node v).mutex.inquireSent = true :=
      (field_setMutex (s.setHandler voter n none) (·.inquireSent) (by rfl) v).symm.trans
        hv
    have hvoted : x ∈ (s.node v).mutex.voted := by
      have hsame := field_setMutex (s.setHandler voter n none)
        (m := (s.node n).mutex.handleInquire voter) (n := n) (·.voted) (by rfl) v
      exact hsame ▸ hx
    by_cases hpair : v = voter ∧ x.requester = n
    · obtain ⟨rfl, hxn⟩ := hpair
      refine .inl (.inr (.inl ?_))
      rw [hxn, total_occupy _ hfree, if_pos ⟨rfl, rfl⟩]
      exact Nat.lt_of_lt_of_le Nat.one_pos (Nat.le_add_right 1 _)
    · refine .inr ⟨hsent, hvoted, fun hchasing => ?_⟩
      exact (hclear v _ hpair hchasing).setMutex.occupy hfree _ hpair
  · next hgives =>
    refine h.frame fun v hv x hx => ?_
    by_cases hpair : v = voter ∧ x.requester = n
    · obtain ⟨rfl, hxn⟩ := hpair
      left
      have hvoted : (s.ballot c).votedFor v = some n :=
        Option.map_eq_some_iff.mpr ⟨x, hx, hxn⟩
      have hchasing := h v hv x hx
      rw [hxn] at hchasing ⊢
      rcases hchasing with hlink | hpos | hpos | hin | hpos
      · unfold MaekawaLink.inquired at hlink
        rw [contents_clear s htask, if_pos ⟨rfl, rfl⟩, List.singleton_append,
          List.foldl_cons] at hlink
        rcases MaekawaLink.foldl_chase _ hlink with hlater | hnone
        · exact .inl hlater
        · have hpassed := hinv.passed_over hwaits htask hgives hvoted hnone
          refine .inr (.inr (hpassed.imp (fun hpos => ?_) (Or.imp id fun hpos => ?_)))
          · rw [total_setHandler s htask] at hpos
            simpa [MaekawaTask.back] using hpos
          · rw [released_clear s htask] at hpos
            simpa [MaekawaTask.release] using hpos
      · rw [total_setHandler s htask] at hpos
        exact .inr (.inl (by simpa [MaekawaTask.yielding] using hpos))
      · rw [total_setHandler s htask] at hpos
        exact .inr (.inr (.inl (by simpa [MaekawaTask.back] using hpos)))
      · exact .inr (.inr (.inr (.inl hin)))
      · rw [released_clear s htask] at hpos
        exact .inr (.inr (.inr (.inr (by simpa [MaekawaTask.release] using hpos))))
    · exact .inr ⟨hv, hx, hclear v _ hpair⟩

theorem Chased.handle (h : s.Chased c) (hinv : s.Inv c Ballot.Balanced)
    (hwaits : ∀ i, (s.node i).Waits (c.quorum i)) {msg : MaekawaMsg}
    (htask : (s.link i n).handler = some (.received msg)) :
    ((s.setHandler i n none).handle c i n msg).Chased c := by
  cases msg with
  | request resource reqTs =>
      have hclear : ∀ v j, s.Chasing c v j →
          (s.setHandler i n none).Chasing c v j :=
        fun v j hchasing => hchasing.clear htask (fun _ _ => ⟨rfl, rfl⟩)
          fun _ _ => ⟨rfl, rfl⟩
      simp only [MaekawaSystem.handle, handleRequest]
      split
      · refine h.frame fun v hv x hx => ?_
        simp only [grantVote, mutex_send, mutex_setMutex] at hv hx
        split at hv
        · cases hv
        · next hvn =>
          rw [if_neg hvn] at hx
          refine .inr ⟨hv, hx, fun hchasing => ?_⟩
          exact (hclear v _ hchasing).setMutex.send fun hv' => absurd hv' hvn
      · next voted hvoted =>
        split
        · refine h.frame fun v hv x hx => ?_
          simp only [mutex_send, mutex_setMutex] at hv hx
          by_cases hvn : v = n
          · subst hvn
            rw [if_pos rfl] at hx
            obtain rfl : voted = x := Option.some.inj (hvoted.symm.trans hx)
            exact .inl (.inl (inquired_send fun _ => rfl))
          · rw [if_neg hvn] at hv hx
            refine .inr ⟨hv, hx, fun hchasing => ?_⟩
            exact (hclear v _ hchasing).setMutex.send fun hv' => absurd hv' hvn
        · refine h.frame fun v hv x hx => .inr ?_
          simp only [mutex_send, mutex_setMutex] at hv hx
          have hsame : (s.node v).mutex.inquireSent = true ∧
              x ∈ (s.node v).mutex.voted := by
            by_cases hvn : v = n
            · subst hvn
              rw [if_pos rfl] at hv hx
              exact ⟨hv, hx⟩
            · rw [if_neg hvn] at hv hx
              exact ⟨hv, hx⟩
          refine ⟨hsame.1, hsame.2, fun hchasing => ?_⟩
          exact (hclear v _ hchasing).setMutex.send fun _ _ hbefore => hbefore
  | locked resource voter =>
      refine h.frame fun v hv x hx => .inr ?_
      simp only [MaekawaSystem.handle, MaekawaSystem.handleLocked] at hv hx ⊢
      rw [field_setNode (s.setHandler i n none) (·.mutex.inquireSent) (by rfl)] at hv
      rw [field_setNode (s.setHandler i n none) (·.mutex.voted) (by rfl)] at hx
      refine ⟨hv, hx, fun hchasing => ?_⟩
      have hclear := hchasing.clear htask (fun _ _ => ⟨rfl, rfl⟩)
        fun _ _ => ⟨rfl, rfl⟩
      refine hclear.setNode (fun hin => ?_) fun _ => Nat.le_refl _
      dsimp only
      split
      · exact wake_eq_inside.mpr hin
      · exact hin
  | failed resource =>
      refine h.frame fun v hv x hx => .inr ⟨hv, hx, fun hchasing => ?_⟩
      exact hchasing.clear htask (fun _ _ => ⟨rfl, rfl⟩) fun _ _ => ⟨rfl, rfl⟩
  | inquire resource voter => exact h.handleInquire hinv hwaits htask
  | relinquish resource =>
      simp only [MaekawaSystem.handle, handleRelinquish_grants]
      exact h.back htask ⟨rfl, rfl⟩ rfl
  | release resource =>
      simp only [MaekawaSystem.handle, handleRelease_eq]
      exact h.back htask ⟨rfl, rfl⟩ rfl

theorem Chased.setNode (h : s.Chased c) {m : MaekawaNode}
    (hsent : m.mutex.inquireSent = (s.node n).mutex.inquireSent)
    (hvoted : m.mutex.voted = (s.node n).mutex.voted)
    (hinside : (s.node n).call = .inside → m.call = .inside)
    (hreleasing : ∀ v, ((s.node n).releasing.countP fun r => r.1 = v) ≤
      m.releasing.countP fun r => r.1 = v) : (s.setNode n m).Chased c := by
  refine h.frame fun v hv x hx => .inr ⟨?_, ?_, fun hchasing => ?_⟩
  · rwa [field_setNode s (·.mutex.inquireSent) hsent] at hv
  · rwa [field_setNode s (·.mutex.voted) hvoted] at hx
  · exact hchasing.setNode hinside hreleasing

theorem Chased.releaseCs (h : s.Chased c) (hinv : s.Inv c Ballot.Balanced)
    {m : MaekawaNode}
    {resource : Option Resource}
    (hsent : m.mutex.inquireSent = (s.node n).mutex.inquireSent)
    (hvoted : m.mutex.voted = (s.node n).mutex.voted)
    (hreleasing : m.releasing = (s.node n).releasing ++
      (c.quorum n).map fun target => (target, resource)) :
    (s.setNode n m).Chased c := by
  have hmore : ∀ v, ((s.node n).releasing.countP fun r => r.1 = v) ≤
      m.releasing.countP fun r => r.1 = v := by
    intro v
    rw [hreleasing, List.countP_append]
    exact Nat.le_add_right _ _
  refine h.frame fun v hv x hx => ?_
  rw [field_setNode s (·.mutex.inquireSent) hsent] at hv
  rw [field_setNode s (·.mutex.voted) hvoted] at hx
  by_cases hn : x.requester = n
  · refine .inl (.inr (.inr (.inr (.inr ?_))))
    have hfor : (s.ballot c).votedFor v = some n :=
      Option.map_eq_some_iff.mpr ⟨x, hx, hn⟩
    have hone := hinv.votes.voted n v hfor
    simp only [hn, ballot, link_setNode, node_setNode, if_true]
    by_cases hreleased : 0 < (s.ballot c).released n v
    · have hle := hmore v
      simp only [ballot] at hreleased
      omega
    · have hwants := hinv.wants_of_granted (i := n) (v := v) (by omega)
      have hpos : 0 < m.releasing.countP fun r => r.1 = v := by
        rw [hreleasing, List.countP_append]
        refine Nat.add_pos_right _ (List.countP_pos_iff.mpr ⟨(v, resource), ?_, ?_⟩)
        · exact List.mem_map_of_mem hwants.2
        · simp
      omega
  · refine .inr ⟨hv, hx, fun hchasing => ?_⟩
    refine hchasing.imp id (Or.imp id (Or.imp id (Or.imp (fun hin => ?_) ?_)))
    · rwa [call_setNode, if_neg hn]
    · simp only [ballot, link_setNode, node_setNode, if_neg hn]
      exact id

theorem Chased.step {a : MaekawaAction} (h : s.Chased c)
    (hinv : s.Inv c Ballot.Balanced)
    (hwaits : ∀ i, (s.node i).Waits (c.quorum i))
    (hstep : s.step c a = some s') : s'.Chased c := by
  cases step_cases hstep with
  | @requestCs n resource hn hidle =>
      refine h.setNode (by rfl) (by rfl) (fun hin => ?_) fun v => Nat.le_refl _
      rw [hidle] at hin
      cases hin
  | @sendRequest n target resource targets hcall hmem =>
      have hset : (s.setNode n
          { s.node n with
            call := .asking resource (targets.erase target) }).Chased c := by
        refine h.setNode (by rfl) (by rfl) (fun hin => ?_) fun v => Nat.le_refl _
        rw [hcall] at hin
        cases hin
      refine hset.frame fun v hv x hx => .inr ⟨?_, ?_, fun hchasing => ?_⟩
      · rwa [mutex_send] at hv
      · rwa [mutex_send] at hx
      · exact hchasing.send fun _ _ hbefore => hbefore
  | @wait n resource hcall =>
      refine h.setNode (by rfl) (by rfl) (fun hin => ?_) fun v => Nat.le_refl _
      rw [hcall] at hin
      cases hin
  | @enter n hcall =>
      exact h.setNode (by rfl) (by rfl) (fun _ => rfl) fun v => Nat.le_refl _
  | @releaseCs n hcall => exact h.releaseCs hinv (by rfl) (by rfl) (by rfl)
  | @sendRelease n target resource hmem =>
      refine h.frame fun v hv x hx => .inr ⟨?_, ?_, fun hchasing => ?_⟩
      · rw [mutex_send] at hv
        rwa [field_setNode s (·.mutex.inquireSent) (by rfl)] at hv
      · rw [mutex_send] at hx
        rwa [field_setNode s (·.mutex.voted) (by rfl)] at hx
      · rcases hchasing with hlink | hpos | hpos | hin | hpos
        · exact Chasing.send (s := s.setNode n _) (.inl hlink) fun _ _ h => h
        · exact Chasing.send (s := s.setNode n _) (.inr (.inl hpos)) fun _ _ h => h
        · exact Chasing.send (s := s.setNode n _) (.inr (.inr (.inl hpos)))
            fun _ _ h => h
        · refine .inr (.inr (.inr (.inl ?_)))
          rw [call_send, field_setNode s (·.call) (by rfl)]
          exact hin
        · refine .inr (.inr (.inr (.inr ?_)))
          rw [released_sendRelease s hmem]
          exact hpos
  | @deliver i j packet rest hqueue hhandler =>
      have hticked : (s.setNode j
          { s.node j with
            clock := (s.node j).clock.update packet.timestamp }).Chased c :=
        h.setNode (by rfl) (by rfl) id fun v => Nat.le_refl _
      refine hticked.frame fun v hv x hx => .inr ⟨hv, hx, fun hchasing => ?_⟩
      refine hchasing.imp (fun hlink => ?_) (Or.imp (fun hpos => ?_)
        (Or.imp (fun hpos => ?_) (Or.imp id fun hpos => ?_)))
      · unfold MaekawaLink.inquired at hlink ⊢
        rwa [contents_deliver (s.setNode j _) hqueue hhandler]
      · rwa [total_deliver (s.setNode j _) hqueue hhandler]
      · rwa [total_deliver (s.setNode j _) hqueue hhandler]
      · simp only [ballot, total_deliver (s.setNode j _) hqueue hhandler,
          node_setLink]
        exact hpos
  | @handle i j msg htask => exact h.handle hinv hwaits htask
  | @sendRelinquish i j voter resource htask =>
      have hvoter : voter = i := (hinv.signed i j).1 _ htask
      subst hvoter
      refine h.frame fun v hv x hx => ?_
      rw [mutex_send] at hv hx
      by_cases hpair : v = voter ∧ x.requester = j
      · obtain ⟨rfl, hxj⟩ := hpair
        refine .inl (.inr (.inr (.inl ?_)))
        rw [hxj, total_send, if_pos ⟨rfl, rfl⟩]
        exact Nat.lt_of_lt_of_le Nat.one_pos (Nat.le_add_left 1 _)
      · refine .inr ⟨hv, hx, fun hchasing => ?_⟩
        have hclear := hchasing.clear htask
          (fun hv' hj => absurd ⟨hv', hj⟩ hpair) fun _ _ => ⟨rfl, rfl⟩
        exact hclear.send fun _ _ hbefore => hbefore
  | tick n receivedTime =>
      exact h.setNode (by rfl) (by rfl) id fun v => Nat.le_refl _

end Chased

end MaekawaSystem

end DistributedMemory.Mutex
