import DistributedMemory.Mutex.MaekawaCost

/-!
# Voters and callers of Maekawa's algorithm

A voter has a queue only while its vote is given, the queue is in the order of the
timestamps, and unless an INQUIRE is out the vote is given to a request that is before
all of them.  A caller whose event is not set lacks a vote.
-/

namespace DistributedMemory.Mutex

open DistributedMemory.Library DistributedMemory.Network

namespace MaekawaRequest

variable {x y z : MaekawaRequest}

theorem keyLe_total (x y : MaekawaRequest) : x.KeyLe y ∨ y.KeyLe x := by
  rcases Nat.lt_trichotomy x.requestTs y.requestTs with hlt | heq | hgt
  · exact .inl (.inl hlt)
  · rcases Nat.le_total x.requester y.requester with hle | hle
    · exact .inl (.inr ⟨heq, hle⟩)
    · exact .inr (.inr ⟨heq.symm, hle⟩)
  · exact .inr (.inl hgt)

theorem KeyLe.trans (hxy : x.KeyLe y) (hyz : y.KeyLe z) : x.KeyLe z := by
  rcases hxy with hxy | ⟨hxy, hle⟩
  · rcases hyz with hyz | ⟨hyz, -⟩
    · exact .inl (by omega)
    · exact .inl (by omega)
  · rcases hyz with hyz | ⟨hyz, hle'⟩
    · exact .inl (by omega)
    · exact .inr ⟨hxy.trans hyz, Nat.le_trans hle hle'⟩

instance : Std.Total KeyLe := ⟨keyLe_total⟩

instance : IsTrans MaekawaRequest KeyLe := ⟨fun _ _ _ => KeyLe.trans⟩

private theorem keyLe_of_not_before
    (h : ¬ (y.requestTs < x.requestTs ∨
      y.requestTs = x.requestTs ∧ y.requester < x.requester)) : x.KeyLe y := by
  rcases keyLe_total x y with hle | hlt | ⟨heq, hle⟩
  · exact hle
  · exact absurd (.inl hlt) h
  · exact .inr ⟨heq.symm, Nat.not_lt.mp fun hlt => h (.inr ⟨heq, hlt⟩)⟩

end MaekawaRequest

namespace MaekawaExclusion

structure Voter (m : MaekawaExclusion) : Prop where
  free : m.voted = none → m.requestQueue = [] ∧ m.inquireSent = false
  sorted : m.requestQueue.Pairwise MaekawaRequest.KeyLe
  best : m.inquireSent = false → ∀ x ∈ m.voted, ∀ r ∈ m.requestQueue, x.KeyLe r

variable {m m' : MaekawaExclusion}

theorem voter_new : new.Voter :=
  ⟨fun _ => ⟨rfl, rfl⟩, List.Pairwise.nil, by simp [new]⟩

theorem Voter.same (h : m.Voter) (hvoted : m'.voted = m.voted)
    (hqueue : m'.requestQueue = m.requestQueue)
    (hsent : m'.inquireSent = m.inquireSent) : m'.Voter := by
  constructor
  · rw [hvoted, hqueue, hsent]
    exact h.free
  · rw [hqueue]
    exact h.sorted
  · rw [hvoted, hqueue, hsent]
    exact h.best

theorem mem_enqueue {r x : MaekawaRequest} :
    x ∈ (m.enqueue r).requestQueue ↔ x ∈ m.requestQueue ∨ x = r := by
  rw [enqueue, List.mem_insertionSort, List.mem_append, List.mem_singleton]

theorem sorted_enqueue (m : MaekawaExclusion) (r : MaekawaRequest) :
    (m.enqueue r).requestQueue.Pairwise MaekawaRequest.KeyLe :=
  List.pairwise_insertionSort _ _

theorem Voter.enqueued (h : m.Voter) {r : MaekawaRequest} {sent : Bool}
    (hvoted : m.voted ≠ none)
    (hbest : sent = false → m.inquireSent = false ∧ ∀ x ∈ m.voted, x.KeyLe r) :
    ({ m.enqueue r with inquireSent := sent } : MaekawaExclusion).Voter := by
  refine ⟨fun hnone => absurd hnone hvoted, sorted_enqueue m r, ?_⟩
  intro hsent x hx y hy
  obtain ⟨hbefore, hrequest⟩ := hbest hsent
  rcases mem_enqueue.mp hy with hy | rfl
  · exact h.best hbefore x hx y hy
  · exact hrequest x hx

theorem voter_grant {r : MaekawaRequest} {rest : List MaekawaRequest}
    (hsorted : (r :: rest).Pairwise MaekawaRequest.KeyLe) :
    ({ m with
      requestQueue := rest, voted := some r,
      inquireSent := false } : MaekawaExclusion).Voter := by
  obtain ⟨hfirst, hrest⟩ := List.pairwise_cons.mp hsorted
  refine ⟨fun hnone => (by cases hnone), hrest, fun _ x hx y hy => ?_⟩
  cases hx
  exact hfirst y hy

end MaekawaExclusion

def MaekawaCall.Wanting : MaekawaCall → Prop
  | .asking _ _ => True
  | .waiting => True
  | _ => False

/-- A caller at node `n` that waits for votes lacks one, unless its event is set. -/
structure MaekawaNode.Waits (quorum : List NodeId) (m : MaekawaNode) : Prop where
  blocked : m.call = .waiting → m.mutex.csEvent = false
  lacks : m.call.Wanting → m.mutex.csEvent = false →
    ∃ v ∈ quorum, v ∉ m.mutex.votesHeld
  outside : m.mutex.inCs = true → m.call = .inside

theorem MaekawaNode.Waits.same {quorum : List NodeId} {m m' : MaekawaNode}
    (h : m.Waits quorum) (hcall : m'.call = m.call)
    (hevent : m'.mutex.csEvent = m.mutex.csEvent)
    (hheld : m'.mutex.votesHeld = m.mutex.votesHeld)
    (hin : m'.mutex.inCs = m.mutex.inCs) : m'.Waits quorum := by
  constructor
  · rw [hcall, hevent]
    exact h.blocked
  · rw [hcall, hevent, hheld]
    exact h.lacks
  · rw [hcall, hin]
    exact h.outside

namespace MaekawaSystem

variable {c : QuorumSystem} {s s' : MaekawaSystem} {n : NodeId}

theorem mutex_grantNext (s : MaekawaSystem) (n i : NodeId) :
    ((s.grantNext n).node i).mutex =
      if i = n then
        match (s.node n).mutex.requestQueue with
        | [] => (s.node n).mutex
        | r :: rest =>
            { (s.node n).mutex with
              requestQueue := rest, voted := some r, inquireSent := false }
      else (s.node i).mutex := by
  unfold grantNext
  by_cases hi : i = n
  · subst hi
    rw [if_pos rfl]
    cases hqueue : (s.node i).mutex.requestQueue with
    | nil => rfl
    | cons r rest =>
        simp only [grantVote, mutex_send, mutex_setMutex_self]
  · rw [if_neg hi]
    split
    · rfl
    · simp only [grantVote, mutex_send, mutex_setMutex, if_neg hi]

theorem grantNext_voter (hvoter : ∀ i, i ≠ n → (s.node i).mutex.Voter)
    (hfree : (s.node n).mutex.voted = none)
    (hsent : (s.node n).mutex.inquireSent = false)
    (hsorted : (s.node n).mutex.requestQueue.Pairwise MaekawaRequest.KeyLe)
    (i : NodeId) : ((s.grantNext n).node i).mutex.Voter := by
  rw [mutex_grantNext]
  split
  · split
    · next hqueue =>
      refine ⟨fun _ => ⟨hqueue, hsent⟩, hsorted, fun _ x hx => ?_⟩
      rw [hfree] at hx
      cases hx
    · next r rest hqueue =>
      rw [hqueue] at hsorted
      exact MaekawaExclusion.voter_grant hsorted
  · next hi => exact hvoter i hi

private theorem handle_voter (h : ∀ i, (s.node i).mutex.Voter) (sender : NodeId)
    (msg : MaekawaMsg) (i : NodeId) :
    ((s.handle c sender n msg).node i).mutex.Voter := by
  cases msg with
  | request resource reqTs =>
      simp only [handle, handleRequest]
      split
      · next hfree =>
        obtain ⟨hqueue, -⟩ := (h n).free hfree
        have hsorted : ([⟨reqTs, sender, resource⟩] :
            List MaekawaRequest).Pairwise MaekawaRequest.KeyLe :=
          List.pairwise_singleton _ _
        simp only [grantVote, mutex_send, mutex_setMutex]
        split
        · have hvoter := MaekawaExclusion.voter_grant (m := (s.node n).mutex)
            hsorted
          exact hvoter.same rfl hqueue rfl
        · exact h i
      · next voted hvoted =>
        have hsome : (s.node n).mutex.voted ≠ none := by simp [hvoted]
        split
        · rw [mutex_send, mutex_setMutex]
          split
          · exact (h n).enqueued hsome (by simp)
          · exact h i
        · next hbest =>
          rw [mutex_send, mutex_setMutex]
          split
          · have hkept := @MaekawaExclusion.Voter.enqueued _ (h n)
              ⟨reqTs, sender, resource⟩ (s.node n).mutex.inquireSent hsome
            refine hkept fun hsent => ⟨hsent, fun x hx => ?_⟩
            obtain rfl : x = voted := by simpa [hvoted] using hx.symm
            refine MaekawaRequest.keyLe_of_not_before fun hbefore => hbest ?_
            exact ⟨by simp [hsent], hbefore⟩
          · exact h i
  | locked resource voter =>
      simp only [handle, handleLocked, mutex_setNode]
      split
      · exact (h n).same rfl rfl rfl
      · exact h i
  | failed resource => exact h i
  | inquire resource voter =>
      simp only [handle, handleInquire]
      split
      · simp only [node_setHandler, mutex_setMutex]
        split
        · exact (h n).same rfl rfl rfl
        · exact h i
      · exact h i
  | relinquish resource =>
      simp only [handle, handleRelinquish_grants]
      refine grantNext_voter (fun i hi => ?_) ?_ ?_ ?_ i
      · rw [mutex_setMutex, if_neg hi]
        exact h i
      · rw [mutex_setMutex_self]
        rfl
      · rw [mutex_setMutex_self]
        rfl
      · rw [mutex_setMutex_self]
        simp only [MaekawaExclusion.clearVote, returned]
        split
        · exact (h n).sorted
        · exact MaekawaExclusion.sorted_enqueue _ _
  | release resource =>
      simp only [handle, handleRelease_eq]
      refine grantNext_voter (fun i hi => ?_) ?_ ?_ ?_ i
      · rw [mutex_setMutex, if_neg hi]
        exact h i
      · rw [mutex_setMutex_self]
        rfl
      · rw [mutex_setMutex_self]
        rfl
      · rw [mutex_setMutex_self]
        exact (h n).sorted

theorem setNode_voter (h : ∀ i, (s.node i).mutex.Voter) {m : MaekawaNode}
    (hvoted : m.mutex.voted = (s.node n).mutex.voted)
    (hqueue : m.mutex.requestQueue = (s.node n).mutex.requestQueue)
    (hsent : m.mutex.inquireSent = (s.node n).mutex.inquireSent) (i : NodeId) :
    ((s.setNode n m).node i).mutex.Voter := by
  rw [mutex_setNode]
  split
  · exact (h n).same hvoted hqueue hsent
  · exact h i

theorem voter_step {a : MaekawaAction} (h : ∀ i, (s.node i).mutex.Voter)
    (hstep : s.step c a = some s') (i : NodeId) : (s'.node i).mutex.Voter := by
  cases step_cases hstep with
  | requestCs resource hn hidle => exact setNode_voter h (by rfl) (by rfl) (by rfl) i
  | sendRequest hcall hmem =>
      rw [mutex_send]
      exact setNode_voter h (by rfl) (by rfl) (by rfl) i
  | wait hcall => exact setNode_voter h (by rfl) (by rfl) (by rfl) i
  | enter hcall => exact setNode_voter h (by rfl) (by rfl) (by rfl) i
  | releaseCs hcall => exact setNode_voter h (by rfl) (by rfl) (by rfl) i
  | sendRelease hmem =>
      rw [mutex_send]
      exact setNode_voter h (by rfl) (by rfl) (by rfl) i
  | deliver hqueue hhandler => exact setNode_voter h (by rfl) (by rfl) (by rfl) i
  | @handle i' j msg htask =>
      exact handle_voter (s := s.setHandler i' j none) h i' msg i
  | sendRelinquish htask =>
      rw [mutex_send]
      exact h i
  | tick n receivedTime => exact setNode_voter h (by rfl) (by rfl) (by rfl) i

theorem waits_setNode (h : ∀ i, (s.node i).Waits (c.quorum i)) {m : MaekawaNode}
    (hm : m.Waits (c.quorum n)) (i : NodeId) :
    ((s.setNode n m).node i).Waits (c.quorum i) := by
  rw [node_setNode]
  split
  · next heq =>
    subst heq
    exact hm
  · exact h i

theorem waits_send (h : ∀ i, (s.node i).Waits (c.quorum i)) (target : NodeId)
    (msg : MaekawaMsg) (i : NodeId) :
    ((s.send n target msg).node i).Waits (c.quorum i) :=
  (h i).same (call_send s n target msg i) (by rw [mutex_send])
    (by rw [mutex_send]) (by rw [mutex_send])

theorem waits_setMutex (h : ∀ i, (s.node i).Waits (c.quorum i))
    {m : MaekawaExclusion} (hevent : m.csEvent = (s.node n).mutex.csEvent)
    (hheld : m.votesHeld = (s.node n).mutex.votesHeld)
    (hin : m.inCs = (s.node n).mutex.inCs) (i : NodeId) :
    ((s.setMutex n m).node i).Waits (c.quorum i) := by
  refine waits_setNode h ?_ i
  exact (h n).same rfl hevent hheld hin

theorem waits_grantNext (h : ∀ i, (s.node i).Waits (c.quorum i)) (i : NodeId) :
    ((s.grantNext n).node i).Waits (c.quorum i) := by
  unfold grantNext
  split
  · exact h i
  · refine waits_send (fun i => waits_setMutex (fun i => waits_setMutex h ?_ ?_ ?_ i)
      ?_ ?_ ?_ i) _ _ i
    all_goals rfl

private theorem waits_handle (h : ∀ i, (s.node i).Waits (c.quorum i))
    (hheld : ∀ v ∈ (s.node n).mutex.votesHeld, v ∈ c.quorum n) (sender : NodeId)
    (msg : MaekawaMsg) (i : NodeId) :
    ((s.handle c sender n msg).node i).Waits (c.quorum i) := by
  cases msg with
  | request resource reqTs =>
      simp only [handle, handleRequest]
      split
      · exact waits_send (fun i => waits_setMutex h (by rfl) (by rfl) (by rfl) i) _ _ i
      · split
        · exact waits_send (fun i => waits_setMutex h (by rfl) (by rfl) (by rfl) i) _ _ i
        · exact waits_send (fun i => waits_setMutex h (by rfl) (by rfl) (by rfl) i) _ _ i
  | locked resource voter =>
      refine waits_setNode h ?_ i
      obtain ⟨hblocked, hlacks, houtside⟩ := h n
      by_cases hcard :
          (c.quorum n).length ≤ (insert voter (s.node n).mutex.votesHeld).card
      · refine ⟨fun hwaiting => ?_, fun hwanting hevent => ?_, fun hin => ?_⟩
        · simp only [if_pos hcard] at hwaiting
          cases hcall : (s.node n).call <;>
            simp [hcall, MaekawaCall.wake] at hwaiting
        · simp [MaekawaExclusion.handleLocked, hcard] at hevent
        · simp only [if_pos hcard]
          exact wake_eq_inside.mpr (houtside hin)
      · refine ⟨fun hwaiting => ?_, fun hwanting hevent => ?_, fun hin => ?_⟩
        · simp only [if_neg hcard] at hwaiting
          simp [MaekawaExclusion.handleLocked, hcard, hblocked hwaiting]
        · -- Fewer votes than the quorum has nodes do not cover it.
          by_contra hall
          push Not at hall
          have hsub : (c.quorum n).toFinset ⊆
              insert voter (s.node n).mutex.votesHeld := fun v hv =>
            hall v (List.mem_toFinset.mp hv)
          have hle := Finset.card_le_card hsub
          rw [List.toFinset_card_of_nodup (c.distinct n)] at hle
          exact hcard hle
        · simp only [if_neg hcard]
          exact houtside hin
  | failed resource => exact h i
  | inquire resource voter =>
      simp only [handle, handleInquire]
      split
      · next hgives =>
        obtain ⟨hin, hmem⟩ : (s.node n).mutex.inCs = false ∧
            voter ∈ (s.node n).mutex.votesHeld := by
          simpa [MaekawaExclusion.gives] using hgives
        refine waits_setNode h ⟨?_, ?_, ?_⟩ i
        · exact fun _ => rfl
        · exact fun _ _ => ⟨voter, hheld voter hmem, Finset.notMem_erase _ _⟩
        · exact (h n).outside
      · exact h i
  | relinquish resource =>
      simp only [handle, handleRelinquish_grants]
      refine waits_grantNext (fun i => waits_setMutex h ?_ ?_ ?_ i) i
      all_goals
        simp only [MaekawaExclusion.clearVote, returned]
        split <;> rfl
  | release resource =>
      simp only [handle, handleRelease_eq]
      exact waits_grantNext (fun i => waits_setMutex h (by rfl) (by rfl) (by rfl) i) i

theorem waits_step {a : MaekawaAction} (h : ∀ i, (s.node i).Waits (c.quorum i))
    (hheld : ∀ i, ∀ v ∈ (s.node i).mutex.votesHeld, v ∈ c.quorum i)
    (hstep : s.step c a = some s') (i : NodeId) :
    (s'.node i).Waits (c.quorum i) := by
  cases step_cases hstep with
  | @requestCs n resource hn hidle =>
      obtain ⟨v, hv, -⟩ := c.intersect n hn n hn
      refine waits_setNode h ⟨?_, ?_, ?_⟩ i
      · exact fun hcall => (by cases hcall)
      · exact fun _ _ => ⟨v, hv, Finset.notMem_empty v⟩
      · exact fun hin => (by cases hin)
  | @sendRequest n target resource targets hcall hmem =>
      refine waits_send (fun i => waits_setNode h ⟨?_, ?_, ?_⟩ i) _ _ i
      · exact fun hcall => (by cases hcall)
      · exact fun _ => (h n).lacks (by simp [hcall, MaekawaCall.Wanting])
      · intro hin
        have hinside := (h n).outside hin
        rw [hcall] at hinside
        cases hinside
  | @wait n resource hcall =>
      refine waits_setNode h ⟨?_, ?_, ?_⟩ i
      · intro hwaiting
        by_contra hevent
        have hset : (s.node n).mutex.csEvent = true :=
          Bool.eq_true_of_not_eq_false hevent
        simp [hset] at hwaiting
      · exact fun _ => (h n).lacks (by simp [hcall, MaekawaCall.Wanting])
      · intro hin
        have hinside := (h n).outside hin
        rw [hcall] at hinside
        cases hinside
  | @enter n hcall =>
      refine waits_setNode h ⟨?_, ?_, ?_⟩ i
      · exact fun hcall => (by cases hcall)
      · exact fun hwanting => False.elim hwanting
      · exact fun _ => rfl
  | @releaseCs n hcall =>
      refine waits_setNode h ⟨?_, ?_, ?_⟩ i
      · exact fun hcall => (by cases hcall)
      · exact fun hwanting => False.elim hwanting
      · exact fun hin => (by cases hin)
  | @sendRelease n target resource hmem =>
      refine waits_send (fun i => waits_setNode h ?_ i) _ _ i
      exact (h n).same rfl rfl rfl rfl
  | @deliver i' j packet rest hqueue hhandler =>
      refine waits_setNode h ?_ i
      exact (h j).same rfl rfl rfl rfl
  | @handle i' j msg htask =>
      exact waits_handle (s := s.setHandler i' j none) h (hheld j) i' msg i
  | @sendRelinquish i' j voter resource htask =>
      exact waits_send (s := s.setHandler i' j none) h _ _ i
  | tick n receivedTime =>
      refine waits_setNode h ?_ i
      exact (h n).same rfl rfl rfl rfl

end MaekawaSystem

end DistributedMemory.Mutex
