import DistributedMemory.Mutex.MutexStep

/-!
# Requests that are given up

When `_cs_event.wait` times out, `request_cs` returns `False` and leaves the node
WANTED with the timestamp and the resource of the request.  Until its next call the
node goes on deferring the requests for this resource that come after its own, and
what it has deferred stays in its list.
-/

namespace DistributedMemory.Mutex

open DistributedMemory.Library DistributedMemory.Network

/-- A mutex call of node `i`. -/
def MutexAction.isCallOf (i : NodeId) : MutexAction → Bool
  | .requestCs j _ => j = i
  | .releaseCs j => j = i
  | _ => false

/-! ## The caller -/

/-- A node in `request_cs` is WANTED. -/
def MutexNode.Calling (n : MutexNode) : Prop :=
  n.call ≠ none → n.mutex.state = .wanted

theorem NodeEffect.calling {nodes : List NodeId} {packets : List MutexPacket}
    {i : NodeId} {n x : MutexNode} {a : MutexAction}
    (h : NodeEffect nodes packets i n a x) (hn : n.Calling) : x.Calling := by
  cases h with
  | request resource hi => exact fun _ => rfl
  | send hcall => exact fun _ => hn (by simp [hcall])
  | clock c hc hhandle hwake => exact hn
  | answer hmsg hreceiver hreply => exact hn
  | defer hp hstage hmsg hreceiver hreply => exact hn
  | count hmsg hreceiver => exact hn
  | wake hcall hevent => exact fun hsome => absurd rfl hsome
  | timeout hcall => exact fun hsome => absurd rfl hsome
  | release hcall => exact fun hsome => absurd hcall hsome

/-- Between its calls, with the request `ts` for `resource` given up. -/
structure MutexNode.GivenUp (resource : Option Resource) (ts : Nat)
    (n : MutexNode) : Prop where
  call : n.call = none
  wanted : n.mutex.state = .wanted
  requestTs : n.mutex.requestTs = ts
  requestResource : n.mutex.requestResource = resource

/-- The request is for another resource than the one given up at `i`, or it is
before that one. -/
def MutexPacket.Spared (resource : Option Resource) (ts : Nat) (i : NodeId)
    (p : MutexPacket) : Prop :=
  ∀ asked reqTs, p.msg = .request asked reqTs →
    some asked ≠ resource ∨ Before reqTs p.sender ts i

theorem MutexNode.GivenUp.sendsReply_iff {resource : Option Resource} {ts : Nat}
    {n : MutexNode} (h : n.GivenUp resource ts) {p : MutexPacket}
    {asked : Resource} {reqTs : Nat} (hmsg : p.msg = .request asked reqTs)
    (i : NodeId) :
    n.mutex.sendsReply i p.sender asked reqTs = true ↔ p.Spared resource ts i := by
  obtain ⟨-, hwanted, rfl, rfl⟩ := h
  simp only [RicartAgrawala.sendsReply, hwanted, MutexPacket.Spared, hmsg,
    MutexMsg.request.injEq, and_imp, Before]
  constructor
  · rintro h asked reqTs rfl rfl
    split at h
    · next hother => exact .inl hother
    · exact .inr (by simpa using h)
  · intro h
    split
    · rfl
    · next hsame =>
      simpa using (h asked reqTs rfl rfl).resolve_left hsame

private theorem NodeEffect.givenUp {nodes : List NodeId} {packets : List MutexPacket}
    {i : NodeId} {n x : MutexNode} {a : MutexAction} {resource : Option Resource}
    {ts : Nat} (h : NodeEffect nodes packets i n a x)
    (hcall : a.isCallOf i = false) (hn : n.GivenUp resource ts) :
    x.GivenUp resource ts ∧ (x.mutex.deferred = [] ↔ n.mutex.deferred = [] ∧
      ∀ p, a = .handle p → p.receiver = i → p.Spared resource ts i) := by
  cases h with
  | request => simp [MutexAction.isCallOf] at hcall
  | send hsome => simp [hn.call] at hsome
  | clock c hc hhandle => exact ⟨⟨hn.1, hn.2, hn.3, hn.4⟩, by simp [hhandle]⟩
  | answer hmsg hreceiver hreply =>
      have hspared := (hn.sendsReply_iff hmsg i).mp hreply
      refine ⟨hn, ⟨fun hnil => ⟨hnil, ?_⟩, And.left⟩⟩
      rintro q ⟨⟩ -
      exact hspared
  | @defer p asked reqTs hp hstage hmsg hreceiver hreply =>
      have hhindered : ¬ p.Spared resource ts i := by
        rw [← hn.sendsReply_iff hmsg i, hreply]
        decide
      refine ⟨⟨hn.1, hn.2, hn.3, hn.4⟩, ?_, ?_⟩
      · simp [RicartAgrawala.defer]
      · rintro ⟨-, hall⟩
        exact absurd (hall p rfl hreceiver) hhindered
  | count hmsg hreceiver =>
      refine ⟨⟨hn.1, hn.2, hn.3, hn.4⟩, ⟨fun hnil => ⟨hnil, ?_⟩, And.left⟩⟩
      rintro q ⟨⟩ -
      simp [MutexPacket.Spared, hmsg]
  | wake hsome => simp [hn.call] at hsome
  | timeout hsome => simp [hn.call] at hsome
  | release => simp [MutexAction.isCallOf] at hcall

namespace MutexSystem

variable {nodes : List NodeId} {s s' t : MutexSystem} {a : MutexAction}
  {i : NodeId} {resource : Option Resource} {ts : Nat}

private theorem step_calling (h : ∀ i, (s.node i).Calling)
    (hstep : s.step nodes a = some s') (i : NodeId) : (s'.node i).Calling := by
  obtain ⟨j, x, heffect, hnode⟩ := step_effect hstep
  rw [hnode]
  by_cases hij : i = j
  · subst hij
    rw [Function.update_self]
    exact heffect.calling (h i)
  · rw [Function.update_of_ne hij]
    exact h i

private theorem step_givenUp (h : (s.node i).GivenUp resource ts)
    (hcall : a.isCallOf i = false) (hstep : s.step nodes a = some s') :
    (s'.node i).GivenUp resource ts ∧
      ((s'.node i).mutex.deferred = [] ↔ (s.node i).mutex.deferred = [] ∧
        ∀ p, a = .handle p → p.receiver = i → p.Spared resource ts i) := by
  obtain ⟨j, x, heffect, hnode⟩ := step_effect hstep
  rw [hnode]
  by_cases hij : i = j
  · subst hij
    rw [Function.update_self]
    exact heffect.givenUp hcall h
  · rw [Function.update_of_ne hij]
    refine ⟨h, ⟨fun hnil => ⟨hnil, ?_⟩, And.left⟩⟩
    rintro p rfl hreceiver
    -- the packet of a step that changes `j` is one for `j`
    have hj : p.receiver = j := by
      cases heffect with
      | clock c hc hhandle => exact absurd rfl (hhandle p)
      | answer hmsg hj hreply => exact hj
      | defer hp hstage hmsg hj hreply => exact hj
      | count hmsg hj => exact hj
    exact absurd (hreceiver.symm.trans hj) hij

private theorem run_givenUp {actions : List MutexAction}
    (h : (s.node i).GivenUp resource ts)
    (hidle : ∀ a ∈ actions, a.isCallOf i = false)
    (hrun : run (step nodes) s actions = some t) :
    (t.node i).mutex.deferred = [] ↔ (s.node i).mutex.deferred = [] ∧
      ∀ p, .handle p ∈ actions → p.receiver = i → p.Spared resource ts i := by
  induction actions generalizing s with
  | nil =>
      cases hrun
      simp
  | cons a rest ih =>
      obtain ⟨s', hstep, hrest⟩ := run_cons.mp hrun
      obtain ⟨h', hdeferred⟩ := step_givenUp h (hidle a (by simp)) hstep
      have hlater := ih h' (fun b hb => hidle b (List.mem_cons_of_mem a hb)) hrest
      rw [hlater, hdeferred]
      simp only [List.mem_cons, or_imp, forall_and, eq_comm, and_assoc]

/-- In every state after a `request_cs` of `i` timed out, its last mutex call so
far, the list of `i` is empty exactly when it was at the timeout and every request
that `i` has handled since is for another resource or before the one given up. -/
theorem run_timeout_deferred_iff {before after : List MutexAction}
    {s s₁ t : MutexSystem} {i : NodeId}
    (hbefore : run (step nodes) new before = some s)
    (htimeout : s.step nodes (.timeout i) = some s₁)
    (hidle : ∀ a ∈ after, a.isCallOf i = false)
    (hafter : run (step nodes) s₁ after = some t) :
    (t.node i).mutex.deferred = [] ↔ (s.node i).mutex.deferred = [] ∧
      ∀ p, .handle p ∈ after → p.receiver = i →
        p.Spared (s.node i).mutex.requestResource (s.node i).mutex.requestTs i := by
  have hcalling : ∀ i, (s.node i).Calling :=
    run_preserves (I := fun s => ∀ i, (s.node i).Calling)
      (fun s a s' h hstep => step_calling h hstep)
      (fun i hsome => absurd rfl hsome) hbefore
  simp only [MutexSystem.step] at htimeout
  split at htimeout
  · next resource hcall =>
    cases htimeout
    have hwanted := hcalling i (by simp [hcall])
    have hgivenUp : ((s.setNode i { s.node i with call := none }).node i).GivenUp
        (s.node i).mutex.requestResource (s.node i).mutex.requestTs := by
      simp only [setNode, Function.update_self]
      exact ⟨rfl, hwanted, rfl, rfl⟩
    have hall := run_givenUp hgivenUp hidle hafter
    simpa only [setNode, Function.update_self] using hall
  · cases htimeout

/-- Node 0 asks node 1, and the answer comes after the timeout. -/
def askedOnce : List MutexAction := [.requestCs 0 "x", .sendRequest 0]

/-- Node 1 answers, and asks for `resource` itself. -/
def answeredLate (resource : Resource) : List MutexAction :=
  [.dispatch ⟨0, 1, .request "x" 1, .sent 2⟩,
    .handle ⟨0, 1, .request "x" 1, .received⟩,
    .sendReply ⟨1, 0, .reply "x", .outgoing⟩,
    .dispatch ⟨1, 0, .reply "x", .sent 4⟩,
    .handle ⟨1, 0, .reply "x", .received⟩,
    .requestCs 1 resource, .sendRequest 1,
    .dispatch ⟨1, 0, .request resource 5, .sent 6⟩,
    .handle ⟨1, 0, .request resource 5, .received⟩]

theorem answeredLate_other_deferred :
    ∃ t, run (step [0, 1]) new
        (askedOnce ++ .timeout 0 :: answeredLate "y") = some t ∧
      (t.node 0).mutex.deferred = [] := by
  have hview : (run (step [0, 1]) new
      (askedOnce ++ .timeout 0 :: answeredLate "y")).isSome = true := by
    decide +kernel
  obtain ⟨t, hrun⟩ := Option.isSome_iff_exists.mp hview
  obtain ⟨s, hbefore, hrest⟩ := run_append.mp hrun
  obtain ⟨s₁, htimeout, hafter⟩ := run_cons.mp hrest
  have hasked : ((s.node 0).mutex.requestResource, (s.node 0).mutex.deferred) =
      (some "x", []) := by
    have hs : (run (step [0, 1]) new askedOnce).map
        (fun s => ((s.node 0).mutex.requestResource,
          (s.node 0).mutex.deferred)) = some (some "x", []) := by
      decide +kernel
    rw [hbefore] at hs
    exact Option.some.inj hs
  obtain ⟨hresource, hnil⟩ := Prod.mk.inj hasked
  refine ⟨t, hrun, (run_timeout_deferred_iff hbefore htimeout
    (by decide) hafter).mpr ⟨hnil, ?_⟩⟩
  intro p hp hreceiver asked reqTs hmsg
  left
  rw [hresource]
  simp only [answeredLate, List.mem_cons, List.not_mem_nil, or_false, reduceCtorEq,
    false_or, MutexAction.handle.injEq] at hp
  obtain rfl | rfl | rfl := hp
  · exact absurd hreceiver (by decide)
  · cases hmsg
  · cases hmsg
    decide

/-- With no message on its way, the request that node 1 makes long after the
timeout is still held back by node 0, which makes no further call. -/
theorem answeredLate_same_deferred :
    ∃ t, run (step [0, 1]) new
        (askedOnce ++ .timeout 0 :: answeredLate "x") = some t ∧
      (∀ a ∈ answeredLate "x", a.isCallOf 0 = false) ∧ t.packets = [] ∧
      (t.node 0).mutex.deferred = [(1, "x")] := by
  have hview : (run (step [0, 1]) new
      (askedOnce ++ .timeout 0 :: answeredLate "x")).map
        (fun t => (t.packets, (t.node 0).mutex.deferred)) =
      some ([], [(1, "x")]) := by
    decide +kernel
  obtain ⟨t, hrun, hpair⟩ := Option.map_eq_some_iff.mp hview
  obtain ⟨hpackets, hdeferred⟩ := Prod.mk.inj hpair
  exact ⟨t, hrun, by decide, hpackets, hdeferred⟩

end MutexSystem

end DistributedMemory.Mutex
