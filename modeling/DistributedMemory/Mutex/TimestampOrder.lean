import DistributedMemory.Mutex.MutexStep

/-!
# Entries in timestamp order

The history of a run lists the entries into the critical sections, with the
requests that they serve.  After an entry every request for the same resource comes
after the one that was served, wherever it is made.
-/

namespace DistributedMemory.Mutex

open DistributedMemory.Library DistributedMemory.Network

/-- A node that became HELD, and the request with which it did. -/
structure Entry where
  resource : Option Resource
  requestTs : Nat
  nodeId : NodeId
  deriving DecidableEq

structure EntrySystem where
  system : MutexSystem
  entries : List Entry

/-- The request with which node `i` enters. -/
def MutexSystem.entry (s : MutexSystem) (i : NodeId) : Entry :=
  ⟨(s.node i).mutex.requestResource, (s.node i).mutex.requestTs, i⟩

/-- The pair of `e` is smaller than that of `e'`. -/
def Entry.Before (e e' : Entry) : Prop :=
  Mutex.Before e.requestTs e.nodeId e'.requestTs e'.nodeId

instance (e e' : Entry) : Decidable (e.Before e') :=
  inferInstanceAs (Decidable (_ ∨ _ ∧ _))

namespace EntrySystem

def new : EntrySystem := ⟨.new, []⟩

/-- The last `wake` comes last. -/
def record (t : EntrySystem) : MutexAction → List Entry
  | .wake i => t.entries ++ [t.system.entry i]
  | _ => t.entries

def step (nodes : List NodeId) (t : EntrySystem) (a : MutexAction) :
    Option EntrySystem :=
  (t.system.step nodes a).map fun system => ⟨system, t.record a⟩

def entriesOf (t : EntrySystem) (resource : Resource) : List Entry :=
  t.entries.filter (·.resource = some resource)

end EntrySystem

/-! ## After an entry -/

/-- Node `k` knows of the request that was served, as far as its clock and its own
request go. -/
structure Entry.Passed (e : Entry) (k : NodeId) (n : MutexNode) : Prop where
  clock : e.requestTs ≤ n.clock.time
  request : n.mutex.state ≠ .released → n.mutex.requestResource = e.resource →
    Mutex.Before e.requestTs e.nodeId n.mutex.requestTs k ∨
      n.mutex.state = .held

theorem Entry.Passed.step {e : Entry} {nodes : List NodeId}
    {packets : List MutexPacket} {k : NodeId} {n x : MutexNode}
    (h : e.Passed k n) (hstep : NodeStep nodes packets k n x) :
    e.Passed k x := by
  have hclock := h.clock
  cases hstep with
  | request resource hi hreleased =>
      refine ⟨Nat.le_succ_of_le hclock, fun _ _ => .inl (.inl ?_)⟩
      exact Nat.lt_succ_of_le hclock
  | send hcall => exact ⟨Nat.le_succ_of_le hclock, h.request⟩
  | clock c hc => exact ⟨Nat.le_trans hclock hc, h.request⟩
  | defer hp hmsg hstage hreceiver hdefer => exact ⟨hclock, h.request⟩
  | count sender => exact ⟨hclock, h.request⟩
  | wake hwanted hevent => exact ⟨hclock, fun _ _ => .inr rfl⟩
  | release hheld => exact ⟨hclock, fun hactive => absurd rfl hactive⟩

namespace EntrySystem

structure Inv (nodes : List NodeId) (t : EntrySystem) : Prop where
  system : t.system.Inv nodes
  configured : ∀ k, (t.system.node k).mutex.state ≠ .released → k ∈ nodes
  ordered : ∀ resource, (t.entriesOf resource).Pairwise Entry.Before
  passed : ∀ e ∈ t.entries, ∀ k ∈ nodes, e.Passed k (t.system.node k)

theorem inv_new (nodes : List NodeId) : new.Inv nodes where
  system := MutexSystem.inv_new nodes
  configured k hactive := absurd rfl hactive
  ordered resource := List.Pairwise.nil
  passed e he := by cases he

variable {nodes : List NodeId} {t : EntrySystem}

private theorem Inv.passed_entry (h : t.Inv nodes) {i : NodeId}
    (hwanted : (t.system.node i).mutex.state = .wanted)
    (hevent : (t.system.node i).mutex.csEvent = true) {k : NodeId}
    (hk : k ∈ nodes) (hne : k ≠ i) :
    (t.system.entry i).Passed k (t.system.node k) := by
  have hactive : (t.system.node i).mutex.state ≠ .released := by
    rw [hwanted]
    decide
  have hpermits := h.system.granted i k
    (h.system.granted_all hactive hevent hk (Ne.symm hne))
  refine ⟨Nat.le_of_lt hpermits.later, fun hactive' hsame => .inl ?_⟩
  exact hpermits.ordered hactive' hsame

theorem Inv.step (h : t.Inv nodes) (hnodup : nodes.Nodup) {t' : EntrySystem}
    {a : MutexAction} (hok : t.system.wellBehaved a = true)
    (hstep : t.step nodes a = some t') : t'.Inv nodes := by
  obtain ⟨system, hsystem, rfl⟩ := Option.map_eq_some_iff.mp hstep
  obtain ⟨i, x, hx, hnode, hwake⟩ := h.system.exists_nodeStep hok hsystem
  have hconfigured : ∀ k, (system.node k).mutex.state ≠ .released →
      k ∈ nodes := by
    intro k hactive
    rw [hnode] at hactive
    by_cases hk : k = i
    · subst hk
      rw [Function.update_self] at hactive
      exact hx.configured (h.configured k) hactive
    · rw [Function.update_of_ne hk] at hactive
      exact h.configured k hactive
  have hpassed : ∀ e ∈ t.entries, ∀ k ∈ nodes, e.Passed k (system.node k) := by
    intro e he k hk
    rw [hnode]
    by_cases hki : k = i
    · subst hki
      rw [Function.update_self]
      exact (h.passed e he k hk).step hx
    · rw [Function.update_of_ne hki]
      exact h.passed e he k hk
  have hinv := h.system.step hnodup hok hsystem
  rcases hwake with hother | ⟨rfl, hwanted, hevent, hclock, hheld⟩
  · have hentries : t.record a = t.entries := by
      cases a with
      | wake j => exact absurd rfl (hother j)
      | _ => rfl
    rw [hentries]
    exact ⟨hinv, hconfigured, h.ordered, hpassed⟩
  · have hactive : (t.system.node i).mutex.state ≠ .released := by
      rw [hwanted]
      decide
    have hi := h.configured i hactive
    refine ⟨hinv, hconfigured, fun resource => ?_, fun e he k hk => ?_⟩
    · simp only [entriesOf, record, List.filter_append]
      refine List.pairwise_append.mpr ⟨h.ordered resource,
        (List.pairwise_singleton _ _).filter _, fun e he e' he' => ?_⟩
      obtain ⟨he, hres⟩ := List.mem_filter.mp he
      obtain ⟨he', hres'⟩ := List.mem_filter.mp he'
      obtain rfl := List.mem_singleton.mp he'
      have hsame : (t.system.node i).mutex.requestResource = e.resource :=
        (of_decide_eq_true hres').trans (of_decide_eq_true hres).symm
      rcases (h.passed e he i hi).request hactive hsame with hbefore | hinside
      · exact hbefore
      · rw [hwanted] at hinside
        cases hinside
    · rcases List.mem_append.mp he with he | he
      · exact hpassed e he k hk
      · obtain rfl := List.mem_singleton.mp he
        rw [hnode]
        by_cases hki : k = i
        · subst hki
          rw [Function.update_self]
          refine ⟨?_, fun _ _ => .inr hheld⟩
          rw [hclock]
          exact (h.system.node k).stamped hactive
        · rw [Function.update_of_ne hki]
          exact h.passed_entry hwanted hevent hk hki

/-- The entries for each resource have increasing timestamps, and increasing nodes
where the timestamps are equal. -/
theorem run_timestampOrder (nodes : List NodeId) (hnodup : nodes.Nodup)
    (actions : List MutexAction) (t : EntrySystem)
    (hrun : run (step nodes) new actions = some t)
    (hbehaved : Along (step nodes)
      (fun t a => t.system.wellBehaved a = true) new actions)
    (resource : Resource) :
    (t.entriesOf resource).Pairwise Entry.Before := by
  have h : t.Inv nodes :=
    run_invariant (fun _ _ _ h hok hstep => h.step hnodup hok hstep)
      (inv_new nodes) hbehaved hrun
  exact h.ordered resource

/-- Nodes 1 and 2 ask at the same time, and enter one after the other. -/
def takingTurns : List MutexAction :=
  MutexSystem.crossingRequests ++
    [.wake 1, .releaseCs 1, .sendReply ⟨1, 2, .reply "x", .outgoing⟩,
      .dispatch ⟨1, 2, .reply "x", .sent 6⟩,
      .handle ⟨1, 2, .reply "x", .received⟩, .wake 2]

theorem takingTurns_ordered :
    ∃ t, run (step [1, 2]) new takingTurns = some t ∧
      t.entriesOf "x" = [⟨some "x", 1, 1⟩, ⟨some "x", 1, 2⟩] ∧
      (t.entriesOf "x").Pairwise Entry.Before := by
  have hview : (run (step [1, 2]) new takingTurns).map (·.entriesOf "x") =
      some [⟨some "x", 1, 1⟩, ⟨some "x", 1, 2⟩] := by
    decide +kernel
  have hbehaved : Along (step [1, 2])
      (fun t a => t.system.wellBehaved a = true) new takingTurns := by
    decide +kernel
  obtain ⟨t, ht, hentries⟩ := Option.map_eq_some_iff.mp hview
  exact ⟨t, ht, hentries, run_timestampOrder [1, 2] (by decide) takingTurns t ht
    hbehaved "x"⟩

end EntrySystem

end DistributedMemory.Mutex
