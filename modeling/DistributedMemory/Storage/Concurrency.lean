import DistributedMemory.Storage.LockSafety

/-!
# Lock requests with a timeout

`ConcurrencyControl` puts a wait around the lock manager.  A call of `_acquire`
goes through its first attempt, the registration of its event, the wait, the
removal of the event and its second attempt one step at a time, and a call of
`release_all` sets the events of the granted transactions one after the other;
other threads run between any two of these steps.  A call that gives up removes
its event, but nothing takes its request out of the lock table.
-/

namespace DistributedMemory.Storage

open DistributedMemory.Library

/-- The arguments of `_acquire`. -/
structure LockRequest where
  txnId : TxnId
  resource : Resource
  lockType : LockType
  deriving DecidableEq, Repr

/-- Where a thread stands.  `denied` is after a refused first attempt, `leaving`
after the wait with its result, `releasing` in the loop of `release_all` with
the event keys that are left. -/
inductive LockThread where
  | idle
  | denied (request : LockRequest)
  | waiting (request : LockRequest)
  | leaving (request : LockRequest) (success : Bool)
  | retrying (request : LockRequest)
  | returned (request : LockRequest) (granted : Bool)
  | releasing (pending : List (TxnId × Resource))
  deriving DecidableEq, Repr

def LockThread.isFree : LockThread → Bool
  | .idle => true
  | .returned _ _ => true
  | .releasing [] => true
  | _ => false

/-- An event is named by the thread that waits for it. -/
structure ConcurrencyControl where
  lockManager : LockManager
  waitEvents : Dict (TxnId × Resource) ThreadId
  signalled : Finset ThreadId
  threads : ThreadId → LockThread

inductive ConcurrencyAction where
  | acquire (i : ThreadId) (request : LockRequest)
  | register (i : ThreadId)
  | wake (i : ThreadId)
  | timeout (i : ThreadId)
  | unregister (i : ThreadId)
  | retry (i : ThreadId)
  | releaseAll (i : ThreadId) (t : TxnId) (order : List Resource)
  | notify (i : ThreadId)
  | notifyReleased (resource : Resource)
  deriving DecidableEq, Repr

namespace ConcurrencyControl

def new : ConcurrencyControl := ⟨.new, .empty, ∅, fun _ => .idle⟩

def setThread (c : ConcurrencyControl) (i : ThreadId) (thread : LockThread) :
    ConcurrencyControl :=
  { c with threads := Function.update c.threads i thread }

/-- `LockManager.acquire` for a request; `otherwise` is where a refusal leads. -/
def attempt (c : ConcurrencyControl) (i : ThreadId) (request : LockRequest)
    (otherwise : LockThread) : ConcurrencyControl :=
  let (lm, granted) := c.lockManager.acquire request.txnId request.resource
    request.lockType
  { c with lockManager := lm }.setThread i
    (if granted then .returned request true else otherwise)

def eventKeys (granted : List (Resource × List TxnId)) :
    List (TxnId × Resource) :=
  granted.flatMap fun item => item.2.map fun t => (t, item.1)

/-- The events of `notify_released`. -/
def waitersOf (c : ConcurrencyControl) (resource : Resource) :
    List ThreadId :=
  (c.waitEvents.items.filter fun item => item.1.2 = resource).map Prod.snd

@[simp] theorem attempt_lockManager (c : ConcurrencyControl) (i : ThreadId)
    (request : LockRequest) (otherwise : LockThread) :
    (c.attempt i request otherwise).lockManager =
      (c.lockManager.acquire request.txnId request.resource
        request.lockType).1 := rfl

private theorem attempt_thread (c : ConcurrencyControl) (i : ThreadId)
    (request : LockRequest) (otherwise : LockThread) :
    (c.attempt i request otherwise).threads i =
      if (c.lockManager.acquire request.txnId request.resource
          request.lockType).2 then .returned request true
      else otherwise :=
  Function.update_self _ _ _

def step (c : ConcurrencyControl) :
    ConcurrencyAction → Option ConcurrencyControl
  | .acquire i request =>
      if (c.threads i).isFree then some (c.attempt i request (.denied request))
      else none
  | .register i =>
      match c.threads i with
      | .denied request =>
          some ({ c with
            waitEvents := c.waitEvents.set (request.txnId, request.resource) i
            signalled := c.signalled.erase i }.setThread i (.waiting request))
      | _ => none
  | .wake i =>
      match c.threads i with
      | .waiting request =>
          if i ∈ c.signalled then some (c.setThread i (.leaving request true))
          else none
      | _ => none
  | .timeout i =>
      match c.threads i with
      | .waiting request => some (c.setThread i (.leaving request false))
      | _ => none
  | .unregister i =>
      match c.threads i with
      | .leaving request success =>
          some ({ c with
            waitEvents := c.waitEvents.pop
              (request.txnId, request.resource) }.setThread i
              (if success then .retrying request else .returned request false))
      | _ => none
  | .retry i =>
      match c.threads i with
      | .retrying request =>
          some (c.attempt i request (.returned request false))
      | _ => none
  | .releaseAll i t order =>
      if (c.threads i).isFree ∧ c.lockManager.Iterates t order then
        let (lm, granted) := c.lockManager.releaseAll t order
        some ({ c with lockManager := lm }.setThread i
          (.releasing (eventKeys granted)))
      else none
  | .notify i =>
      match c.threads i with
      | .releasing (key :: rest) =>
          let signalled :=
            match c.waitEvents.get? key with
            | none => c.signalled
            | some j => insert j c.signalled
          some ({ c with signalled := signalled }.setThread i (.releasing rest))
      | _ => none
  | .notifyReleased resource =>
      some { c with
        signalled := c.signalled ∪ (c.waitersOf resource).toFinset }

end ConcurrencyControl

/-! ## What a refused request leaves in the lock table -/

private theorem LockEntry.drop_waiter {e : LockEntry} {t u : TxnId} (hne : t ≠ u)
    (ht : e.Queues t) :
    (e.drop u).1.Queues t ∨ (t ∉ e.holders ∧ t ∈ (e.drop u).1.holders) := by
  by_cases held : t ∈ e.holders
  · left
    have hbusy : e.holders.erase u ≠ ∅ :=
      Finset.ne_empty_of_mem (Finset.mem_erase.mpr ⟨hne, held⟩)
    unfold LockEntry.drop
    dsimp only
    rw [if_neg hbusy]
    exact ht
  · rcases (LockEntry.drop_mentions e u t).mpr (.inr ht) with hholder | hqueue
    · exact .inr ⟨held, hholder⟩
    · exact .inl hqueue

namespace LockManager

/-- Since the table was `before`, `t` has kept what it held of `r`, and it waits
for `r` or holds it in a stronger mode. -/
structure Marked (before lm : LockManager) (t : TxnId) (r : Resource) :
    Prop where
  kept : ∀ lt, before.Holds t r lt → lm.Holds t r lt
  mark : (lm.entry r).Queues t ∨
    ∃ lt, lm.Holds t r lt ∧ ¬ before.Holds t r lt

/-- What the source should leave behind when `_acquire` returns `False`: no
request in the queue, and no stronger mode than before. -/
def NoTrace (before lm : LockManager) (t : TxnId) (r : Resource) : Prop :=
  ¬ (lm.entry r).Queues t ∧ ∀ lt, lm.Holds t r lt → before.Holds t r lt

private theorem Marked.not_noTrace {before lm : LockManager} {t : TxnId}
    {r : Resource} (h : Marked before lm t r) : ¬ NoTrace before lm t r := by
  rintro ⟨hqueue, hmode⟩
  rcases h.mark with hqueued | ⟨lt, held, hnew⟩
  · exact hqueue hqueued
  · exact hnew (hmode lt held)

private theorem marked_of_refused {lm : LockManager} {t : TxnId} {r : Resource}
    {lt : LockType} (h : (lm.acquire t r lt).2 = false) :
    Marked lm (lm.acquire t r lt).1 t r := by
  obtain ⟨e, granted, hacq, hrw⟩ := lm.acquire_spec t r lt
  refine ⟨fun lt' held => held.acquires hacq hrw, .inl ?_⟩
  rw [h] at hacq
  rw [hrw.here]
  cases hacq with
  | queued busy blocked =>
      exact (LockEntry.queues_enqueue _ t t lt).mpr (.inr rfl)

section Keeping

variable {before lm : LockManager} {t u : TxnId} {r r' : Resource}
  {lt : LockType} {order : List Resource}

theorem Marked.acquire (h : Marked before lm t r) :
    Marked before (lm.acquire u r' lt).1 t r := by
  obtain ⟨e, granted, hacq, hrw⟩ := lm.acquire_spec u r' lt
  constructor
  · exact fun lt' held => (h.kept lt' held).acquires hacq hrw
  · rcases h.mark with hqueue | ⟨lt', held, hnew⟩
    · left
      rw [hrw.entry]
      split
      · next heq =>
        subst heq
        exact hacq.queues hqueue
      · exact hqueue
    · exact .inr ⟨lt', held.acquires hacq hrw, hnew⟩

theorem Marked.releaseAll (hvalid : lm.Valid) (horder : lm.Iterates u order)
    (hne : t ≠ u) (h : Marked before lm t r) :
    Marked before (lm.releaseAll u order).1 t r := by
  constructor
  · exact fun lt' held => (h.kept lt' held).releaseAll hvalid horder.1 hne
  · rcases h.mark with hqueue | ⟨lt', held, hnew⟩
    · have hentry := releaseAll_entry hvalid.keyed u horder.1 r
      by_cases hr : r ∈ order
      · rw [if_pos hr] at hentry
        rcases LockEntry.drop_waiter hne hqueue with hqueue | ⟨hfree, held⟩
        · exact .inl (hentry ▸ hqueue)
        · refine .inr ⟨.shared, ?_, fun hbefore => ?_⟩
          · unfold Holds
            rw [hentry]
            exact ⟨held, by simp⟩
          · exact hfree (h.kept .shared hbefore).held
      · rw [if_neg hr] at hentry
        exact .inl (hentry ▸ hqueue)
    · exact .inr ⟨lt', held.releaseAll hvalid horder.1 hne, hnew⟩

end Keeping

end LockManager

namespace ConcurrencyControl

/-! ## One step -/

inductive Effect (lm : LockManager) (a : ConcurrencyAction) :
    LockManager → Prop where
  | same : Effect lm a lm
  | acquired (t : TxnId) (r : Resource) (lt : LockType) :
      Effect lm a (lm.acquire t r lt).1
  | released (i : ThreadId) (t : TxnId) (order : List Resource)
      (haction : a = .releaseAll i t order) (horder : lm.Iterates t order) :
      Effect lm a (lm.releaseAll t order).1

section Step

variable {c c' : ConcurrencyControl} {a : ConcurrencyAction}

theorem step_effect (hstep : step c a = some c') :
    Effect c.lockManager a c'.lockManager := by
  cases a with
  | acquire i request =>
      obtain ⟨-, heq⟩ := Option.ite_none_right_eq_some.mp hstep
      obtain rfl := Option.some.inj heq
      exact .acquired _ _ _
  | releaseAll i t order =>
      obtain ⟨⟨-, horder⟩, heq⟩ := Option.ite_none_right_eq_some.mp hstep
      obtain rfl := Option.some.inj heq
      exact .released i t order rfl horder
  | notifyReleased resource =>
      obtain rfl := Option.some.inj hstep
      exact .same
  | retry i =>
      simp only [step] at hstep
      split at hstep
      · obtain rfl := Option.some.inj hstep
        exact .acquired _ _ _
      · cases hstep
  | wake i =>
      simp only [step] at hstep
      split at hstep
      · obtain ⟨-, heq⟩ := Option.ite_none_right_eq_some.mp hstep
        obtain rfl := Option.some.inj heq
        exact .same
      · cases hstep
  | register i | timeout i | unregister i | notify i =>
      simp only [step] at hstep
      split at hstep
      · obtain rfl := Option.some.inj hstep
        exact .same
      · cases hstep

private theorem returned_stays (hstep : step c a = some c') {i : ThreadId}
    {request : LockRequest} {granted : Bool}
    (hreturned : c.threads i = .returned request granted)
    (hcall : (∀ request, a ≠ .acquire i request) ∧
      ∀ t order, a ≠ .releaseAll i t order) :
    c'.threads i = .returned request granted := by
  have hother {j : ThreadId} {thread : LockThread} (hj : j ≠ i)
      {d : ConcurrencyControl} (hthreads : d.threads = c.threads) :
      (d.setThread j thread).threads i = .returned request granted := by
    change Function.update d.threads j thread i = _
    rw [Function.update_of_ne hj.symm, hthreads, hreturned]
  cases a with
  | acquire j request' =>
      obtain ⟨-, heq⟩ := Option.ite_none_right_eq_some.mp hstep
      obtain rfl := Option.some.inj heq
      exact hother (fun hj => hcall.1 request' (by rw [hj])) rfl
  | releaseAll j t order =>
      obtain ⟨-, heq⟩ := Option.ite_none_right_eq_some.mp hstep
      obtain rfl := Option.some.inj heq
      exact hother (fun hj => hcall.2 t order (by rw [hj])) rfl
  | notifyReleased resource =>
      obtain rfl := Option.some.inj hstep
      exact hreturned
  | wake j =>
      simp only [step] at hstep
      split at hstep
      · next hthread =>
        obtain ⟨-, heq⟩ := Option.ite_none_right_eq_some.mp hstep
        obtain rfl := Option.some.inj heq
        exact hother (by rintro rfl; simp [hreturned] at hthread) rfl
      · cases hstep
  | register j | timeout j | unregister j | notify j | retry j =>
      simp only [step] at hstep
      split at hstep
      · next hthread =>
        obtain rfl := Option.some.inj hstep
        exact hother (by rintro rfl; simp [hreturned] at hthread) rfl
      · cases hstep

theorem valid_step (hvalid : c.lockManager.Valid)
    (hstep : step c a = some c') : c'.lockManager.Valid := by
  have heffect := step_effect hstep
  generalize c'.lockManager = lm' at heffect ⊢
  cases heffect with
  | same => exact hvalid
  | acquired t r lt =>
      obtain ⟨e, granted, hacq, hrw⟩ := c.lockManager.acquire_spec t r lt
      exact hvalid.acquires hacq hrw
  | released i t order haction horder => exact hvalid.releaseAll horder.1

end Step

/-! ## A call that returns `False` -/

/-- The action is a new call of thread `i`, or takes locks away from `t`. -/
def Interferes (i : ThreadId) (t : TxnId) : ConcurrencyAction → Prop
  | .acquire j _ => j = i
  | .releaseAll j u _ => j = i ∨ u = t
  | _ => False

/-- During a call: it has been granted, or its transaction is marked. -/
structure Calling (before : LockManager) (i : ThreadId) (request : LockRequest)
    (c : ConcurrencyControl) : Prop where
  valid : c.lockManager.Valid
  marked : c.threads i = .returned request true ∨
    LockManager.Marked before c.lockManager request.txnId request.resource

theorem Calling.step {before : LockManager} {i : ThreadId}
    {request : LockRequest} {c c' : ConcurrencyControl} {a : ConcurrencyAction}
    (h : Calling before i request c) (hquiet : ¬ Interferes i request.txnId a)
    (hstep : step c a = some c') : Calling before i request c' := by
  refine ⟨valid_step h.valid hstep, ?_⟩
  rcases h.marked with hreturned | hmarked
  · left
    apply returned_stays hstep hreturned
    constructor
    · rintro request' rfl
      exact hquiet rfl
    · rintro t order rfl
      exact hquiet (.inl rfl)
  · right
    have heffect := step_effect hstep
    generalize c'.lockManager = lm' at heffect ⊢
    cases heffect with
    | same => exact hmarked
    | acquired t r lt => exact hmarked.acquire
    | released j t order haction horder =>
        apply hmarked.releaseAll h.valid horder
        rintro rfl
        subst haction
        exact hquiet (.inr rfl)

private theorem calling_of_acquire {c c' : ConcurrencyControl} {i : ThreadId}
    {request : LockRequest} (hvalid : c.lockManager.Valid)
    (hstep : step c (.acquire i request) = some c') :
    Calling c.lockManager i request c' := by
  refine ⟨valid_step hvalid hstep, ?_⟩
  obtain ⟨-, heq⟩ := Option.ite_none_right_eq_some.mp hstep
  obtain rfl := Option.some.inj heq
  cases hgranted : (c.lockManager.acquire request.txnId request.resource
      request.lockType).2 with
  | true =>
      left
      rw [attempt_thread, hgranted]
      rfl
  | false => exact .inr (LockManager.marked_of_refused hgranted)

/--
Whenever `_acquire` returns `False`, whatever the other transactions acquired
and released while it ran, its transaction is left with a request in the queue
of the resource, or holds it in a stronger mode than before the call.
-/
theorem run_refused_leaves_trace {earlier during : List ConcurrencyAction}
    {c c₁ c₂ : ConcurrencyControl} {i : ThreadId} {request : LockRequest}
    (hearlier : run step new earlier = some c)
    (hcall : step c (.acquire i request) = some c₁)
    (hduring : run step c₁ during = some c₂)
    (hothers : ∀ a ∈ during, ¬ Interferes i request.txnId a)
    (hfalse : c₂.threads i = .returned request false) :
    ¬ LockManager.NoTrace c.lockManager c₂.lockManager request.txnId
      request.resource := by
  have hvalid : c.lockManager.Valid :=
    run_preserves (I := fun c => c.lockManager.Valid)
      (fun _ _ _ h hs => valid_step h hs) LockManager.valid_new hearlier
  have hend : Calling c.lockManager i request c₂ :=
    run_invariant (fun _ _ _ h hok hs => h.step hok hs)
      (calling_of_acquire hvalid hcall)
      (along_of_forall_mem hothers _) hduring
  rcases hend.marked with htrue | hmarked
  · rw [hfalse] at htrue
    cases htrue
  · exact hmarked.not_noTrace

/-! ## A writer that gives up -/

/-- One transaction holds a resource when another one asks for it. -/
def writerEarlier : List ConcurrencyAction :=
  [.acquire 0 ⟨"a", "x", .exclusive⟩]

/-- The holder releases it, but the wait ends before the event is set. -/
def untoldDuring : List ConcurrencyAction :=
  [.register 1, .releaseAll 0 "a" ["x"], .timeout 1, .unregister 1, .notify 0]

theorem untold_leaves_trace :
    ∃ c c₁ c₂, run step new writerEarlier = some c ∧
      step c (.acquire 1 ⟨"b", "x", .exclusive⟩) = some c₁ ∧
      run step c₁ untoldDuring = some c₂ ∧
      c₂.threads 1 = .returned ⟨"b", "x", .exclusive⟩ false ∧
      (c₂.lockManager.entry "x").holders = {"b"} ∧
      ¬ LockManager.NoTrace c.lockManager c₂.lockManager "b" "x" := by
  have hview : (run step new (writerEarlier ++
      .acquire 1 ⟨"b", "x", .exclusive⟩ :: untoldDuring)).map (fun c₂ =>
      decide (c₂.threads 1 = .returned ⟨"b", "x", .exclusive⟩ false ∧
        (c₂.lockManager.entry "x").holders = {"b"})) = some true := by
    decide +kernel
  obtain ⟨c₂, hrun, hc₂⟩ := Option.map_eq_some_iff.mp hview
  obtain ⟨c, hearlier, hrest⟩ := run_append.mp hrun
  obtain ⟨c₁, hcall, hduring⟩ := run_cons.mp hrest
  obtain ⟨hfalse, hholders⟩ := of_decide_eq_true hc₂
  refine ⟨c, c₁, c₂, hearlier, hcall, hduring, hfalse, hholders, ?_⟩
  apply run_refused_leaves_trace hearlier hcall hduring _ hfalse
  simp [untoldDuring, Interferes]

/-- Nothing else happens until the wait ends. -/
def writerDuring : List ConcurrencyAction :=
  [.register 1, .timeout 1, .unregister 1]

theorem writer_still_queued :
    ∃ c c₁ c₂, run step new writerEarlier = some c ∧
      step c (.acquire 1 ⟨"b", "x", .exclusive⟩) = some c₁ ∧
      run step c₁ writerDuring = some c₂ ∧
      c₂.threads 1 = .returned ⟨"b", "x", .exclusive⟩ false ∧
      (c₂.lockManager.entry "x").waitQueue = [("b", .exclusive)] ∧
      ¬ LockManager.NoTrace c.lockManager c₂.lockManager "b" "x" := by
  have hview : (run step new (writerEarlier ++
      .acquire 1 ⟨"b", "x", .exclusive⟩ :: writerDuring)).map (fun c₂ =>
      decide (c₂.threads 1 = .returned ⟨"b", "x", .exclusive⟩ false ∧
        (c₂.lockManager.entry "x").waitQueue = [("b", .exclusive)])) =
      some true := by
    decide +kernel
  obtain ⟨c₂, hrun, hc₂⟩ := Option.map_eq_some_iff.mp hview
  obtain ⟨c, hearlier, hrest⟩ := run_append.mp hrun
  obtain ⟨c₁, hcall, hduring⟩ := run_cons.mp hrest
  obtain ⟨hfalse, hqueue⟩ := of_decide_eq_true hc₂
  refine ⟨c, c₁, c₂, hearlier, hcall, hduring, hfalse, hqueue, fun hclean => ?_⟩
  exact hclean.1 ⟨.exclusive, by simp [hqueue]⟩

end ConcurrencyControl

end DistributedMemory.Storage
