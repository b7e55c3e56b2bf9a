import DistributedMemory.Library.Run
import DistributedMemory.Storage.FileErrors
import Mathlib.Data.List.Forall2

/-!
# The transactions of other nodes

A node reads, writes, commits and aborts for other nodes, which send it messages.  The
messages of one connection are handled one after the other by the thread of the
connection.  A handler makes one call of the transaction manager; those of TXN_READ and
TXN_WRITE send what the call returned.  An exception ends the handler without an answer;
the thread of the connection catches it and goes on.  The threads of the other
connections, the node's own threads and the deadlock detector run in between.

`outcomes` and `trace` are no fields of the source: they list what a handler has sent,
`none` where its call raised, and the steps of the manager, with the connection whose
handler made the call.
-/

namespace DistributedMemory.Storage

open DistributedMemory.Library DistributedMemory.Recovery

inductive TxnRequest where
  | read (t : TxnId) (resource : Resource) (key : String)
  | write (t : TxnId) (resource : Resource) (key value : String)
  | commit (t : TxnId)
  | abort (t : TxnId)
  deriving DecidableEq

inductive TxnResponse where
  | readResponse (t : TxnId) (key : String) (value : Option String)
  | writeAck (t : TxnId) (key : String) (success : Bool)
  deriving DecidableEq

/-- The call that the thread `c` makes for a message. -/
def TxnRequest.action (c : ThreadId) (order : List Resource) : TxnRequest → TxnAction
  | .read t resource key => .call c t (.read resource key)
  | .write t resource key value => .call c t (.write resource key value)
  | .commit t => .commit t order
  | .abort t => .abort t order

/-- The call whose result is sent. -/
def TxnRequest.call? : TxnRequest → Option (TxnId × Op)
  | .read t resource key => some (t, .read resource key)
  | .write t resource key value => some (t, .write resource key value)
  | _ => none

def TxnAction.request? : TxnAction → Option TxnRequest
  | .call _ t (.read resource key) => some (.read t resource key)
  | .call _ t (.write resource key value) => some (.write t resource key value)
  | .commit t _ => some (.commit t)
  | .abort t _ => some (.abort t)
  | _ => none

def TxnAction.caller? : TxnAction → Option ThreadId
  | .call i _ _ => some i
  | _ => none

def TxnFault.request? : TxnFault → Option TxnRequest
  | .commit t _ _ => some (.commit t)
  | .abort t _ => some (.abort t)
  | _ => none

def ManagerStep.request? : ManagerStep → Option TxnRequest
  | .ran a => a.request?
  | .raised f => f.request?

/-- The thread whose call it is that begins or raises. -/
def ManagerStep.caller? : ManagerStep → Option ThreadId
  | .ran a => a.caller?
  | .raised (.call i _) => some i
  | .raised _ => none

/-- What `_handle_txn_read` and `_handle_txn_write` send. -/
def respond (t : TxnId) : Op → Reply → Option TxnResponse
  | .read _ key, .value v => some (.readResponse t key v)
  | .write _ key _, .success ok => some (.writeAck t key ok)
  | _, _ => none

/-- `inbox c` is what has come over connection `c` and waits for its thread. -/
structure RemoteSystem where
  manager : TransactionManager
  inbox : ThreadId → List TxnRequest
  handling : ThreadId → Option (TxnId × Op)
  outcomes : ThreadId → List (Option TxnResponse)
  trace : List (Option ThreadId × ManagerStep)

inductive RemoteAction where
  | arrive (c : ThreadId) (request : TxnRequest)
  | take (c : ThreadId) (order : List Resource)
  | takeRaising (c : ThreadId) (f : TxnFault)
  | answer (c : ThreadId)
  | raise (c : ThreadId) (wal : WriteAheadLog)
  | manage (b : ManagerStep)

namespace RemoteSystem

def new (nodeId : Nat) (wal : Option WriteAheadLog) (store : Store) : RemoteSystem :=
  ⟨.new nodeId wal store, fun _ => [], fun _ => none, fun _ => [], []⟩

/-- The threads in `connections` call the manager for their messages only. -/
def step (connections : Finset ThreadId) (s : RemoteSystem) :
    RemoteAction → Option RemoteSystem
  | .arrive c request =>
      if c ∈ connections then
        some { s with inbox := Function.update s.inbox c (s.inbox c ++ [request]) }
      else none
  | .take c order =>
      match s.handling c, s.inbox c with
      | none, request :: rest =>
          (s.manager.step (request.action c order)).map fun manager =>
            { s with
              manager := manager
              inbox := Function.update s.inbox c rest
              handling := Function.update s.handling c request.call?
              trace := s.trace ++ [(some c, .ran (request.action c order))] }
      | _, _ => none
  | .takeRaising c f =>
      match s.handling c, s.inbox c with
      | none, request :: rest =>
          if f.request? = some request then
            (s.manager.raise f).map fun manager =>
              { s with
                manager := manager
                inbox := Function.update s.inbox c rest
                trace := s.trace ++ [(some c, .raised f)] }
          else none
      | _, _ => none
  | .answer c =>
      match s.handling c, s.manager.threads c with
      | some (t, op), .returned reply =>
          (respond t op reply).map fun response =>
            { s with
              handling := Function.update s.handling c none
              outcomes := Function.update s.outcomes c
                (s.outcomes c ++ [some response]) }
      | _, _ => none
  | .raise c wal =>
      match s.handling c with
      | some _ =>
          (s.manager.raise (.call c wal)).map fun manager =>
            { s with
              manager := manager
              handling := Function.update s.handling c none
              outcomes := Function.update s.outcomes c (s.outcomes c ++ [none])
              trace := s.trace ++ [(some c, .raised (.call c wal))] }
      | none => none
  | .manage b =>
      if b.caller?.all (· ∉ connections) then
        (s.manager.act b).map fun manager =>
          { s with manager := manager, trace := s.trace ++ [(none, b)] }
      else none

/-- The messages of connection `c` that have been handled or are being handled. -/
def handled (s : RemoteSystem) (c : ThreadId) : List TxnRequest :=
  s.trace.filterMap fun entry =>
    if entry.1 = some c then entry.2.request? else none

end RemoteSystem

namespace RemoteAction

def arrival? (c : ThreadId) : RemoteAction → Option TxnRequest
  | .arrive d request => if d = c then some request else none
  | _ => none

/-- Steps of the thread of connection `c`. -/
def worksFor (c : ThreadId) : RemoteAction → Bool
  | .take d _ => d = c
  | .takeRaising d _ => d = c
  | .answer d => d = c
  | .raise d _ => d = c
  | .manage (.ran (.advance i)) => i = c
  | .manage (.ran (.timeout i)) => i = c
  | _ => false

/-- A call made for a message of connection `c` raises. -/
def raises (c : ThreadId) : RemoteAction → Bool
  | .raise d _ => d = c
  | _ => false

end RemoteAction

/-- An answer to a call carries the transaction and the key of the call. -/
inductive Answers : TxnId × Op → TxnResponse → Prop where
  | read (t : TxnId) (resource key : String) (v : Option String) :
      Answers (t, .read resource key) (.readResponse t key v)
  | write (t : TxnId) (resource key value : String) (ok : Bool) :
      Answers (t, .write resource key value) (.writeAck t key ok)

/-- A call has its answer, or has raised. -/
inductive CallOutcome : TxnId × Op → Option TxnResponse → Prop where
  | answered {call : TxnId × Op} {response : TxnResponse} (h : Answers call response) :
      CallOutcome call (some response)
  | raised (call : TxnId × Op) : CallOutcome call none

private theorem answers_of_respond {t : TxnId} {op : Op} {reply : Reply}
    {response : TxnResponse} (h : respond t op reply = some response) :
    Answers (t, op) response := by
  cases op with
  | read resource key =>
      cases reply with
      | value v =>
          obtain rfl := Option.some.inj h
          exact .read t resource key v
      | success ok => cases h
  | write resource key value =>
      cases reply with
      | value v => cases h
      | success ok =>
          obtain rfl := Option.some.inj h
          exact .write t resource key value ok

/-! ## The manager seen from a thread -/

def Phase.rank : Phase → Nat
  | .upgrading => 6
  | .acquiring => 5
  | .denied => 4
  | .waiting => 3
  | .retrying => 2
  | .granted => 1

def Thread.rank : Thread → Nat
  | .running call => call.phase.rank
  | _ => 0

def Op.Fits : Op → Reply → Prop
  | .read _ _, .value _ => True
  | .write _ _ _, .success _ => True
  | _, _ => False

def Thread.Serves (t : TxnId) (op : Op) : Thread → Prop
  | .running call => call.txnId = t ∧ call.op = op
  | .returned reply => op.Fits reply
  | .idle => False

theorem Phase.rank_le (phase : Phase) : phase.rank ≤ 6 := by
  cases phase <;> decide

theorem Thread.rank_le (thread : Thread) : thread.rank ≤ 6 := by
  cases thread with
  | running call => exact call.phase.rank_le
  | idle => exact Nat.zero_le 6
  | returned reply => exact Nat.zero_le 6

theorem Op.fits_refusal (op : Op) : op.Fits op.refusal := by
  cases op <;> trivial

private theorem respond_isSome {t : TxnId} {op : Op} {reply : Reply} (h : op.Fits reply) :
    (respond t op reply).isSome = true := by
  cases op <;> cases reply <;> first | rfl | cases h

namespace TransactionManager

variable {m m' : TransactionManager} {i : ThreadId}

structure Proceeds (m m' : TransactionManager) (i : ThreadId) (call : Call) : Prop where
  before : m.threads i = .running call
  serves : (m'.threads i).Serves call.txnId call.op
  rank : (m'.threads i).rank < call.phase.rank
  others : ∀ j, j ≠ i → m'.threads j = m.threads j

theorem proceeds_setThread {n : TransactionManager} {call : Call} {thread : Thread}
    (hrunning : m.threads i = .running call) (hn : n.threads = m.threads)
    (hserves : thread.Serves call.txnId call.op)
    (hrank : thread.rank < call.phase.rank) :
    Proceeds m (n.setThread i thread) i call where
  before := hrunning
  serves := by rwa [threads_setThread, if_pos rfl]
  rank := by rwa [threads_setThread, if_pos rfl]
  others j hj := by rw [threads_setThread, if_neg hj, hn]

theorem proceeds_attempt {call : Call} {otherwise : Thread}
    (hrunning : m.threads i = .running call) (hphase : 1 < call.phase.rank)
    (hserves : otherwise.Serves call.txnId call.op)
    (hrank : otherwise.rank < call.phase.rank) :
    Proceeds m (m.attempt i call otherwise) i call := by
  have heq : m.attempt i call otherwise =
      { m with lockManager := (m.lockManager.acquire call.txnId call.op.resource
          call.op.mode).1 }.setThread i
        (if (m.lockManager.acquire call.txnId call.op.resource call.op.mode).2 then
          .running { call with phase := .granted } else otherwise) := rfl
  rw [heq]
  cases (m.lockManager.acquire call.txnId call.op.resource call.op.mode).2 with
  | true => exact proceeds_setThread hrunning rfl ⟨rfl, rfl⟩ hphase
  | false => exact proceeds_setThread hrunning rfl hserves hrank

private theorem proceeds_tryUpgrade {call : Call} (hrunning : m.threads i = .running call)
    (hphase : call.phase = .upgrading) : Proceeds m (m.tryUpgrade i call) i call := by
  have heq : m.tryUpgrade i call =
      { m with lockManager := (m.lockManager.upgrade call.txnId
          call.op.resource).1 }.setThread i
        (.running { call with phase :=
          if (m.lockManager.upgrade call.txnId call.op.resource).2 then .granted
          else .acquiring }) := rfl
  rw [heq]
  refine proceeds_setThread hrunning rfl ⟨rfl, rfl⟩ ?_
  cases (m.lockManager.upgrade call.txnId call.op.resource).2 <;>
    simp [Thread.rank, Phase.rank, hphase]

private theorem proceeds_of_advance (h : m.advance i = some m') :
    ∃ call, Proceeds m m' i call := by
  unfold advance at h
  split at h
  · next call hrunning =>
    refine ⟨call, ?_⟩
    split at h
    · next hphase =>
      obtain rfl := Option.some.inj h
      exact proceeds_tryUpgrade hrunning hphase
    · next hphase =>
      obtain rfl := Option.some.inj h
      refine proceeds_attempt hrunning ?_ ⟨rfl, rfl⟩ ?_
      · simp [Phase.rank, hphase]
      · simp [Thread.rank, Phase.rank, hphase]
    · next hphase =>
      obtain rfl := Option.some.inj h
      refine proceeds_setThread hrunning rfl ⟨rfl, rfl⟩ ?_
      simp [Thread.rank, Phase.rank, hphase]
    · next hphase =>
      split at h
      · obtain rfl := Option.some.inj h
        refine proceeds_setThread hrunning rfl ⟨rfl, rfl⟩ ?_
        simp [Thread.rank, Phase.rank, hphase]
      · cases h
    · next hphase =>
      obtain rfl := Option.some.inj h
      refine proceeds_attempt hrunning ?_ call.op.fits_refusal ?_
      · simp [Phase.rank, hphase]
      · simp [Thread.rank, Phase.rank, hphase]
    · next hphase =>
      split at h
      · cases h
      · next txn hknown =>
        obtain rfl := Option.some.inj h
        cases hop : call.op with
        | read resource key =>
            refine proceeds_setThread hrunning rfl ?_ ?_
            · rw [hop]
              trivial
            · simp [Thread.rank, Phase.rank, hphase]
        | write resource key value =>
            refine proceeds_setThread hrunning rfl ?_ ?_
            · rw [hop]
              trivial
            · simp [Thread.rank, Phase.rank, hphase]
  · cases h

private theorem proceeds_of_timeout (h : m.timeout i = some m') :
    ∃ call, Proceeds m m' i call := by
  unfold timeout at h
  split at h
  · next call hrunning =>
    split at h
    · next hwaiting =>
      obtain rfl := Option.some.inj h
      refine ⟨call, proceeds_setThread hrunning rfl call.op.fits_refusal ?_⟩
      simp [Thread.rank, Phase.rank, hwaiting]
    · cases h
  · cases h

theorem serves_start (m : TransactionManager) (i : ThreadId) (t : TxnId) (op : Op) :
    ((m.start i t op).threads i).Serves t op ∧
      ∀ j, j ≠ i → (m.start i t op).threads j = m.threads j := by
  have hset : ∀ thread : Thread, thread.Serves t op →
      ((m.setThread i thread).threads i).Serves t op ∧
        ∀ j, j ≠ i → (m.setThread i thread).threads j = m.threads j := by
    intro thread h
    refine ⟨?_, fun j hj => by rw [threads_setThread, if_neg hj]⟩
    rwa [threads_setThread, if_pos rfl]
  cases op with
  | read resource key =>
      simp only [start, read]
      split
      · exact hset _ trivial
      · split
        · exact hset _ trivial
        · exact hset _ ⟨rfl, rfl⟩
  | write resource key value =>
      simp only [start, write]
      split
      · exact hset _ trivial
      · exact hset _ ⟨rfl, rfl⟩

theorem threads_commit (m : TransactionManager) (t : TxnId) (order : List Resource) :
    (m.commit t order).1.threads = m.threads := by
  cases h : m.getActive t with
  | none => simp only [commit, h]
  | some txn => exact commit_threads h order

theorem threads_abort (m : TransactionManager) (t : TxnId) (order : List Resource) :
    (m.abort t order).threads = m.threads := by
  cases h : m.getActive t with
  | none => simp only [abort, h]
  | some txn => exact abort_threads h order

theorem threads_step {a : TxnAction} {c : ThreadId} (hcall : a.caller? ≠ some c)
    (h : m.step a = some m') :
    (m'.threads c = m.threads c ∧ a ≠ .advance c ∧ a ≠ .timeout c) ∨
      (a = .advance c ∨ a = .timeout c) ∧ ∃ call, Proceeds m m' c call := by
  cases a with
  | begin parent =>
      obtain rfl := Option.some.inj h
      exact .inl ⟨rfl, by simp, by simp⟩
  | call i t op =>
      have hc : c ≠ i := fun heq => hcall (congrArg some heq.symm)
      obtain ⟨-, heq⟩ := Option.ite_none_left_eq_some.mp h
      obtain rfl := Option.some.inj heq
      exact .inl ⟨(serves_start m i t op).2 c hc, by simp, by simp⟩
  | advance i =>
      obtain ⟨call, hproceeds⟩ := proceeds_of_advance h
      by_cases hc : c = i
      · subst hc
        exact .inr ⟨.inl rfl, call, hproceeds⟩
      · exact .inl ⟨hproceeds.others c hc, by simp [Ne.symm hc], by simp⟩
  | timeout i =>
      obtain ⟨call, hproceeds⟩ := proceeds_of_timeout h
      by_cases hc : c = i
      · subst hc
        exact .inr ⟨.inr rfl, call, hproceeds⟩
      · exact .inl ⟨hproceeds.others c hc, by simp, by simp [Ne.symm hc]⟩
  | commit t order =>
      obtain ⟨-, heq⟩ := Option.ite_none_right_eq_some.mp h
      obtain rfl := Option.some.inj heq
      exact .inl ⟨congrFun (threads_commit m t order) c, by simp, by simp⟩
  | abort t order =>
      obtain ⟨-, heq⟩ := Option.ite_none_right_eq_some.mp h
      obtain rfl := Option.some.inj heq
      exact .inl ⟨congrFun (threads_abort m t order) c, by simp, by simp⟩

private theorem threads_act {b : ManagerStep} {c : ThreadId} (hcall : b.caller? ≠ some c)
    (h : m.act b = some m') :
    (m'.threads c = m.threads c ∧ b ≠ .ran (.advance c) ∧ b ≠ .ran (.timeout c)) ∨
      (b = .ran (.advance c) ∨ b = .ran (.timeout c)) ∧
        ∃ call, Proceeds m m' c call := by
  cases b with
  | ran a =>
      simp only [ne_eq, ManagerStep.ran.injEq]
      exact threads_step hcall h
  | raised f =>
      refine .inl ⟨threads_raise h fun wal heq => ?_, by simp, by simp⟩
      rw [heq] at hcall
      exact hcall rfl

end TransactionManager

/-! ## One step at one connection -/

section Requests

variable {request : TxnRequest} {c d : ThreadId} {order : List Resource}

@[simp] theorem request?_action : (request.action c order).request? = some request := by
  cases request <;> rfl

@[simp] theorem ran_request? (a : TxnAction) :
    (ManagerStep.ran a).request? = a.request? := rfl

private theorem caller?_action (hd : d ≠ c) : (request.action d order).caller? ≠ some c := by
  cases request <;> simp [TxnRequest.action, TxnAction.caller?, hd]

private theorem action_ne (i : ThreadId) :
    request.action d order ≠ .advance i ∧ request.action d order ≠ .timeout i := by
  cases request <;> simp [TxnRequest.action]

private theorem action_of_call {t : TxnId} {op : Op} (h : request.call? = some (t, op)) :
    request.action c order = .call c t op := by
  cases request <;> cases h <;> rfl

private theorem call?_of_fault {f : TxnFault} (h : f.request? = some request) :
    request.call? = none := by
  cases f <;> cases h <;> rfl

private theorem serves_of_call {m m' : TransactionManager} {t : TxnId} {op : Op}
    (hcall : request.call? = some (t, op))
    (h : m.step (request.action c order) = some m') : (m'.threads c).Serves t op := by
  rw [action_of_call hcall] at h
  obtain ⟨-, heq⟩ := Option.ite_none_left_eq_some.mp h
  obtain rfl := Option.some.inj heq
  exact (m.serves_start c t op).1

private theorem threads_of_no_call {m m' : TransactionManager} (hcall : request.call? = none)
    (h : m.step (request.action c order) = some m') : m'.threads c = m.threads c := by
  cases request with
  | read t resource key => cases hcall
  | write t resource key value => cases hcall
  | commit t =>
      obtain ⟨-, heq⟩ := Option.ite_none_right_eq_some.mp h
      obtain rfl := Option.some.inj heq
      exact congrFun (m.threads_commit t order) c
  | abort t =>
      obtain ⟨-, heq⟩ := Option.ite_none_right_eq_some.mp h
      obtain rfl := Option.some.inj heq
      exact congrFun (m.threads_abort t order) c

end Requests

namespace RemoteSystem

variable {connections : Finset ThreadId} {s s' : RemoteSystem} {a : RemoteAction}
  {c d : ThreadId}

theorem step_take {order : List Resource}
    (h : step connections s (.take d order) = some s') :
    ∃ request rest manager, s.handling d = none ∧ s.inbox d = request :: rest ∧
      s.manager.step (request.action d order) = some manager ∧
      s' = { s with
        manager := manager
        inbox := Function.update s.inbox d rest
        handling := Function.update s.handling d request.call?
        trace := s.trace ++ [(some d, .ran (request.action d order))] } := by
  simp only [step] at h
  split at h
  · next request rest hhandling hinbox =>
    obtain ⟨manager, hmanager, rfl⟩ := Option.map_eq_some_iff.mp h
    exact ⟨request, rest, manager, hhandling, hinbox, hmanager, rfl⟩
  · cases h

theorem step_takeRaising {f : TxnFault}
    (h : step connections s (.takeRaising d f) = some s') :
    ∃ request rest manager, s.handling d = none ∧ s.inbox d = request :: rest ∧
      f.request? = some request ∧ s.manager.raise f = some manager ∧
      s' = { s with
        manager := manager
        inbox := Function.update s.inbox d rest
        trace := s.trace ++ [(some d, .raised f)] } := by
  simp only [step] at h
  split at h
  · next request rest hhandling hinbox =>
    obtain ⟨hrequest, hmap⟩ := Option.ite_none_right_eq_some.mp h
    obtain ⟨manager, hmanager, rfl⟩ := Option.map_eq_some_iff.mp hmap
    exact ⟨request, rest, manager, hhandling, hinbox, hrequest, hmanager, rfl⟩
  · cases h

theorem step_answer (h : step connections s (.answer d) = some s') :
    ∃ t op reply response, s.handling d = some (t, op) ∧
      s.manager.threads d = .returned reply ∧ respond t op reply = some response ∧
      s' = { s with
        handling := Function.update s.handling d none
        outcomes := Function.update s.outcomes d
          (s.outcomes d ++ [some response]) } := by
  simp only [step] at h
  split at h
  · next t op reply hhandling hthread =>
    obtain ⟨response, hresponse, rfl⟩ := Option.map_eq_some_iff.mp h
    exact ⟨t, op, reply, response, hhandling, hthread, hresponse, rfl⟩
  · cases h

theorem step_raise {wal : WriteAheadLog}
    (h : step connections s (.raise d wal) = some s') :
    ∃ call manager, s.handling d = some call ∧
      s.manager.raise (.call d wal) = some manager ∧
      s' = { s with
        manager := manager
        handling := Function.update s.handling d none
        outcomes := Function.update s.outcomes d (s.outcomes d ++ [none])
        trace := s.trace ++ [(some d, .raised (.call d wal))] } := by
  simp only [step] at h
  split at h
  · next call hhandling =>
    obtain ⟨manager, hmanager, rfl⟩ := Option.map_eq_some_iff.mp h
    exact ⟨call, manager, hhandling, hmanager, rfl⟩
  · cases h

theorem step_manage {b : ManagerStep} (h : step connections s (.manage b) = some s') :
    (∀ i, b.caller? = some i → i ∉ connections) ∧
      ∃ manager, s.manager.act b = some manager ∧
        s' = { s with manager := manager, trace := s.trace ++ [(none, b)] } := by
  obtain ⟨hown, hmap⟩ := Option.ite_none_right_eq_some.mp h
  obtain ⟨manager, hmanager, rfl⟩ := Option.map_eq_some_iff.mp hmap
  refine ⟨fun i hi => ?_, manager, hmanager, rfl⟩
  rw [hi] at hown
  simpa using hown

theorem handled_append (s : RemoteSystem) (manager : TransactionManager)
    (inbox : ThreadId → List TxnRequest) (handling : ThreadId → Option (TxnId × Op))
    (outcomes : ThreadId → List (Option TxnResponse)) (origin : Option ThreadId)
    (b : ManagerStep) (c : ThreadId) :
    ({ s with
      manager := manager
      inbox := inbox
      handling := handling
      outcomes := outcomes
      trace := s.trace ++ [(origin, b)] } : RemoteSystem).handled c =
      s.handled c ++ if origin = some c then b.request?.toList else [] := by
  simp only [handled, List.filterMap_append, List.append_cancel_left_eq]
  by_cases h : origin = some c
  · cases hb : b.request? <;> simp [h, hb]
  · simp [h]

def work (s : RemoteSystem) (c : ThreadId) : Nat :=
  8 * (s.inbox c).length +
    match s.handling c with
    | none => 0
    | some _ => 1 + (s.manager.threads c).rank

/-- The calls made for messages of `c` are answered or raise in turn, the one in progress
excepted. -/
structure Inv (s : RemoteSystem) (c : ThreadId) : Prop where
  idle : s.handling c = none → (s.manager.threads c).isRunning = false
  busy : ∀ t op, s.handling c = some (t, op) → (s.manager.threads c).Serves t op
  answered : ∃ calls, (s.handled c).filterMap TxnRequest.call? =
      calls ++ (s.handling c).toList ∧ List.Forall₂ CallOutcome calls (s.outcomes c)

/-- What a step does at connection `c`. -/
structure StepAt (c : ThreadId) (a : RemoteAction) (s s' : RemoteSystem) : Prop where
  inv : s'.Inv c
  inOrder : s'.handled c ++ s'.inbox c =
    s.handled c ++ s.inbox c ++ (a.arrival? c).toList
  pays : s'.work c + (if a.worksFor c then 1 else 0) ≤
    s.work c + if (a.arrival? c).isSome then 8 else 0
  counted : (s'.outcomes c).count none =
    (s.outcomes c).count none + if a.raises c then 1 else 0

private theorem raises_eq_false (h : a.worksFor c = false) : a.raises c = false := by
  cases a with
  | raise d wal => exact h
  | _ => rfl

theorem Inv.elsewhere (h : s.Inv c)
    (hthread : s'.manager.threads c = s.manager.threads c)
    (hinbox : s'.inbox c = s.inbox c) (hhandling : s'.handling c = s.handling c)
    (houtcomes : s'.outcomes c = s.outcomes c) (hhandled : s'.handled c = s.handled c)
    (harrival : a.arrival? c = none) (hworks : a.worksFor c = false) :
    StepAt c a s s' where
  inv :=
    { idle := by
        rw [hhandling, hthread]
        exact h.idle
      busy := by
        rw [hhandling, hthread]
        exact h.busy
      answered := by
        rw [hhandled, hhandling, houtcomes]
        exact h.answered }
  inOrder := by simp [hhandled, hinbox, harrival]
  pays := by simp [work, hinbox, hhandling, hthread, harrival, hworks]
  counted := by simp [houtcomes, raises_eq_false hworks]

theorem Inv.arrive {request : TxnRequest} (h : s.Inv c)
    (hstep : step connections s (.arrive d request) = some s') :
    StepAt c (.arrive d request) s s' := by
  obtain ⟨-, heq⟩ := Option.ite_none_right_eq_some.mp hstep
  obtain rfl := Option.some.inj heq
  by_cases hd : d = c
  · subst hd
    refine ⟨⟨h.idle, h.busy, h.answered⟩, ?_, ?_, rfl⟩
    · simp [handled, RemoteAction.arrival?]
    · simp [work, RemoteAction.arrival?, RemoteAction.worksFor]
      omega
  · exact h.elsewhere rfl (Function.update_of_ne (Ne.symm hd) _ _) rfl rfl rfl
      (by simp [RemoteAction.arrival?, hd]) rfl

theorem Inv.take {order : List Resource} (h : s.Inv c)
    (hstep : step connections s (.take d order) = some s') :
    StepAt c (.take d order) s s' := by
  obtain ⟨request, rest, manager, hhandling, hinbox, hmanager, rfl⟩ :=
    step_take hstep
  by_cases hd : d = c
  · subst hd
    obtain ⟨calls, hcalls, hanswers⟩ := h.answered
    rw [hhandling, Option.toList_none, List.append_nil] at hcalls
    refine ⟨⟨fun hnone => ?_, fun t op hcall => ?_, calls, ?_, hanswers⟩, ?_, ?_, rfl⟩
    · simp only [Function.update_self] at hnone
      simp only [threads_of_no_call hnone hmanager]
      exact h.idle hhandling
    · simp only [Function.update_self] at hcall
      exact serves_of_call hcall hmanager
    · rw [handled_append, if_pos rfl, ran_request?, request?_action,
        List.filterMap_append, hcalls]
      simp only [Function.update_self]
      cases hcall : request.call? <;> simp [hcall]
    · rw [handled_append, if_pos rfl, ran_request?, request?_action]
      simp [hinbox, RemoteAction.arrival?]
    · have hrank := (manager.threads d).rank_le
      have hworks : (RemoteAction.take d order).worksFor d = true := by
        simp [RemoteAction.worksFor]
      simp only [work, Function.update_self, hinbox, hhandling, List.length_cons,
        hworks, if_true, RemoteAction.arrival?, Option.isSome_none,
        Bool.false_eq_true, if_false]
      cases request.call? with
      | none =>
          change 8 * rest.length + 0 + 1 ≤ 8 * (rest.length + 1) + 0 + 0
          omega
      | some call =>
          change 8 * rest.length + (1 + (manager.threads d).rank) + 1 ≤
            8 * (rest.length + 1) + 0 + 0
          omega
  · have hc : c ≠ d := Ne.symm hd
    have hthread : manager.threads c = s.manager.threads c := by
      rcases TransactionManager.threads_step (caller?_action hd) hmanager with
        ⟨hsame, -⟩ | ⟨hwork, -⟩
      · exact hsame
      · exact absurd hwork (not_or.mpr (action_ne c))
    refine h.elsewhere hthread (Function.update_of_ne hc _ _)
      (Function.update_of_ne hc _ _) rfl ?_ rfl (by simp [RemoteAction.worksFor, hd])
    rw [handled_append, if_neg (by simpa using hd), List.append_nil]

theorem Inv.takeRaising {f : TxnFault} (h : s.Inv c)
    (hstep : step connections s (.takeRaising d f) = some s') :
    StepAt c (.takeRaising d f) s s' := by
  obtain ⟨request, rest, manager, hhandling, hinbox, hrequest, hmanager, rfl⟩ :=
    step_takeRaising hstep
  have hthread : manager.threads c = s.manager.threads c :=
    TransactionManager.threads_raise hmanager fun wal heq => by
      rw [heq] at hrequest
      cases hrequest
  have hcall : request.call? = none := call?_of_fault hrequest
  have hasked : (ManagerStep.raised f).request? = some request := hrequest
  by_cases hd : d = c
  · subst hd
    obtain ⟨calls, hcalls, hanswers⟩ := h.answered
    refine ⟨⟨fun hnone => ?_, fun t op hbusy => ?_, calls, ?_, hanswers⟩, ?_, ?_, rfl⟩
    · simp only [hthread]
      exact h.idle hnone
    · simp only [hthread]
      exact h.busy t op hbusy
    · rw [handled_append, if_pos rfl, hasked, List.filterMap_append, hcalls]
      simp [hhandling, hcall]
    · rw [handled_append, if_pos rfl, hasked]
      simp [hinbox, RemoteAction.arrival?]
    · have hworks : (RemoteAction.takeRaising d f).worksFor d = true := by
        simp [RemoteAction.worksFor]
      simp only [work, Function.update_self, hinbox, hhandling, List.length_cons,
        hworks, if_true, RemoteAction.arrival?, Option.isSome_none,
        Bool.false_eq_true, if_false]
      omega
  · have hc : c ≠ d := Ne.symm hd
    refine h.elsewhere hthread (Function.update_of_ne hc _ _) rfl rfl ?_ rfl
      (by simp [RemoteAction.worksFor, hd])
    rw [handled_append, if_neg (by simpa using hd), List.append_nil]

theorem Inv.answer (h : s.Inv c) (hstep : step connections s (.answer d) = some s') :
    StepAt c (.answer d) s s' := by
  obtain ⟨t, op, reply, response, hhandling, hthread, hresponse, rfl⟩ :=
    step_answer hstep
  by_cases hd : d = c
  · subst hd
    obtain ⟨calls, hcalls, hanswers⟩ := h.answered
    refine ⟨⟨fun _ => ?_, fun u op' hcall => ?_, calls ++ [(t, op)], ?_, ?_⟩,
      ?_, ?_, ?_⟩
    · simp only [hthread]
      rfl
    · simp at hcall
    · rw [hhandling] at hcalls
      simpa [handled] using hcalls
    · simp only [Function.update_self]
      exact List.rel_append hanswers
        (.cons (.answered (answers_of_respond hresponse)) .nil)
    · simp [handled, RemoteAction.arrival?]
    · simp [work, hhandling, RemoteAction.arrival?, RemoteAction.worksFor]
    · simp [RemoteAction.raises]
  · have hc : c ≠ d := Ne.symm hd
    exact h.elsewhere rfl rfl (Function.update_of_ne hc _ _)
      (Function.update_of_ne hc _ _) rfl rfl (by simp [RemoteAction.worksFor, hd])

theorem Inv.raise {wal : WriteAheadLog} (h : s.Inv c)
    (hstep : step connections s (.raise d wal) = some s') :
    StepAt c (.raise d wal) s s' := by
  obtain ⟨call, manager, hhandling, hmanager, rfl⟩ := step_raise hstep
  by_cases hd : d = c
  · subst hd
    obtain ⟨calls, hcalls, hanswers⟩ := h.answered
    obtain ⟨running, txn, -, -, -, rfl⟩ := TransactionManager.raise_call hmanager
    refine ⟨⟨fun _ => ?_, fun u op hcall => ?_, calls ++ [call], ?_, ?_⟩, ?_, ?_, ?_⟩
    · simp [TransactionManager.threads_setThread, Thread.isRunning]
    · simp at hcall
    · rw [handled_append, if_pos rfl]
      rw [hhandling] at hcalls
      simpa [ManagerStep.request?, TxnFault.request?] using hcalls
    · simp only [Function.update_self]
      exact List.rel_append hanswers (.cons (.raised call) .nil)
    · rw [handled_append, if_pos rfl]
      simp [ManagerStep.request?, TxnFault.request?, RemoteAction.arrival?]
    · simp [work, hhandling, RemoteAction.arrival?, RemoteAction.worksFor]
    · simp [RemoteAction.raises]
  · have hc : c ≠ d := Ne.symm hd
    refine h.elsewhere ?_ rfl (Function.update_of_ne hc _ _)
      (Function.update_of_ne hc _ _) ?_ rfl (by simp [RemoteAction.worksFor, hd])
    · exact TransactionManager.threads_raise hmanager fun wal' heq =>
        hd (by cases heq; rfl)
    · rw [handled_append, if_neg (by simpa using hd), List.append_nil]

theorem Inv.manage {b : ManagerStep} (hc : c ∈ connections) (h : s.Inv c)
    (hstep : step connections s (.manage b) = some s') :
    StepAt c (.manage b) s s' := by
  obtain ⟨hown, manager, hmanager, rfl⟩ := step_manage hstep
  have hcall : b.caller? ≠ some c := fun heq => hown c heq hc
  have hhandled : ({ s with
      manager := manager
      trace := s.trace ++ [(none, b)] } : RemoteSystem).handled c = s.handled c := by
    rw [handled_append s manager s.inbox s.handling s.outcomes, if_neg (by simp),
      List.append_nil]
  rcases TransactionManager.threads_act hcall hmanager with
    ⟨hsame, hadvance, htimeout⟩ | ⟨hwork, call, hproceeds⟩
  · refine h.elsewhere hsame rfl rfl rfl hhandled rfl ?_
    cases b with
    | ran a => cases a <;> simp_all [RemoteAction.worksFor]
    | raised f => rfl
  · have hworks : (RemoteAction.manage b).worksFor c = true := by
      rcases hwork with rfl | rfl <;> simp [RemoteAction.worksFor]
    cases hhandling : s.handling c with
    | none =>
        have hidle := h.idle hhandling
        rw [hproceeds.before] at hidle
        cases hidle
    | some entry =>
        obtain ⟨t, op⟩ := entry
        have hbusy := h.busy t op hhandling
        rw [hproceeds.before] at hbusy
        obtain ⟨rfl, rfl⟩ := hbusy
        refine ⟨⟨fun hnone => ?_, fun u op' hcall' => ?_, ?_⟩, ?_, ?_, rfl⟩
        · exact absurd (hhandling.symm.trans hnone) (by simp)
        · obtain ⟨rfl, rfl⟩ :=
            Prod.mk.inj (Option.some.inj (hhandling.symm.trans hcall'))
          exact hproceeds.serves
        · rw [hhandled]
          exact h.answered
        · simp [hhandled, RemoteAction.arrival?]
        · have hrank := hproceeds.rank
          have hbefore : (s.manager.threads c).rank = call.phase.rank := by
            rw [hproceeds.before]
            rfl
          simp only [work, hhandling, hbefore, hworks, RemoteAction.arrival?,
            if_true, Option.isSome_none, Bool.false_eq_true, if_false]
          change 8 * (s.inbox c).length + (1 + (manager.threads c).rank) + 1 ≤
            8 * (s.inbox c).length + (1 + call.phase.rank) + 0
          omega

theorem Inv.step (hc : c ∈ connections) (h : s.Inv c)
    (hstep : step connections s a = some s') : StepAt c a s s' := by
  cases a with
  | arrive d request => exact h.arrive hstep
  | take d order => exact h.take hstep
  | takeRaising d f => exact h.takeRaising hstep
  | answer d => exact h.answer hstep
  | raise d wal => exact h.raise hstep
  | manage b => exact h.manage hc hstep

/-! ## Whole runs -/

theorem inv_new (nodeId : Nat) (wal : Option WriteAheadLog) (store : Store)
    (c : ThreadId) : (new nodeId wal store).Inv c where
  idle _ := rfl
  busy _ _ h := by cases h
  answered := ⟨[], rfl, .nil⟩

/-- The messages that come over `c`. -/
def arrivals (c : ThreadId) (actions : List RemoteAction) : List TxnRequest :=
  actions.filterMap (RemoteAction.arrival? c)

private theorem run_atConnection {t : RemoteSystem} {actions : List RemoteAction}
    (hc : c ∈ connections) (h : s.Inv c)
    (hrun : run (step connections) s actions = some t) :
    t.Inv c ∧
      t.handled c ++ t.inbox c = s.handled c ++ s.inbox c ++ arrivals c actions ∧
      t.work c + actions.countP (RemoteAction.worksFor c) ≤
        s.work c + 8 * (arrivals c actions).length ∧
      (t.outcomes c).count none =
        (s.outcomes c).count none + actions.countP (RemoteAction.raises c) := by
  induction actions generalizing s with
  | nil =>
      cases hrun
      exact ⟨h, by simp [arrivals], by simp, by simp⟩
  | cons a rest ih =>
      obtain ⟨s', hstep, hrest⟩ := run_cons.mp hrun
      have hat := h.step hc hstep
      obtain ⟨hinv, horder, hwork, hcount⟩ := ih hat.inv hrest
      have hpays := hat.pays
      have harrivals : arrivals c (a :: rest) =
          (a.arrival? c).toList ++ arrivals c rest := by
        cases harrival : a.arrival? c <;> simp [arrivals, harrival]
      refine ⟨hinv, ?_, ?_, ?_⟩
      · rw [horder, hat.inOrder, harrivals, List.append_assoc]
      · rw [harrivals, List.length_append, List.countP_cons]
        cases harrival : a.arrival? c with
        | none =>
            simp only [harrival, Option.isSome_none, Bool.false_eq_true,
              if_false] at hpays
            simp only [Option.toList_none, List.length_nil]
            omega
        | some request =>
            simp only [harrival, Option.isSome_some, if_true] at hpays
            simp only [Option.toList_some, List.length_singleton]
            omega
      · rw [hcount, hat.counted, List.countP_cons]
        omega

/-- The manager makes a run of its own. -/
theorem run_manager {nodeId : Nat} {wal : Option WriteAheadLog} {store : Store}
    {actions : List RemoteAction}
    (hrun : run (step connections) (new nodeId wal store) actions = some s) :
    run TransactionManager.act (.new nodeId wal store) (s.trace.map Prod.snd) =
      some s.manager := by
  refine run_preserves (I := fun s : RemoteSystem =>
    run TransactionManager.act (.new nodeId wal store) (s.trace.map Prod.snd) =
      some s.manager) (fun s a s' h hstep => ?_) rfl hrun
  have hlonger {origin : Option ThreadId} {b : ManagerStep}
      {manager : TransactionManager} (hmanager : s.manager.act b = some manager) :
      run TransactionManager.act (.new nodeId wal store)
        ((s.trace ++ [(origin, b)]).map Prod.snd) = some manager := by
    rw [List.map_append, run_append]
    exact ⟨s.manager, h, run_cons.mpr ⟨manager, hmanager, rfl⟩⟩
  cases a with
  | arrive d request =>
      obtain ⟨-, heq⟩ := Option.ite_none_right_eq_some.mp hstep
      obtain rfl := Option.some.inj heq
      exact h
  | take d order =>
      obtain ⟨request, rest, manager, -, -, hmanager, rfl⟩ := step_take hstep
      exact hlonger hmanager
  | takeRaising d f =>
      obtain ⟨request, rest, manager, -, -, -, hmanager, rfl⟩ := step_takeRaising hstep
      exact hlonger hmanager
  | answer d =>
      obtain ⟨t, op, reply, response, -, -, -, rfl⟩ := step_answer hstep
      exact h
  | raise d wal' =>
      obtain ⟨call, manager, -, hmanager, rfl⟩ := step_raise hstep
      exact hlonger hmanager
  | manage b =>
      obtain ⟨-, manager, hmanager, rfl⟩ := step_manage hstep
      exact hlonger hmanager

private theorem exists_take {m : TransactionManager} (request : TxnRequest)
    (hidle : (m.threads c).isRunning = false) :
    ∃ order, m.step (request.action c order) ≠ none := by
  have horder (t : TxnId) : m.Iterates t (m.lockManager.recorded t).toList :=
    ⟨Finset.nodup_toList _, Finset.toList_toFinset _⟩
  cases request with
  | read t resource key =>
      exact ⟨[], by simp [TxnRequest.action, TransactionManager.step, hidle]⟩
  | write t resource key value =>
      exact ⟨[], by simp [TxnRequest.action, TransactionManager.step, hidle]⟩
  | commit t =>
      refine ⟨(m.lockManager.recorded t).toList, ?_⟩
      simp [TxnRequest.action, TransactionManager.step, horder t]
  | abort t =>
      refine ⟨(m.lockManager.recorded t).toList, ?_⟩
      simp [TxnRequest.action, TransactionManager.step, horder t]

private theorem exists_proceed {m : TransactionManager} (h : m.LockInv) {call : Call}
    (hrunning : m.threads c = .running call) :
    m.advance c ≠ none ∨ m.timeout c ≠ none := by
  simp only [TransactionManager.advance, TransactionManager.timeout, hrunning]
  cases hphase : call.phase with
  | waiting => exact .inr (by simp)
  | granted =>
      have hknown := h.known c call hrunning
      rw [TransactionManager.statusOf] at hknown
      cases hget : m.transactions.get? call.txnId with
      | none =>
          rw [hget] at hknown
          exact absurd rfl hknown
      | some txn => exact .inl (by simp)
  | _ => exact .inl (by simp)

private theorem done_of_still (h : s.Inv c) (hlock : s.manager.LockInv)
    (hstill : ∀ a, a.worksFor c = true → step connections s a = none) :
    s.inbox c = [] ∧ s.handling c = none := by
  have hnone : s.handling c = none := by
    cases hhandling : s.handling c with
    | none => rfl
    | some entry =>
        exfalso
        obtain ⟨t, op⟩ := entry
        have hbusy := h.busy t op hhandling
        cases hthread : s.manager.threads c with
        | idle =>
            rw [hthread] at hbusy
            exact hbusy
        | returned reply =>
            rw [hthread] at hbusy
            have hanswer := hstill (.answer c) (by simp [RemoteAction.worksFor])
            simp only [step, hhandling, hthread, Option.map_eq_none_iff] at hanswer
            have hsome := respond_isSome (t := t) hbusy
            rw [hanswer] at hsome
            cases hsome
        | running call =>
            have hadvance := hstill (.manage (.ran (.advance c)))
              (by simp [RemoteAction.worksFor])
            have htimeout := hstill (.manage (.ran (.timeout c)))
              (by simp [RemoteAction.worksFor])
            simp only [step, ManagerStep.caller?, TxnAction.caller?, Option.all_none,
              if_true, Option.map_eq_none_iff, TransactionManager.act,
              TransactionManager.step] at hadvance htimeout
            rcases exists_proceed hlock hthread with hgo | hgo
            · exact hgo hadvance
            · exact hgo htimeout
  refine ⟨?_, hnone⟩
  cases hinbox : s.inbox c with
  | nil => rfl
  | cons request rest =>
      exfalso
      obtain ⟨order, htake⟩ := exists_take request (h.idle hnone)
      have hstuck := hstill (.take c order) (by simp [RemoteAction.worksFor])
      simp only [step, hnone, hinbox, Option.map_eq_none_iff] at hstuck
      exact htake hstuck

/--
In every run of a node that serves the messages of `connections` while its other threads
go on and any of their calls may raise, the steps of the manager are a run of the manager
alone, in which the calls do what they should if none has raised.  For each connection:
the messages are handled in the order in which they have come; the calls made for
TXN_READ and TXN_WRITE are answered once each in that order, with their transaction and
key, but for those that have raised and the one in progress; its thread makes at most
eight steps a message, whoever holds the locks; and where it can make no step, no message
is left and every call has been answered or has raised.
-/
theorem run_remoteAnswers (connections : Finset ThreadId) (nodeId : Nat)
    (wal : Option WriteAheadLog) (store : Store) (actions : List RemoteAction)
    (s : RemoteSystem)
    (hrun : run (step connections) (new nodeId wal store) actions = some s) :
    run TransactionManager.act (.new nodeId wal store) (s.trace.map Prod.snd) =
      some s.manager ∧
    (∀ ran : List TxnAction, s.trace.map Prod.snd = ran.map .ran →
      run TransactionManager.step (.new nodeId wal store) ran = some s.manager) ∧
    ∀ c ∈ connections,
      arrivals c actions = s.handled c ++ s.inbox c ∧
      (∃ calls, (s.handled c).filterMap TxnRequest.call? =
          calls ++ (s.handling c).toList ∧
        List.Forall₂ CallOutcome calls (s.outcomes c)) ∧
      (s.outcomes c).count none = actions.countP (RemoteAction.raises c) ∧
      actions.countP (RemoteAction.worksFor c) ≤ 8 * (arrivals c actions).length ∧
      ((∀ a, a.worksFor c = true → step connections s a = none) →
        s.inbox c = [] ∧ s.handling c = none) := by
  have hmanager := run_manager hrun
  have hlock : s.manager.LockInv :=
    run_preserves (fun _ _ _ h hact => h.act hact)
      (TransactionManager.lockInv_new nodeId wal store) hmanager
  refine ⟨hmanager, fun ran hran => ?_, fun c hc => ?_⟩
  · rw [hran] at hmanager
    exact TransactionManager.run_step_of_act hmanager
  obtain ⟨hinv, horder, hwork, hcount⟩ :=
    run_atConnection hc (inv_new nodeId wal store c) hrun
  have hfresh : (new nodeId wal store).work c = 0 := rfl
  have hempty : (new nodeId wal store).handled c ++
      (new nodeId wal store).inbox c = [] := rfl
  have hnone : ((new nodeId wal store).outcomes c).count none = 0 := rfl
  rw [hempty, List.nil_append] at horder
  rw [hnone, Nat.zero_add] at hcount
  exact ⟨horder.symm, hinv.answered, hcount, by omega, done_of_still hinv hlock⟩

/-- Connection 2 reads what connection 1 writes, waits for its commit and reads again,
in vain. -/
def readAfterCommit : List RemoteAction :=
  [.manage (.ran (.begin none)), .manage (.ran (.begin none)),
    .arrive 1 (.write "node_0_txn_1" "r" "k" "v"), .arrive 1 (.commit "node_0_txn_1"),
    .arrive 2 (.read "node_0_txn_2" "r" "k"), .arrive 2 (.read "node_0_txn_2" "r" "m"),
    .take 1 [], .manage (.ran (.advance 1)), .manage (.ran (.advance 1)), .take 2 [],
    .manage (.ran (.advance 2)), .manage (.ran (.advance 2)), .answer 1, .take 1 ["r"],
    .manage (.ran (.advance 2)), .manage (.ran (.advance 2)),
    .manage (.ran (.advance 2)), .answer 2, .take 2 [], .manage (.ran (.advance 2)),
    .raise 2 .new]

theorem readAfterCommit_remoteAnswers :
    ∃ s, run (step {1, 2}) (new 0 none fun _ => none) readAfterCommit = some s ∧
      s.outcomes 1 = [some (.writeAck "node_0_txn_1" "k" true)] ∧
      s.outcomes 2 = [some (.readResponse "node_0_txn_2" "k" (some "v")), none] ∧
      run TransactionManager.act (.new 0 none fun _ => none) (s.trace.map Prod.snd) =
        some s.manager ∧
      arrivals 1 readAfterCommit = s.handled 1 ++ s.inbox 1 := by
  have hend : (run (step {1, 2}) (new 0 none fun _ => none) readAfterCommit).map (fun s =>
      decide (s.outcomes 1 = [some (.writeAck "node_0_txn_1" "k" true)] ∧
        s.outcomes 2 = [some (.readResponse "node_0_txn_2" "k" (some "v")), none])) =
        some true := by
    decide +kernel
  obtain ⟨s, hs, hdec⟩ := Option.map_eq_some_iff.mp hend
  obtain ⟨hfirst, hsecond⟩ := of_decide_eq_true hdec
  obtain ⟨hmanager, -, hserved⟩ :=
    run_remoteAnswers {1, 2} 0 none (fun _ => none) readAfterCommit s hs
  exact ⟨s, hs, hfirst, hsecond, hmanager, (hserved 1 (by decide)).1⟩

end RemoteSystem

end DistributedMemory.Storage
