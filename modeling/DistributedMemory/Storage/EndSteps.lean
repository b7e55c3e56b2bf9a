import DistributedMemory.Storage.Interleaving

/-!
# The single steps of commit and abort

A thread that commits or aborts checks the status, appends to the log, installs
the write buffer one record at a time or clears it, sets the status and gives up
the locks; any other thread may run between two of these steps, one that ends the
same transaction among them.

The loop of `commit` runs over the dictionary itself.  Python raises when the size
of the dictionary is not what it was at the start of the loop, and the exception
leaves `commit` with the status and the locks as they are.

`installed` is no field of the source.  It lists the calls of `write_record`, each
with the transaction that made it.
-/

namespace DistributedMemory.Storage

open DistributedMemory.Library DistributedMemory.Recovery

/-- `iterating` is before the next item is taken from a dictionary of `used`
items, `writing` before the item is installed. -/
inductive EndStage where
  | checked
  | logged
  | iterating (used pos : Nat)
  | writing (used pos : Nat) (item : String × String)
  | applied
  | marked
  deriving DecidableEq, Repr

structure EndCall where
  txnId : TxnId
  outcome : Outcome
  stage : EndStage
  deriving DecidableEq, Repr

structure EndSystem where
  manager : TransactionManager
  calls : Dict ThreadId EndCall
  installed : List (TxnId × String × String)

inductive EndAction where
  | enter (i : ThreadId) (t : TxnId) (outcome : Outcome)
  | proceed (i : ThreadId) (order : List Resource)
  deriving DecidableEq, Repr

/-- `resource, key = buf_key.split(":", 1)` and `write_record` -/
def installItem (store : Store) (item : String × String) : Store :=
  writeRecord store (splitKey item.1).1 (splitKey item.1).2 item.2

namespace EndSystem

def start (m : TransactionManager) : EndSystem := ⟨m, .empty, []⟩

def setStage (s : EndSystem) (i : ThreadId) (call : EndCall)
    (stage : EndStage) : EndSystem :=
  { s with calls := s.calls.set i { call with stage := stage } }

def leave (s : EndSystem) (i : ThreadId) : EndSystem :=
  { s with calls := s.calls.pop i }

def setManager (s : EndSystem) (m : TransactionManager) : EndSystem :=
  { s with manager := m }

/-- `_get_active`, or the check of `abort`. -/
def enter (s : EndSystem) (i : ThreadId) (t : TxnId) (outcome : Outcome) :
    Option EndSystem :=
  match s.calls.get? i with
  | some _ => none
  | none =>
      match s.manager.getActive t with
      | none => some s
      | some _ =>
          some { s with calls := s.calls.set i ⟨t, outcome, .checked⟩ }

def apply (s : EndSystem) (i : ThreadId) (call : EndCall) (txn : Transaction) :
    EndSystem :=
  match call.outcome with
  | .commit => s.setStage i call (.iterating txn.writeBuffer.items.length 0)
  | .abort =>
      (s.setManager (s.manager.putTxn call.txnId
        { txn with writeBuffer := .empty })).setStage i call .applied

/-- The next round of the loop. -/
def next (s : EndSystem) (i : ThreadId) (call : EndCall) (txn : Transaction)
    (used pos : Nat) : EndSystem :=
  if txn.writeBuffer.items.length ≠ used then s.leave i
  else
    match txn.writeBuffer.items[pos]? with
    | some item => s.setStage i call (.writing used pos item)
    | none =>
        (s.setManager { s.manager with
          commits := s.manager.commits ++ [call.txnId] }).setStage i call .applied

def write (s : EndSystem) (i : ThreadId) (call : EndCall) (used pos : Nat)
    (item : String × String) : EndSystem :=
  ({ s with
    manager := { s.manager with store := installItem s.manager.store item }
    installed := s.installed ++ [(call.txnId, item)] }).setStage i call
    (.iterating used (pos + 1))

def proceed (s : EndSystem) (i : ThreadId) (order : List Resource) :
    Option EndSystem :=
  match s.calls.get? i with
  | none => none
  | some call =>
      match s.manager.transactions.get? call.txnId with
      | none => none
      | some txn =>
          match call.stage with
          | .checked =>
              some ((s.setManager (s.manager.log
                (call.outcome.record call.txnId))).setStage i call .logged)
          | .logged => some (s.apply i call txn)
          | .iterating used pos => some (s.next i call txn used pos)
          | .writing used pos item => some (s.write i call used pos item)
          | .applied =>
              some ((s.setManager (s.manager.putTxn call.txnId
                { txn with status := call.outcome.status })).setStage i call
                .marked)
          | .marked =>
              if s.manager.Iterates call.txnId order then
                some ((s.setManager (s.manager.clearLocks call.txnId txn order
                  call.outcome)).leave i)
              else none

def step (s : EndSystem) : EndAction → Option EndSystem
  | .enter i t outcome => s.enter i t outcome
  | .proceed i order => s.proceed i order

section Updates

variable (s : EndSystem) (i : ThreadId) (call : EndCall) (stage : EndStage)
  (m : TransactionManager)

@[simp] theorem setStage_manager :
    (s.setStage i call stage).manager = s.manager := rfl
@[simp] theorem setStage_calls : (s.setStage i call stage).calls =
    s.calls.set i { call with stage := stage } := rfl
@[simp] theorem setStage_installed :
    (s.setStage i call stage).installed = s.installed := rfl
@[simp] theorem leave_manager : (s.leave i).manager = s.manager := rfl
@[simp] theorem leave_calls : (s.leave i).calls = s.calls.pop i := rfl
@[simp] theorem leave_installed : (s.leave i).installed = s.installed := rfl
@[simp] theorem setManager_manager : (s.setManager m).manager = m := rfl
@[simp] theorem setManager_calls : (s.setManager m).calls = s.calls := rfl
@[simp] theorem setManager_installed :
    (s.setManager m).installed = s.installed := rfl

end Updates

/-! ## What a step can do -/

/-- The step of the call at `i`, which is at `call` with the transaction `txn`. -/
inductive CallStep (s : EndSystem) (i : ThreadId) (call : EndCall)
    (txn : Transaction) : EndSystem → Prop
  | log (hstage : call.stage = .checked) :
      CallStep s i call txn ((s.setManager (s.manager.log
        (call.outcome.record call.txnId))).setStage i call .logged)
  | loop (hstage : call.stage = .logged) (hcommit : call.outcome = .commit) :
      CallStep s i call txn
        (s.setStage i call (.iterating txn.writeBuffer.items.length 0))
  | clear (hstage : call.stage = .logged) (habort : call.outcome = .abort) :
      CallStep s i call txn ((s.setManager (s.manager.putTxn call.txnId
        { txn with writeBuffer := .empty })).setStage i call .applied)
  | raised {used pos : Nat} (hstage : call.stage = .iterating used pos)
      (hused : txn.writeBuffer.items.length ≠ used) :
      CallStep s i call txn (s.leave i)
  | fetch {used pos : Nat} {item : String × String}
      (hstage : call.stage = .iterating used pos)
      (hused : txn.writeBuffer.items.length = used)
      (hitem : txn.writeBuffer.items[pos]? = some item) :
      CallStep s i call txn (s.setStage i call (.writing used pos item))
  | exhausted {used pos : Nat} (hstage : call.stage = .iterating used pos)
      (hused : txn.writeBuffer.items.length = used)
      (hitem : txn.writeBuffer.items[pos]? = none) :
      CallStep s i call txn ((s.setManager { s.manager with
        commits := s.manager.commits ++ [call.txnId] }).setStage i call .applied)
  | write {used pos : Nat} {item : String × String}
      (hstage : call.stage = .writing used pos item) :
      CallStep s i call txn (s.write i call used pos item)
  | mark (hstage : call.stage = .applied) :
      CallStep s i call txn ((s.setManager (s.manager.putTxn call.txnId
        { txn with status := call.outcome.status })).setStage i call .marked)
  | finish (order : List Resource) (hstage : call.stage = .marked) :
      CallStep s i call txn ((s.setManager (s.manager.clearLocks call.txnId txn
        order call.outcome)).leave i)

section Steps

variable {s s' : EndSystem} {i : ThreadId} {t : TxnId}

theorem enter_cases {outcome : Outcome} (h : s.enter i t outcome = some s') :
    s' = s ∧ s.manager.getActive t = none ∨
      (∃ txn, s.manager.getActive t = some txn) ∧
      s.calls.get? i = none ∧
      s' = { s with calls := s.calls.set i ⟨t, outcome, .checked⟩ } := by
  unfold enter at h
  split at h
  · cases h
  · next hidle =>
    split at h
    · next hnone =>
      cases h
      exact .inl ⟨rfl, hnone⟩
    · next txn hactive =>
      cases h
      exact .inr ⟨⟨txn, hactive⟩, hidle, rfl⟩

theorem proceed_cases {order : List Resource}
    (h : s.proceed i order = some s') :
    ∃ call txn, s.calls.get? i = some call ∧
      s.manager.transactions.get? call.txnId = some txn ∧
      CallStep s i call txn s' := by
  unfold proceed at h
  split at h
  · cases h
  · next call hcall =>
    split at h
    · cases h
    · next txn htxn =>
      refine ⟨call, txn, hcall, htxn, ?_⟩
      cases hstage : call.stage with
      | checked =>
          simp only [hstage] at h
          cases h
          exact .log hstage
      | logged =>
          simp only [hstage, apply] at h
          cases houtcome : call.outcome with
          | commit =>
              simp only [houtcome] at h
              cases h
              exact .loop hstage houtcome
          | abort =>
              simp only [houtcome] at h
              cases h
              exact .clear hstage houtcome
      | iterating used pos =>
          simp only [hstage, next] at h
          by_cases hused : txn.writeBuffer.items.length = used
          · rw [if_neg (not_not_intro hused)] at h
            cases hitem : txn.writeBuffer.items[pos]? with
            | none =>
                simp only [hitem] at h
                cases h
                exact .exhausted hstage hused hitem
            | some item =>
                simp only [hitem] at h
                cases h
                exact .fetch hstage hused hitem
          · rw [if_pos hused] at h
            cases h
            exact .raised hstage hused
      | writing used pos item =>
          simp only [hstage] at h
          cases h
          exact .write hstage
      | applied =>
          simp only [hstage] at h
          cases h
          exact .mark hstage
      | marked =>
          simp only [hstage] at h
          obtain ⟨-, heq⟩ := Option.ite_none_right_eq_some.mp h
          cases heq
          exact .finish order hstage

end Steps

/-! ## Calls that nothing interrupts -/

section Whole

variable {s : EndSystem} {i : ThreadId} {t : TxnId} {txn : Transaction}

/-- The loop from the item at `before.length` on. -/
theorem run_loop (order : List Resource) {before rest : List (String × String)}
    (hitems : txn.writeBuffer.items = before ++ rest)
    (hget : s.manager.transactions.get? t = some txn)
    (hcall : s.calls.get? i = some
      ⟨t, .commit, .iterating (before ++ rest).length before.length⟩) :
    ∃ s', run step s
        (List.replicate (2 * rest.length + 1) (.proceed i order)) = some s' ∧
      s'.manager = { s.manager with
        store := rest.foldl installItem s.manager.store
        commits := s.manager.commits ++ [t] } ∧
      s'.installed = s.installed ++ rest.map (fun item => (t, item)) ∧
      s'.calls.get? i = some ⟨t, .commit, .applied⟩ := by
  induction rest generalizing before s with
  | nil =>
      have hstep : step s (.proceed i order) = some
          ((s.setManager { s.manager with
            commits := s.manager.commits ++ [t] }).setStage i
            ⟨t, .commit, .iterating (before ++ []).length before.length⟩
            .applied) := by
        simp [step, proceed, hcall, hget, next, hitems]
      refine ⟨_, run_cons_of_step hstep, ?_, ?_, ?_⟩
      · simp
      · simp
      · simp [Dict.get?_set_self]
  | cons item rest ih =>
      set used := (before ++ item :: rest).length with hused
      set call : EndCall := ⟨t, .commit, .iterating used before.length⟩
      have hfetch : step s (.proceed i order) =
          some (s.setStage i call (.writing used before.length item)) := by
        have hitem : (before ++ item :: rest)[before.length]? = some item := by
          simp
        simp [step, proceed, hcall, call, hget, next, hitems, ← hused, hitem]
      set call' : EndCall := ⟨t, .commit, .writing used before.length item⟩
      set s₁ := s.setStage i call (.writing used before.length item) with hs₁
      have hwrite : step s₁ (.proceed i order) =
          some (s₁.write i call' used before.length item) := by
        simp [step, proceed, hs₁, call, call', hget, Dict.get?_set_self]
      have hitems' : txn.writeBuffer.items = (before ++ [item]) ++ rest := by
        rw [hitems, List.append_assoc]
        rfl
      obtain ⟨s', hrun, hmanager, hinstalled, hlast⟩ :=
        ih (s := s₁.write i call' used before.length item) hitems' hget
          (by simp [EndSystem.write, call', hused, Dict.get?_set_self])
      refine ⟨s', ?_, ?_, ?_, hlast⟩
      · have hlength : 2 * (item :: rest).length + 1 =
            2 * rest.length + 1 + 1 + 1 := by
          rw [List.length_cons]
          omega
        rw [hlength, List.replicate_succ, run_cons_of_step hfetch,
          List.replicate_succ, run_cons_of_step hwrite]
        exact hrun
      · rw [hmanager]
        rfl
      · rw [hinstalled]
        simp [EndSystem.write, hs₁, call']

/-- The check and the log record. -/
theorem run_enter (hidle : s.calls.get? i = none)
    (hactive : s.manager.getActive t = some txn) (o : Outcome)
    (order : List Resource) (rest : List EndAction) :
    ∃ s', run step s (.enter i t o :: .proceed i order :: rest) =
        run step s' rest ∧
      s'.manager = s.manager.log (o.record t) ∧
      s'.installed = s.installed ∧
      s'.calls.get? i = some ⟨t, o, .logged⟩ := by
  set s₁ : EndSystem := { s with calls := s.calls.set i ⟨t, o, .checked⟩ }
    with hs₁
  have henter : step s (.enter i t o) = some s₁ := by
    simp only [step, enter, hidle, hactive, hs₁]
  have hget : s₁.manager.transactions.get? t = some txn :=
    (TransactionManager.getActive_eq_some.mp hactive).1
  have hlog : step s₁ (.proceed i order) = some
      ((s₁.setManager (s₁.manager.log (o.record t))).setStage i
        ⟨t, o, .checked⟩ .logged) := by
    have hcall : s₁.calls.get? i = some ⟨t, o, .checked⟩ :=
      Dict.get?_set_self _ _ _
    simp only [step, proceed, hcall, hget]
  refine ⟨_, (run_cons_of_step henter).trans (run_cons_of_step hlog), rfl, rfl,
    ?_⟩
  simp [Dict.get?_set_self]

/-- The status and the locks. -/
theorem run_finish (hget : s.manager.transactions.get? t = some txn)
    {o : Outcome} (hcall : s.calls.get? i = some ⟨t, o, .applied⟩)
    {order : List Resource} (hiter : s.manager.Iterates t order) :
    ∃ s', run step s (List.replicate 2 (.proceed i order)) = some s' ∧
      s'.manager = (s.manager.putTxn t
        { txn with status := o.status }).clearLocks t
          { txn with status := o.status } order o ∧
      s'.installed = s.installed := by
  set s₁ := (s.setManager (s.manager.putTxn t
    { txn with status := o.status })).setStage i ⟨t, o, .applied⟩ .marked
    with hs₁
  have hmark : step s (.proceed i order) = some s₁ := by
    simp only [step, proceed, hcall, hget, hs₁]
  have hcall' : s₁.calls.get? i = some ⟨t, o, .marked⟩ :=
    Dict.get?_set_self _ _ _
  have hget' : s₁.manager.transactions.get? t =
      some { txn with status := o.status } :=
    Dict.get?_set_self _ _ _
  have hiter' : s₁.manager.Iterates t order := hiter
  have hfinish : step s₁ (.proceed i order) = some ((s₁.setManager
      (s₁.manager.clearLocks t { txn with status := o.status } order o)).leave
      i) := by
    simp only [step, proceed, hcall', hget', if_pos hiter']
  refine ⟨_, (run_cons_of_step hmark).trans (run_cons_of_step hfinish), rfl, rfl⟩

/-- Without interruption the steps of `commit` make its single step, and every
buffered write is installed. -/
theorem run_wholeCommit {order : List Resource}
    (hidle : s.calls.get? i = none) (hactive : s.manager.getActive t = some txn)
    (hiter : s.manager.Iterates t order) :
    ∃ s', run step s (.enter i t .commit :: List.replicate
        (2 * txn.writeBuffer.items.length + 5) (.proceed i order)) = some s' ∧
      s'.manager = (s.manager.commit t order).1 ∧
      s'.installed = s.installed ++
        txn.writeBuffer.items.map fun item => (t, item) := by
  have hget : s.manager.transactions.get? t = some txn :=
    (TransactionManager.getActive_eq_some.mp hactive).1
  set loop := List.replicate (2 * txn.writeBuffer.items.length + 1)
    (EndAction.proceed i order)
  have hsteps : List.replicate (2 * txn.writeBuffer.items.length + 5)
      (EndAction.proceed i order) = .proceed i order :: .proceed i order ::
        (loop ++ List.replicate 2 (.proceed i order)) := by
    rw [List.replicate_append_replicate, ← List.replicate_succ,
      ← List.replicate_succ]
  obtain ⟨s₁, henter, hmanager₁, hinstalled₁, hcall₁⟩ := run_enter hidle hactive
    .commit order (.proceed i order ::
      (loop ++ List.replicate 2 (.proceed i order)))
  have hget₁ : s₁.manager.transactions.get? t = some txn := by
    rw [hmanager₁]
    exact hget
  set s₂ := s₁.setStage i ⟨t, .commit, .logged⟩
    (.iterating txn.writeBuffer.items.length 0) with hs₂
  have hstart : step s₁ (.proceed i order) = some s₂ := by
    simp only [step, proceed, hcall₁, hget₁, apply, hs₂]
  obtain ⟨s₃, hloop, hmanager₃, hinstalled₃, hcall₃⟩ := run_loop (s := s₂) (i := i)
    order (List.nil_append _).symm hget₁ (Dict.get?_set_self _ _ _)
  have hget₃ : s₃.manager.transactions.get? t = some txn := by
    rw [hmanager₃]
    exact hget₁
  have hiter₃ : s₃.manager.Iterates t order := by
    rw [hmanager₃, hs₂, setStage_manager, hmanager₁]
    exact hiter
  obtain ⟨s', hfinish, hmanager, hinstalled⟩ := run_finish hget₃ hcall₃ hiter₃
  refine ⟨s', ?_, ?_, ?_⟩
  · rw [hsteps, henter, run_cons_of_step hstart, run_append]
    exact ⟨s₃, hloop, hfinish⟩
  · rw [hmanager, hmanager₃, hs₂, setStage_manager, hmanager₁,
      TransactionManager.commit_eq hactive]
    rfl
  · rw [hinstalled, hinstalled₃, hs₂, setStage_installed, hinstalled₁]

/-- Without interruption the steps of `abort` make its single step, and nothing is
installed. -/
theorem run_wholeAbort {order : List Resource}
    (hidle : s.calls.get? i = none) (hactive : s.manager.getActive t = some txn)
    (hiter : s.manager.Iterates t order) :
    ∃ s', run step s (.enter i t .abort ::
        List.replicate 4 (.proceed i order)) = some s' ∧
      s'.manager = s.manager.abort t order ∧ s'.installed = s.installed := by
  have hget : s.manager.transactions.get? t = some txn :=
    (TransactionManager.getActive_eq_some.mp hactive).1
  obtain ⟨s₁, henter, hmanager₁, hinstalled₁, hcall₁⟩ :=
    run_enter hidle hactive .abort order (List.replicate 3 (.proceed i order))
  have hget₁ : s₁.manager.transactions.get? t = some txn := by
    rw [hmanager₁]
    exact hget
  set s₂ := (s₁.setManager (s₁.manager.putTxn t
    { txn with writeBuffer := .empty })).setStage i ⟨t, .abort, .logged⟩ .applied
    with hs₂
  have hclear : step s₁ (.proceed i order) = some s₂ := by
    simp only [step, proceed, hcall₁, hget₁, apply, hs₂]
  have hiter₂ : s₂.manager.Iterates t order := by
    rw [hs₂, setStage_manager, setManager_manager, hmanager₁]
    exact hiter
  obtain ⟨s', hfinish, hmanager, hinstalled⟩ := run_finish (s := s₂) (o := .abort)
    (Dict.get?_set_self _ _ _) (Dict.get?_set_self _ _ _) hiter₂
  refine ⟨s', ?_, ?_, ?_⟩
  · exact henter.trans ((run_cons_of_step hclear).trans hfinish)
  · rw [hmanager, TransactionManager.abort_eq hactive, hs₂, setStage_manager,
      setManager_manager, hmanager₁]
    simp only [TransactionManager.putTxn, Dict.set_set]
    rfl
  · rw [hinstalled]
    exact hinstalled₁

end Whole

end EndSystem

end DistributedMemory.Storage
